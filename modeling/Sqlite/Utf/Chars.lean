import Sqlite.Foundation.Bytes
import Sqlite.Utf.Model

/-! One character, written and read back. -/
namespace Sqlite.Utf

open Foundation

variable {c : ℕ} {zIn : List UInt8}

theorem toNat_ofNat {n : ℕ} (h : n < 256) : (UInt8.ofNat n).toNat = n := by
  rw [UInt8.toNat_ofNat', Nat.mod_eq_of_lt h]

/-- The lead byte of a character of `k` more bytes gives the bits that it holds. -/
theorem trans1_two {i : ℕ} (h : i < 32) : sqlite3Utf8Trans1[i]? = some i := by
  interval_cases i <;> rfl

theorem trans1_three {i : ℕ} (h : i < 16) : sqlite3Utf8Trans1[32 + i]? = some i := by
  interval_cases i <;> rfl

theorem trans1_four {i : ℕ} (h : i < 8) : sqlite3Utf8Trans1[48 + i]? = some i := by
  interval_cases i <;> rfl

theorem trans1_lt {i : ℕ} (h : i < 64) : ∃ c, sqlite3Utf8Trans1[i]? = some c ∧ c < 32 := by
  interval_cases i <;> exact ⟨_, rfl, by decide⟩

/-- A byte that continues a character. -/
def Continues (b : UInt8) : Prop := b.toNat &&& 0xc0 = 0x80

instance (b : UInt8) : Decidable (Continues b) := inferInstanceAs (Decidable (_ = _))

theorem continues_iff (b : UInt8) : Continues b ↔ 128 ≤ b.toNat ∧ b.toNat < 192 := by
  have hlt := b.toNat_lt
  have hmask : b.toNat &&& 0xc0 = b.toNat / 2 ^ 6 % 2 ^ 2 * 2 ^ 6 := and_mask b.toNat 2 6
  unfold Continues
  rw [hmask]
  omega

/-- The bytes that continue a character of six more bits each. -/
def tailByte (x : ℕ) : UInt8 := .ofNat (0x80 + x % 64)

theorem tailByte_toNat (x : ℕ) : (tailByte x).toNat = 128 + x % 64 := toNat_ofNat (by omega)

theorem utf8Tail_tailByte (c x : ℕ) (zIn : List UInt8) :
    utf8Tail c (tailByte x :: zIn) = utf8Tail ((c * 64 + x % 64) % 4294967296) zIn := by
  have hb := tailByte_toNat x
  have hc : Continues (tailByte x) := by
    rw [continues_iff, hb]
    omega
  have hlow : 0x3f &&& (tailByte x).toNat = x % 64 := by
    rw [Nat.and_comm, hb]
    have hm : 128 + x % 64 &&& 0x3f = (128 + x % 64) % 2 ^ 6 := and_low _ 6
    omega
  show (if Continues (tailByte x) then _ else _) = _
  rw [if_pos hc, hlow, Nat.shiftLeft_eq]

/-- The next byte, when there is one, begins a character. -/
def Begins (zIn : List UInt8) : Prop := ∀ b ∈ zIn.head?, ¬ Continues b

theorem utf8Tail_begins (c : ℕ) (h : Begins zIn) : utf8Tail c zIn = (c, zIn) := by
  cases zIn with
  | nil => rfl
  | cons b zIn => exact if_neg (h b rfl)

theorem WRITE_UTF8_eq (c : ℕ) : WRITE_UTF8 c =
    if c < 0x80 then [.ofNat c]
    else if c < 0x800 then [.ofNat (0xC0 + c / 64 % 32), tailByte c]
    else if c < 0x10000 then [.ofNat (0xE0 + c / 4096 % 16), tailByte (c / 64), tailByte c]
    else [.ofNat (0xF0 + c / 262144 % 8), tailByte (c / 4096), tailByte (c / 64), tailByte c] := by
  have h6 (x : ℕ) : x &&& 0x3F = x % 64 := and_low x 6
  have h5 (x : ℕ) : x &&& 0x1F = x % 32 := and_low x 5
  have h4 (x : ℕ) : x &&& 0x0F = x % 16 := and_low x 4
  have h3 (x : ℕ) : x &&& 0x07 = x % 8 := and_low x 3
  have h8 (x : ℕ) : x &&& 0xFF = x % 256 := and_low x 8
  unfold WRITE_UTF8 tailByte
  simp only [h6, h5, h4, h3, h8, Nat.shiftRight_eq_div_pow]
  split
  · rw [Nat.mod_eq_of_lt (by omega)]
  · rfl

/-- The macro writes what the standard says. -/
theorem WRITE_UTF8_char (c : Char) : WRITE_UTF8 c.toNat = String.utf8EncodeChar c := by
  rw [WRITE_UTF8_eq]
  unfold String.utf8EncodeChar tailByte
  show _ = if c.toNat ≤ 0x7f then [UInt8.ofNat c.toNat]
    else if c.toNat ≤ 0x7ff then [UInt8.ofNat (c.toNat / 64 % 0x20 + 0xc0), UInt8.ofNat (c.toNat % 0x40 + 0x80)]
    else if c.toNat ≤ 0xffff then
      [UInt8.ofNat (c.toNat / 4096 % 0x10 + 0xe0), UInt8.ofNat (c.toNat / 64 % 0x40 + 0x80),
        UInt8.ofNat (c.toNat % 0x40 + 0x80)]
    else
      [UInt8.ofNat (c.toNat / 262144 % 0x08 + 0xf0), UInt8.ofNat (c.toNat / 4096 % 0x40 + 0x80),
        UInt8.ofNat (c.toNat / 64 % 0x40 + 0x80), UInt8.ofNat (c.toNat % 0x40 + 0x80)]
  generalize c.toNat = n
  rw [Nat.add_comm (n / 64 % 0x20) 0xc0, Nat.add_comm (n / 4096 % 0x10) 0xe0,
    Nat.add_comm (n / 262144 % 0x08) 0xf0, Nat.add_comm (n / 4096 % 0x40) 0x80,
    Nat.add_comm (n / 64 % 0x40) 0x80, Nat.add_comm (n % 0x40) 0x80]
  by_cases h1 : n < 0x80
  · rw [if_pos h1, if_pos (by omega)]
  by_cases h2 : n < 0x800
  · rw [if_neg h1, if_pos h2, if_neg (by omega), if_pos (by omega)]
  by_cases h3 : n < 0x10000
  · rw [if_neg h1, if_neg h2, if_pos h3, if_neg (by omega), if_neg (by omega), if_pos (by omega)]
  · rw [if_neg h1, if_neg h2, if_neg h3, if_neg (by omega), if_neg (by omega), if_neg (by omega)]

/-- The characters that every encoding keeps. -/
def Kept (c : ℕ) : Prop := c < 0x110000 ∧ ¬ (0xD800 ≤ c ∧ c < 0xE000) ∧ c ≠ 0xFFFE ∧ c ≠ 0xFFFF

theorem Kept.not_replaced (h : Kept c) (h80 : 0x80 ≤ c) :
    ¬ (c < 0x80 ∨ c &&& 0xFFFFF800 = 0xD800 ∨ c &&& 0xFFFFFFFE = 0xFFFE) := by
  obtain ⟨h1, h2, h3, h4⟩ := h
  have hs : c &&& 0xFFFFF800 = c / 2 ^ 11 % 2 ^ 21 * 2 ^ 11 := and_mask c 21 11
  have hf : c &&& 0xFFFFFFFE = c / 2 ^ 1 % 2 ^ 31 * 2 ^ 1 := and_mask c 31 1
  rw [hs, hf]
  omega

/-- A lead byte whose continuation gives `c`. -/
theorem READ_UTF8_lead {b : UInt8} {i x : ℕ} {zIn rest : List UInt8} (hb : b.toNat = 0xc0 + i)
    (hi : sqlite3Utf8Trans1[i]? = some x) (ht : utf8Tail x zIn = (c, rest)) (h : Kept c)
    (h80 : 0x80 ≤ c) : READ_UTF8 (b :: zIn) = some (c, rest) := by
  have hsub : b.toNat - 0xc0 = i := by omega
  rw [READ_UTF8, if_pos (by omega), hsub, hi]
  simp only [ht]
  rw [if_neg (h.not_replaced h80)]

/-- UTF-8 that is written is read back, when a new character follows. -/
theorem READ_UTF8_WRITE_UTF8 (h : Kept c) (hr : Begins zIn) :
    READ_UTF8 (WRITE_UTF8 c ++ zIn) = some (c, zIn) := by
  obtain ⟨hc, -, -, -⟩ := id h
  rw [WRITE_UTF8_eq]
  split
  · rename_i h1
    have hb : (UInt8.ofNat c).toNat = c := toNat_ofNat (by omega)
    rw [List.singleton_append, READ_UTF8, hb, if_neg (by omega)]
  split
  · rename_i h1 h2
    rw [List.cons_append, List.cons_append, List.nil_append]
    apply READ_UTF8_lead (toNat_ofNat (by omega)) (trans1_two (by omega)) ?_ h (by omega)
    rw [utf8Tail_tailByte, utf8Tail_begins _ hr]
    congr 1
    omega
  split
  · rename_i h1 h2 h3
    have hb : (UInt8.ofNat (0xE0 + c / 4096 % 16)).toNat = 0xc0 + (32 + c / 4096 % 16) := by
      rw [toNat_ofNat (by omega)]
      omega
    rw [List.cons_append, List.cons_append, List.cons_append, List.nil_append]
    apply READ_UTF8_lead hb (trans1_three (by omega)) ?_ h (by omega)
    rw [utf8Tail_tailByte, utf8Tail_tailByte, utf8Tail_begins _ hr]
    congr 1
    omega
  · rename_i h1 h2 h3
    have hb : (UInt8.ofNat (0xF0 + c / 262144 % 8)).toNat = 0xc0 + (48 + c / 262144 % 8) := by
      rw [toNat_ofNat (by omega)]
      omega
    rw [List.cons_append, List.cons_append, List.cons_append, List.cons_append, List.nil_append]
    apply READ_UTF8_lead hb (trans1_four (by omega)) ?_ h (by omega)
    rw [utf8Tail_tailByte, utf8Tail_tailByte, utf8Tail_tailByte, utf8Tail_begins _ hr]
    congr 1
    omega

theorem tailByte_continues (x : ℕ) : Continues (tailByte x) := by
  rw [continues_iff, tailByte_toNat]
  omega

/-- One byte below 0x80, or a lead byte and bytes that continue it. -/
theorem WRITE_UTF8_parts (c : ℕ) : ∃ b tl, WRITE_UTF8 c = b :: tl ∧ (∀ x ∈ tl, Continues x) ∧
    (c < 0x80 → b.toNat = c ∧ tl = []) ∧ (0x80 ≤ c → 0xc0 ≤ b.toNat) := by
  rw [WRITE_UTF8_eq]
  split
  · have hb : (UInt8.ofNat c).toNat = c := toNat_ofNat (by omega)
    exact ⟨_, [], rfl, by simp, fun _ => ⟨hb, rfl⟩, by omega⟩
  split
  · exact ⟨_, _, rfl, by simp [tailByte_continues], by omega,
      fun _ => by rw [toNat_ofNat (by omega)]; omega⟩
  split
  · exact ⟨_, _, rfl, by simp [tailByte_continues], by omega,
      fun _ => by rw [toNat_ofNat (by omega)]; omega⟩
  · exact ⟨_, _, rfl, by simp [tailByte_continues], by omega,
      fun _ => by rw [toNat_ofNat (by omega)]; omega⟩

theorem WRITE_UTF8_begins (c : ℕ) (zIn : List UInt8) : Begins (WRITE_UTF8 c ++ zIn) := by
  obtain ⟨b, tl, heq, -, hone, hlead⟩ := WRITE_UTF8_parts c
  intro x hx
  rw [heq] at hx
  obtain rfl : b = x := Option.some.inj hx
  rw [continues_iff]
  by_cases hc : c < 0x80
  · obtain ⟨hb, -⟩ := hone hc
    omega
  · have hb := hlead (by omega)
    omega

/-- A byte order: how a unit is written, and how it is read. -/
structure ByteOrder (bytes : UInt8 → UInt8 → List UInt8) (unit : UInt8 → UInt8 → ℕ) : Prop where
  two : ∀ lo hi zIn, ∃ b0 b1, bytes lo hi ++ zIn = b0 :: b1 :: zIn ∧
    unit b0 b1 = lo.toNat + 256 * hi.toNat
  lt : ∀ b0 b1, unit b0 b1 < 65536

theorem byteOrder_le : ByteOrder (fun lo hi => [lo, hi]) (fun b0 b1 => b0.toNat + (b1.toNat <<< 8)) := by
  constructor
  · intro lo hi zIn
    refine ⟨lo, hi, rfl, ?_⟩
    simp only [Nat.shiftLeft_eq]
    omega
  · intro b0 b1
    have h0 := b0.toNat_lt
    have h1 := b1.toNat_lt
    simp only [Nat.shiftLeft_eq]
    omega

theorem byteOrder_be : ByteOrder (fun lo hi => [hi, lo]) (fun b0 b1 => (b0.toNat <<< 8) + b1.toNat) := by
  constructor
  · intro lo hi zIn
    refine ⟨hi, lo, rfl, ?_⟩
    simp only [Nat.shiftLeft_eq]
    omega
  · intro b0 b1
    have h0 := b0.toNat_lt
    have h1 := b1.toNat_lt
    simp only [Nat.shiftLeft_eq]
    omega

variable {bytes : UInt8 → UInt8 → List UInt8} {unit : UInt8 → UInt8 → ℕ}

/-- The units of a surrogate pair. -/
theorem writeUtf16_pair (h : 0x10000 ≤ c) (hc : c < 0x110000) : writeUtf16 bytes c =
    bytes (.ofNat (c / 1024 % 64 + (c - 65536) / 65536 % 4 * 64)) (.ofNat (216 + (c - 65536) / 262144)) ++
      bytes (.ofNat (c % 256)) (.ofNat (220 + c / 256 % 4)) := by
  have h8 : c &&& 0xFF = c % 256 := and_low c 8
  have h6 : (c >>> 10) &&& 0x3F = c / 1024 % 64 := by
    rw [Nat.shiftRight_eq_div_pow]
    exact and_low _ 6
  have h2 : (c >>> 8) &&& 0x03 = c / 256 % 4 := by
    rw [Nat.shiftRight_eq_div_pow]
    exact and_low _ 2
  have hc0 : ((c - 0x10000) >>> 10) &&& 0xC0 = (c - 65536) / 65536 % 4 * 64 := by
    rw [Nat.shiftRight_eq_div_pow]
    have hm : (c - 0x10000) / 2 ^ 10 &&& 0xC0 = (c - 0x10000) / 2 ^ 10 / 2 ^ 6 % 2 ^ 2 * 2 ^ 6 :=
      and_mask _ 2 6
    omega
  have h3 : ((c - 0x10000) >>> 18) &&& 0x03 = (c - 65536) / 262144 := by
    rw [Nat.shiftRight_eq_div_pow]
    have hm : (c - 0x10000) / 2 ^ 18 &&& 0x03 = (c - 0x10000) / 2 ^ 18 % 2 ^ 2 := and_low _ 2
    omega
  unfold writeUtf16
  rw [if_neg (by omega), h8, h6, h2, hc0, h3]

theorem writeUtf16_unit (h : c ≤ 0xFFFF) :
    writeUtf16 bytes c = bytes (.ofNat (c % 256)) (.ofNat (c / 256)) := by
  have h8 : c &&& 0xFF = c % 256 := and_low c 8
  have hh : (c >>> 8) &&& 0xFF = c / 256 := by
    rw [Nat.shiftRight_eq_div_pow]
    have hm : c / 2 ^ 8 &&& 0xFF = c / 2 ^ 8 % 2 ^ 8 := and_low _ 8
    omega
  unfold writeUtf16
  rw [if_pos h, h8, hh]

/-- UTF-16 that is written is read back. -/
theorem readUtf16_writeUtf16 (ho : ByteOrder bytes unit) (h : Kept c) :
    readUtf16 unit (writeUtf16 bytes c ++ zIn) = some (c, zIn) := by
  obtain ⟨hc, hs, -, -⟩ := h
  by_cases hle : c ≤ 0xFFFF
  · obtain ⟨b0, b1, h1, h2⟩ := ho.two (.ofNat (c % 256)) (.ofNat (c / 256)) zIn
    rw [toNat_ofNat (by omega), toNat_ofNat (by omega)] at h2
    have hu : unit b0 b1 = c := by omega
    rw [writeUtf16_unit hle, h1]
    unfold readUtf16
    simp only [hu]
    rw [if_neg (fun hc => hs ⟨hc.1, hc.2.1⟩)]
  · obtain ⟨b2, b3, h3, h4⟩ := ho.two (.ofNat (c % 256)) (.ofNat (220 + c / 256 % 4)) zIn
    obtain ⟨b0, b1, h1, h2⟩ := ho.two
      (.ofNat (c / 1024 % 64 + (c - 65536) / 65536 % 4 * 64)) (.ofNat (216 + (c - 65536) / 262144))
      (b2 :: b3 :: zIn)
    rw [toNat_ofNat (by omega), toNat_ofNat (by omega)] at h2 h4
    rw [writeUtf16_pair (by omega) hc, List.append_assoc, h3, h1]
    have hlow : unit b2 b3 &&& 0x03FF = unit b2 b3 % 2 ^ 10 := and_low _ 10
    have hmid : unit b0 b1 &&& 0x003F = unit b0 b1 % 2 ^ 6 := and_low _ 6
    have hhigh : unit b0 b1 &&& 0x03C0 = unit b0 b1 / 2 ^ 6 % 2 ^ 4 * 2 ^ 6 := and_mask _ 4 6
    have hsur : 0xD800 ≤ unit b0 b1 ∧ unit b0 b1 < 0xE000 ∧ b2 :: b3 :: zIn ≠ [] :=
      ⟨by omega, by omega, List.cons_ne_nil _ _⟩
    simp only [readUtf16]
    rw [if_pos hsur]
    simp only [hlow, hmid, hhigh, Nat.shiftLeft_eq]
    congr 2
    omega

end Sqlite.Utf

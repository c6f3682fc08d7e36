import Mathlib.Tactic.Ring
import Mathlib.Tactic.SplitIfs
import Sqlite.Utf.Chars

/-! When a translation stays in its buffers, and what it gives. -/
namespace Sqlite.Utf


section

/-! The loops over a text: how much they write, and what. -/

variable {read : List UInt8 → Option (ℕ × List UInt8)} {write : ℕ → List UInt8} {ok : ℕ → Prop}
  {size n c : ℕ} {zIn z out : List UInt8} {cs : List ℕ} {bytes : UInt8 → UInt8 → List UInt8}
  {unit : UInt8 → UInt8 → ℕ}

/-- Each character takes at most twice the bytes that it was read from; `ok` holds of the number of
bytes left. -/
def Grows (read : List UInt8 → Option (ℕ × List UInt8)) (write : ℕ → List UInt8) (ok : ℕ → Prop) :
    Prop :=
  ∀ zIn, zIn ≠ [] → ok zIn.length → ∃ c rest, read zIn = some (c, rest) ∧ ok rest.length ∧
    rest.length < zIn.length ∧ (write c).length + 2 * rest.length ≤ 2 * zIn.length

theorem transLoop_spec (hg : Grows read write ok) (hn : zIn.length ≤ n) (hok : ok zIn.length)
    (hs : z.length + 2 * zIn.length ≤ size) :
    ∃ out, transLoop read write size n zIn z = some out ∧
      out.length ≤ z.length + 2 * zIn.length := by
  induction n generalizing zIn z with
  | zero =>
    obtain rfl := List.length_eq_zero_iff.mp (Nat.le_zero.mp hn)
    exact ⟨z, rfl, Nat.le_add_right _ _⟩
  | succ n ih =>
    cases zIn with
    | nil => exact ⟨z, rfl, Nat.le_add_right _ _⟩
    | cons b zIn =>
      obtain ⟨c, rest, h1, h2, h3, h4⟩ := hg (b :: zIn) (List.cons_ne_nil _ _) hok
      have hfit : z.length + (write c).length ≤ size := by omega
      have hlen : (z ++ write c).length = z.length + (write c).length := List.length_append
      obtain ⟨out, g1, g2⟩ := @ih rest (z ++ write c) (by omega) h2 (by omega)
      refine ⟨out, ?_, by omega⟩
      rw [transLoop, h1]
      simp only [if_pos hfit]
      exact g1

/-- The characters of a text. -/
def codes (read : List UInt8 → Option (ℕ × List UInt8)) : ℕ → List UInt8 → List ℕ
  | _, [] => []
  | 0, _ :: _ => []
  | n + 1, b :: zIn =>
    match read (b :: zIn) with
    | none => []
    | some (c, zIn) => c :: codes read n zIn

theorem transLoop_codes (h : transLoop read write size n zIn z = some out) :
    out = z ++ (codes read n zIn).flatMap write := by
  induction n generalizing zIn z with
  | zero =>
    cases zIn with
    | nil =>
      obtain rfl := Option.some.inj h
      exact (List.append_nil z).symm
    | cons b zIn => cases h
  | succ n ih =>
    cases zIn with
    | nil =>
      obtain rfl := Option.some.inj h
      exact (List.append_nil z).symm
    | cons b zIn =>
      rw [transLoop] at h
      rw [codes]
      cases hr : read (b :: zIn) with
      | none =>
        rw [hr] at h
        cases h
      | some r =>
        rw [hr] at h
        obtain ⟨c, rest⟩ := r
        simp only at h ⊢
        split at h
        · rw [ih h, List.flatMap_cons, List.append_assoc]
        · cases h

/-- What is written is read back; `Q` is what the reader needs of the text that follows. -/
theorem codes_flatMap {Q : List UInt8 → Prop} (hnil : Q []) (hcons : ∀ c rest, Q (write c ++ rest))
    (hne : ∀ c, write c ≠ [])
    (hread : ∀ c rest, Kept c → Q rest → read (write c ++ rest) = some (c, rest))
    (hcs : ∀ c ∈ cs, Kept c) (hn : (cs.flatMap write).length ≤ n) :
    codes read n (cs.flatMap write) = cs := by
  induction cs generalizing n with
  | nil => cases n <;> rfl
  | cons c cs ih =>
    rw [List.flatMap_cons] at hn ⊢
    have hQ : Q (cs.flatMap write) := by
      cases cs with
      | nil => exact hnil
      | cons c' cs => exact hcons c' _
    have hc := hread c (cs.flatMap write) (hcs c List.mem_cons_self) hQ
    have hpos : 0 < (write c).length := List.length_pos_of_ne_nil (hne c)
    rw [List.length_append] at hn
    obtain ⟨n, rfl⟩ : ∃ m, n = m + 1 := ⟨n - 1, by omega⟩
    have hrest := ih (fun c' h' => hcs c' (List.mem_cons_of_mem _ h')) (n := n) (by omega)
    obtain ⟨b, l, hbl⟩ : ∃ b l, write c ++ cs.flatMap write = b :: l :=
      List.exists_cons_of_ne_nil (fun h => hne c (List.append_eq_nil_iff.mp h).1)
    rw [hbl, codes, ← hbl, hc]
    simp only [hrest]

theorem WRITE_UTF8_length (c : ℕ) : (WRITE_UTF8 c).length =
    if c < 0x80 then 1 else if c < 0x800 then 2 else if c < 0x10000 then 3 else 4 := by
  unfold WRITE_UTF8
  split_ifs <;> rfl

theorem ByteOrder.length (ho : ByteOrder bytes unit) (lo hi : UInt8) : (bytes lo hi).length = 2 := by
  obtain ⟨b0, b1, h, -⟩ := ho.two lo hi []
  rw [List.append_nil] at h
  rw [h]
  rfl

theorem ByteOrder.write_length (ho : ByteOrder bytes unit) (c : ℕ) :
    (writeUtf16 bytes c).length = if c ≤ 0xFFFF then 2 else 4 := by
  unfold writeUtf16
  split
  · exact ho.length _ _
  · rw [List.length_append, ho.length, ho.length]

/-- The bytes of a character give six bits each. -/
theorem utf8Tail_lt (c : ℕ) (zIn : List UInt8) : ∃ k, (utf8Tail c zIn).2.length + k = zIn.length ∧
    (utf8Tail c zIn).1 < (c + 1) * 64 ^ k := by
  induction zIn generalizing c with
  | nil => exact ⟨0, rfl, by rw [pow_zero, Nat.mul_one]; exact Nat.lt_succ_self c⟩
  | cons b zIn ih =>
    rw [utf8Tail]
    split
    · obtain ⟨k, h1, h2⟩ := ih (((c <<< 6) + (0x3f &&& b.toNat)) % 4294967296)
      have hlow : 0x3f &&& b.toNat < 64 := lt_of_le_of_lt Nat.and_le_left (by decide)
      have hmod : ((c <<< 6) + (0x3f &&& b.toNat)) % 4294967296 + 1 ≤ (c + 1) * 64 := by
        rw [Nat.shiftLeft_eq]
        have := Nat.mod_le (c * 2 ^ 6 + (0x3f &&& b.toNat)) 4294967296
        omega
      refine ⟨k + 1, by rw [List.length_cons]; omega, lt_of_lt_of_le h2 ?_⟩
      calc (((c <<< 6) + (0x3f &&& b.toNat)) % 4294967296 + 1) * 64 ^ k
          ≤ (c + 1) * 64 * 64 ^ k := Nat.mul_le_mul_right _ hmod
        _ = (c + 1) * 64 ^ (k + 1) := by ring
    · exact ⟨0, rfl, by rw [pow_zero, Nat.mul_one]; exact Nat.lt_succ_self c⟩

/-- A character outside of the first 65536 has at least three bytes. -/
theorem grows_utf8 (ho : ByteOrder bytes unit) :
    Grows READ_UTF8 (writeUtf16 bytes) (fun _ => True) := by
  intro zIn hne _
  cases zIn with
  | nil => exact absurd rfl hne
  | cons b zIn =>
    have hb := b.toNat_lt
    rw [READ_UTF8]
    split
    · obtain ⟨x, hx, hlt⟩ := trans1_lt (i := b.toNat - 0xc0) (by omega)
      obtain ⟨k, h1, h2⟩ := utf8Tail_lt x zIn
      rw [hx]
      simp only
      split
      · refine ⟨_, _, rfl, trivial, ?_, ?_⟩
        · rw [List.length_cons]
          omega
        · rw [ho.write_length, if_pos (by decide), List.length_cons]
          omega
      · refine ⟨_, _, rfl, trivial, ?_, ?_⟩
        · rw [List.length_cons]
          omega
        · rw [ho.write_length, List.length_cons]
          split
          · omega
          · rename_i hc
            have hk : 2 ≤ k := by
              by_contra hk
              have hpow : 64 ^ k ≤ 64 ^ 1 := Nat.pow_le_pow_right (by decide) (by omega)
              have hmul : (x + 1) * 64 ^ k ≤ 32 * 64 ^ 1 := Nat.mul_le_mul hlt hpow
              omega
            omega
    · refine ⟨_, _, rfl, trivial, ?_, ?_⟩
      · rw [List.length_cons]
        omega
      · rw [ho.write_length, if_pos (by omega), List.length_cons]
        omega

theorem grows_utf16 (ho : ByteOrder bytes unit) :
    Grows (readUtf16 unit) WRITE_UTF8 (fun n => n % 2 = 0) := by
  intro zIn hne hok
  obtain _ | ⟨b0, _ | ⟨b1, zIn⟩⟩ := zIn
  · exact absurd rfl hne
  · cases hok
  · have hlt := ho.lt b0 b1
    simp only [List.length_cons] at hok ⊢
    simp only [readUtf16]
    split
    · rename_i hsur
      obtain _ | ⟨b2, _ | ⟨b3, zIn⟩⟩ := zIn
      · exact absurd rfl hsur.2.2
      · simp only [List.length_singleton] at hok
        omega
      · simp only [List.length_cons] at hok ⊢
        refine ⟨_, _, rfl, by omega, by omega, ?_⟩
        rw [WRITE_UTF8_length]
        split_ifs <;> omega
    · refine ⟨_, _, rfl, by omega, by omega, ?_⟩
      rw [WRITE_UTF8_length]
      split_ifs <;> omega

end

variable {mem : MemMethods} {db : Option Db} {pMem pMem' : Mem} {desiredEnc : Enc} {n : ℤ}
  {size : ℕ} {ok : ℕ → Prop} {cs : List ℕ}

theorem sqlite3Malloc_room (h : sqlite3Malloc mem n = some size) : n ≤ size ∧ 0 < n := by
  unfold sqlite3Malloc at h
  split at h
  · cases h
  · have := mem.room _ _ h
    omega

theorem sqlite3DbMallocRaw_room (h : sqlite3DbMallocRaw mem db n = some size) :
    n ≤ size ∧ (n ≤ 0 → size < 65536) := by
  unfold sqlite3DbMallocRaw at h
  split at h
  · have := sqlite3Malloc_room h
    omega
  · rename_i db
    have hsz := db.sz.toNat_lt
    split at h
    · cases h
    · split at h
      · rename_i hslot
        obtain rfl := Option.some.inj h
        omega
      · have := sqlite3Malloc_room h
        omega

theorem i32_eq {x : ℤ} (h0 : -2147483648 ≤ x) (h1 : x < 2147483648) : i32 x = x := by
  unfold i32
  omega

/-- A number of bytes that is too large for an `int` becomes negative, or zero. -/
theorem i32_wrap {x : ℤ} (h0 : 2147483648 ≤ x) (h1 : x ≤ 4294967296) : i32 x = x - 4294967296 := by
  unfold i32
  omega

/-- The bytes that the new buffer may need. -/
def request (pMem : Mem) (desiredEnc : Enc) : ℕ :=
  if pMem.enc ≠ .SQLITE_UTF8 ∧ desiredEnc ≠ .SQLITE_UTF8 then pMem.z.length + 2
  else (inputOf pMem desiredEnc).length * 2 + termLen desiredEnc

/-- The new buffer that a translation uses. -/
def buffer (mem : MemMethods) (db : Option Db) (pMem : Mem) (desiredEnc : Enc) : Option ℕ :=
  if pMem.enc ≠ .SQLITE_UTF8 ∧ desiredEnc ≠ .SQLITE_UTF8 then
    if pMem.own then none else growBlock mem db pMem (i32 (request pMem desiredEnc))
  else sqlite3DbMallocRaw mem db (i32 (request pMem desiredEnc))

/-- The number of bytes that the buffer may need is an `int`, or there is no buffer, or it has this
size all the same. -/
def Fits (mem : MemMethods) (db : Option Db) (pMem : Mem) (desiredEnc : Enc) : Prop :=
  request pMem desiredEnc < 2147483648 ∨
    ∀ size, buffer mem db pMem desiredEnc = some size → request pMem desiredEnc ≤ size

theorem termLen_pos (e : Enc) : 0 < termLen e ∧ termLen e ≤ 2 := by
  cases e <;> decide

theorem evenLen_take (z : List UInt8) : (z.take (evenLen z.length)).length = evenLen z.length := by
  apply List.length_take_of_le
  exact Nat.div_mul_le_self _ 2

theorem inputOf_length (pMem : Mem) (e : Enc) : (inputOf pMem e).length ≤ pMem.z.length := by
  unfold inputOf
  split
  · rw [evenLen_take]
    exact Nat.div_mul_le_self _ 2
  · exact le_refl _

/-- Every pair of a reader and a writer that the code uses. -/
theorem grows_of (hne : pMem.enc ≠ desiredEnc)
    (h : ¬ (pMem.enc ≠ .SQLITE_UTF8 ∧ desiredEnc ≠ .SQLITE_UTF8)) :
    ∃ ok, Grows (readOf pMem.enc) (writeOf desiredEnc) ok ∧ ok (inputOf pMem desiredEnc).length := by
  have heven : (pMem.z.take (evenLen pMem.z.length)).length % 2 = 0 := by
    rw [evenLen_take]
    exact Nat.mul_mod_left _ 2
  cases hd : desiredEnc with
  | SQLITE_UTF8 =>
    cases he : pMem.enc with
    | SQLITE_UTF8 => exact absurd (he.trans hd.symm) hne
    | SQLITE_UTF16LE => exact ⟨_, grows_utf16 byteOrder_le, heven⟩
    | SQLITE_UTF16BE => exact ⟨_, grows_utf16 byteOrder_be, heven⟩
  | SQLITE_UTF16LE =>
    have he : pMem.enc = .SQLITE_UTF8 := by
      by_contra hc
      exact h ⟨hc, by rw [hd]; decide⟩
    rw [he]
    exact ⟨_, grows_utf8 byteOrder_le, trivial⟩
  | SQLITE_UTF16BE =>
    have he : pMem.enc = .SQLITE_UTF8 := by
      by_contra hc
      exact h ⟨hc, by rw [hd]; decide⟩
    rw [he]
    exact ⟨_, grows_utf8 byteOrder_be, trivial⟩

theorem translateCopy_isSome_iff (hne : pMem.enc ≠ desiredEnc) (hlen : pMem.z.length < 2147483648)
    (h : ¬ (pMem.enc ≠ .SQLITE_UTF8 ∧ desiredEnc ≠ .SQLITE_UTF8)) :
    (translateCopy mem db pMem desiredEnc).isSome ↔ Fits mem db pMem desiredEnc := by
  obtain ⟨ok, hg, hok⟩ := grows_of hne h
  have hin := inputOf_length pMem desiredEnc
  have hterm := termLen_pos desiredEnc
  unfold Fits buffer request translateCopy
  rw [if_neg h, if_neg h]
  push_cast
  generalize hp : inputOf pMem desiredEnc = p at *
  generalize termLen desiredEnc = t at *
  cases hm : sqlite3DbMallocRaw mem db (i32 (p.length * 2 + t)) with
  | none => exact ⟨fun _ => Or.inr (fun _ h => by cases h), fun _ => rfl⟩
  | some size =>
    have hroom := sqlite3DbMallocRaw_room hm
    by_cases hbig : p.length * 2 + t < 2147483648
    · rw [i32_eq (by omega) (by omega)] at hroom ⊢
      have hs : (@List.nil UInt8).length + 2 * p.length ≤ size := by
        rw [List.length_nil]
        omega
      obtain ⟨out, h1, h2⟩ := transLoop_spec hg (le_refl p.length) hok hs
      rw [List.length_nil] at h2
      simp only [h1]
      rw [if_pos ⟨by omega, by omega⟩]
      exact ⟨fun _ => Or.inl hbig, fun _ => rfl⟩
    · rw [i32_wrap (by omega) (by omega)] at hroom ⊢
      constructor
      · -- the number that is compared in the assert is not positive
        intro hc
        cases hl : transLoop (readOf pMem.enc) (writeOf desiredEnc) size p.length p [] with
        | none => simp only [hl] at hc; cases hc
        | some z =>
          simp only [hl] at hc
          rw [if_neg (by omega)] at hc
          cases hc
      · rintro (hc | hc)
        · exact absurd hc hbig
        · have := hc size rfl
          omega

theorem growBlock_room (h : growBlock mem db pMem n = some size) : n ≤ size ∧ 32 ≤ size := by
  have hmax : (n : ℤ) ≤ (if n < 32 then 32 else n) ∧ 32 ≤ (if n < 32 then (32 : ℤ) else n) := by
    split <;> omega
  unfold growBlock at h
  generalize (if n < 32 then (32 : ℤ) else n) = m at h hmax
  by_cases hm : (pMem.zMalloc : ℤ) < m
  · have := (sqlite3DbMallocRaw_room ((if_pos hm).symm.trans h)).1
    omega
  · obtain rfl := Option.some.inj ((if_neg hm).symm.trans h)
    omega

/-- A text outside of the block of the cell is copied there. -/
theorem makeWriteable_eq (hown : pMem.own = false) : sqlite3VdbeMemMakeWriteable mem db pMem =
    match growBlock mem db pMem (i32 (pMem.z.length + 2)) with
    | none => some (.SQLITE_NOMEM, ⟨[], pMem.enc, 0, true, false, true, false, false, false, false⟩)
    | some size =>
      if pMem.z.length + 2 ≤ size then
        some (.SQLITE_OK, { pMem with
          zMalloc := size, own := true, xDel := false, ephem := false, static := false, term := true })
      else none := by
  rw [sqlite3VdbeMemMakeWriteable, if_pos hown, sqlite3VdbeMemGrow]
  generalize growBlock mem db pMem (i32 (pMem.z.length + 2)) = b
  cases b with
  | none => rfl
  | some size =>
    by_cases h : pMem.z.length ≤ size
    · simp only [if_pos h]
      rfl
    · simp only [if_neg h]
      rw [if_neg (by omega)]

/-- Making the text writeable keeps it. -/
theorem makeWriteable_ok (h : sqlite3VdbeMemMakeWriteable mem db pMem = some (.SQLITE_OK, pMem')) :
    pMem'.z = pMem.z := by
  cases hown : pMem.own with
  | true =>
    unfold sqlite3VdbeMemMakeWriteable at h
    rw [if_neg (by rw [hown]; decide)] at h
    rw [(Prod.mk.inj (Option.some.inj h)).2]
  | false =>
    rw [makeWriteable_eq hown] at h
    split at h
    · cases h
    · split at h
      · rw [← (Prod.mk.inj (Option.some.inj h)).2]
      · cases h

theorem makeWriteable_isSome_iff (hlen : pMem.z.length < 2147483648) :
    (sqlite3VdbeMemMakeWriteable mem db pMem).isSome ↔
      pMem.own = true ∨ pMem.z.length + 2 < 2147483648 ∨
        ∀ size, growBlock mem db pMem (i32 (pMem.z.length + 2)) = some size →
          pMem.z.length + 2 ≤ size := by
  cases hown : pMem.own with
  | true =>
    rw [sqlite3VdbeMemMakeWriteable, if_neg (by rw [hown]; decide)]
    exact ⟨fun _ => Or.inl rfl, fun _ => rfl⟩
  | false =>
    have hroom (size : ℕ) (h : growBlock mem db pMem (i32 (pMem.z.length + 2)) = some size)
        (hc : pMem.z.length + 2 < 2147483648) : pMem.z.length + 2 ≤ size := by
      have := (growBlock_room h).1
      rw [i32_eq (by omega) (by omega)] at this
      omega
    rw [makeWriteable_eq hown]
    generalize growBlock mem db pMem (i32 (pMem.z.length + 2)) = b at hroom ⊢
    cases b with
    | none => exact ⟨fun _ => Or.inr (Or.inr nofun), fun _ => rfl⟩
    | some size =>
      simp only
      split
      · rename_i hfit
        refine ⟨fun _ => Or.inr (Or.inr ?_), fun _ => rfl⟩
        intro size' h
        obtain rfl := Option.some.inj h
        exact hfit
      · rename_i hfit
        refine ⟨fun h => absurd h Bool.false_ne_true, ?_⟩
        rintro (hc | hc | hc)
        · cases hc
        · exact absurd (hroom size rfl hc) hfit
        · exact absurd (hc size rfl) hfit

end Sqlite.Utf

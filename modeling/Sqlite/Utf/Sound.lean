import Sqlite.Utf.Translate

/-! Translations of whole texts. -/
namespace Sqlite.Utf

variable {mem : MemMethods} {db : Option Db} {pMem pMem' m m' : Mem} {desiredEnc e e' : Enc} {n k : ℕ}
  {size : ℕ} {cs : List ℕ} {z zIn : List UInt8}

theorem swapLoop_even : ∀ zIn : List UInt8, zIn.length % 2 = 0 → ∃ z, swapLoop zIn = some z
  | [], _ => ⟨[], rfl⟩
  | [_], h => by cases h
  | a :: b :: zIn, h => by
    rw [List.length_cons, List.length_cons] at h
    obtain ⟨z, hz⟩ := swapLoop_even zIn (by omega)
    exact ⟨b :: a :: z, by rw [swapLoop, hz]; rfl⟩

theorem translateSwap_isSome_iff (hlen : pMem.z.length < 2147483648)
    (h : pMem.enc ≠ .SQLITE_UTF8 ∧ desiredEnc ≠ .SQLITE_UTF8) :
    (translateSwap mem db pMem desiredEnc).isSome ↔ Fits mem db pMem desiredEnc := by
  have hmake := @makeWriteable_isSome_iff mem db pMem hlen
  have hsome : (translateSwap mem db pMem desiredEnc).isSome ↔
      (sqlite3VdbeMemMakeWriteable mem db pMem).isSome := by
    unfold translateSwap
    cases sqlite3VdbeMemMakeWriteable mem db pMem with
    | none => exact Iff.rfl
    | some r =>
      obtain ⟨rc, m⟩ := r
      have heven : (m.z.take (evenLen m.z.length)).length % 2 = 0 := by
        rw [evenLen_take]
        exact Nat.mul_mod_left _ 2
      obtain ⟨z, hz⟩ := swapLoop_even _ heven
      simp only [hz]
      split
      · exact Iff.rfl
      · exact Iff.rfl
  rw [hsome, hmake]
  unfold Fits buffer request
  rw [if_pos h, if_pos h]
  cases hown : pMem.own with
  | true => exact ⟨fun _ => Or.inr nofun, fun _ => Or.inl rfl⟩
  | false =>
    push_cast
    constructor
    · rintro (hc | hc)
      · cases hc
      · exact hc
    · exact Or.inr

theorem translateSwap_ok (h : translateSwap mem db pMem desiredEnc = some (.SQLITE_OK, m)) :
    ∃ z, swapLoop (pMem.z.take (evenLen pMem.z.length)) = some z ∧
      m.z = z ++ pMem.z.drop (evenLen pMem.z.length) ∧ m.enc = desiredEnc := by
  unfold translateSwap at h
  cases hw : sqlite3VdbeMemMakeWriteable mem db pMem with
  | none =>
    rw [hw] at h
    cases h
  | some r =>
    obtain ⟨rc, m'⟩ := r
    rw [hw] at h
    simp only at h
    split at h
    · cases (Prod.mk.inj (Option.some.inj h)).1
    · rename_i hrc
      obtain rfl := not_not.mp hrc
      rw [makeWriteable_ok hw] at h
      cases hz : swapLoop (pMem.z.take (evenLen pMem.z.length)) with
      | none =>
        rw [hz] at h
        cases h
      | some z =>
        rw [hz] at h
        obtain rfl := (Prod.mk.inj (Option.some.inj h)).2
        exact ⟨z, rfl, rfl, rfl⟩

theorem translateCopy_ok (h : translateCopy mem db pMem desiredEnc = some (.SQLITE_OK, m)) :
    m.z = (codes (readOf pMem.enc) (inputOf pMem desiredEnc).length
      (inputOf pMem desiredEnc)).flatMap (writeOf desiredEnc) ∧ m.enc = desiredEnc := by
  unfold translateCopy at h
  simp only at h
  split at h
  · cases (Prod.mk.inj (Option.some.inj h)).1
  · split at h
    · cases h
    · rename_i z hz
      split at h
      · obtain rfl := (Prod.mk.inj (Option.some.inj h)).2
        exact ⟨transLoop_codes hz, rfl⟩
      · cases h

/-- The encodings other than UTF-8. -/
theorem byteOrder_of (he : e ≠ .SQLITE_UTF8) : ∃ bytes unit, ByteOrder bytes unit ∧
    writeOf e = writeUtf16 bytes ∧ readOf e = readUtf16 unit := by
  cases e with
  | SQLITE_UTF8 => exact absurd rfl he
  | SQLITE_UTF16LE => exact ⟨_, _, byteOrder_le, rfl, rfl⟩
  | SQLITE_UTF16BE => exact ⟨_, _, byteOrder_be, rfl, rfl⟩

theorem codes_utf8 (hcs : ∀ c ∈ cs, Kept c) (hn : (cs.flatMap WRITE_UTF8).length ≤ n) :
    codes READ_UTF8 n (cs.flatMap WRITE_UTF8) = cs := by
  apply codes_flatMap (Q := Begins) nofun WRITE_UTF8_begins ?_ ?_ hcs hn
  · intro c hc
    have := WRITE_UTF8_length c
    rw [hc, List.length_nil] at this
    split_ifs at this
  · exact fun c rest => READ_UTF8_WRITE_UTF8

theorem codes_utf16 (he : e ≠ .SQLITE_UTF8) (hcs : ∀ c ∈ cs, Kept c)
    (hn : (cs.flatMap (writeOf e)).length ≤ n) : codes (readOf e) n (cs.flatMap (writeOf e)) = cs := by
  obtain ⟨bytes, unit, ho, hw, hr⟩ := byteOrder_of he
  rw [hw] at hn ⊢
  rw [hr]
  apply codes_flatMap (Q := fun _ => True) trivial (fun _ _ => trivial) ?_ ?_ hcs hn
  · intro c hc
    have := ho.write_length c
    rw [hc, List.length_nil] at this
    split_ifs at this
  · exact fun c rest hc _ => readUtf16_writeUtf16 ho hc

theorem utf16_length_even (he : e ≠ .SQLITE_UTF8) (cs : List ℕ) :
    evenLen (cs.flatMap (writeOf e)).length = (cs.flatMap (writeOf e)).length := by
  obtain ⟨bytes, unit, ho, hw, -⟩ := byteOrder_of he
  rw [hw]
  have heven : (cs.flatMap (writeUtf16 bytes)).length % 2 = 0 := by
    induction cs with
    | nil => rfl
    | cons c cs ih =>
      rw [List.flatMap_cons, List.length_append, ho.write_length]
      split <;> omega
  unfold evenLen
  omega

theorem swapLoop_write (c : ℕ) (zIn : List UInt8) :
    swapLoop (WRITE_UTF16LE c ++ zIn) = (swapLoop zIn).map (fun z => WRITE_UTF16BE c ++ z) ∧
      swapLoop (WRITE_UTF16BE c ++ zIn) = (swapLoop zIn).map (fun z => WRITE_UTF16LE c ++ z) := by
  unfold WRITE_UTF16LE WRITE_UTF16BE writeUtf16
  cases hz : swapLoop zIn with
  | none =>
    split
    · constructor <;> simp [swapLoop, hz]
    · constructor <;> simp [swapLoop, hz]
  | some z =>
    split
    · constructor <;> simp [swapLoop, hz]
    · constructor <;> simp [swapLoop, hz]

/-- Swapping the bytes of units gives what the other macro writes. -/
theorem swapLoop_flatMap (he : e ≠ .SQLITE_UTF8) (he' : e' ≠ .SQLITE_UTF8) (hne : e ≠ e')
    (cs : List ℕ) : swapLoop (cs.flatMap (writeOf e)) = some (cs.flatMap (writeOf e')) := by
  induction cs with
  | nil => rfl
  | cons c cs ih =>
    rw [List.flatMap_cons, List.flatMap_cons]
    cases e with
    | SQLITE_UTF8 => exact absurd rfl he
    | SQLITE_UTF16LE =>
      cases e' with
      | SQLITE_UTF8 => exact absurd rfl he'
      | SQLITE_UTF16LE => exact absurd rfl hne
      | SQLITE_UTF16BE => exact (swapLoop_write c _).1.trans (by rw [ih]; rfl)
    | SQLITE_UTF16BE =>
      cases e' with
      | SQLITE_UTF8 => exact absurd rfl he'
      | SQLITE_UTF16LE => exact (swapLoop_write c _).2.trans (by rw [ih]; rfl)
      | SQLITE_UTF16BE => exact absurd rfl hne

/-- A successful translation, with some state of the memory. -/
def Gives (pMem : Mem) (desiredEnc : Enc) (m : Mem) : Prop :=
  ∃ mem db, sqlite3VdbeMemTranslate mem db pMem desiredEnc = some (.SQLITE_OK, m)

/-- A cell whose text is the characters `cs`, in its encoding. -/
def Holds (m : Mem) (cs : List ℕ) : Prop := m.z = cs.flatMap (writeOf m.enc)

/-- Every translation keeps the characters. -/
theorem Gives.holds (h : Gives pMem e m) (hne : pMem.enc ≠ e) (hcs : ∀ c ∈ cs, Kept c)
    (hp : Holds pMem cs) : Holds m cs ∧ m.enc = e := by
  obtain ⟨mem, db, h⟩ := h
  unfold sqlite3VdbeMemTranslate at h
  unfold Holds at hp ⊢
  split at h
  · rename_i henc
    obtain ⟨z, hz, h1, h2⟩ := translateSwap_ok h
    rw [hp, utf16_length_even henc.1, List.take_length, swapLoop_flatMap henc.1 henc.2 hne] at hz
    rw [hp, utf16_length_even henc.1, List.drop_length, List.append_nil] at h1
    rw [h1, h2, Option.some.inj hz]
    exact ⟨rfl, rfl⟩
  · rename_i henc
    obtain ⟨h1, h2⟩ := translateCopy_ok h
    refine ⟨?_, h2⟩
    have hin : inputOf pMem e = cs.flatMap (writeOf pMem.enc) := by
      unfold inputOf
      split
      · rename_i he
        have henc' : pMem.enc ≠ .SQLITE_UTF8 := he ▸ hne
        rw [hp, utf16_length_even henc', List.take_length]
      · exact hp
    rw [h1, h2, hin]
    congr 1
    by_cases hu : pMem.enc = .SQLITE_UTF8
    · rw [hu]
      exact codes_utf8 hcs (le_refl _)
    · exact codes_utf16 hu hcs (le_refl _)

/-- A text in UTF-8 comes back from UTF-16, and it does not matter whether it went through the
other byte order. -/
structure RoundTrip (pMem : Mem) : Prop where
  back : ∀ e m m', e ≠ .SQLITE_UTF8 → Gives pMem e m → Gives m .SQLITE_UTF8 m' → m'.z = pMem.z
  other : ∀ e e' m m' m'', e ≠ .SQLITE_UTF8 → e' ≠ .SQLITE_UTF8 → e ≠ e' → Gives pMem e m →
    Gives m e' m' → Gives pMem e' m'' → m'.z = m''.z
  around : ∀ e e' m m' m'', e ≠ .SQLITE_UTF8 → e' ≠ .SQLITE_UTF8 → e ≠ e' → Gives pMem e m →
    Gives m e' m' → Gives m' .SQLITE_UTF8 m'' → m''.z = pMem.z

theorem Holds.roundTrip (h : Holds pMem cs) (henc : pMem.enc = .SQLITE_UTF8)
    (hcs : ∀ c ∈ cs, Kept c) : RoundTrip pMem := by
  constructor
  · intro e m m' he h1 h2
    obtain ⟨g1, g2⟩ := h1.holds (henc ▸ he.symm) hcs h
    obtain ⟨g3, g4⟩ := h2.holds (g2 ▸ he) hcs g1
    rw [g3, h, g4, henc]
  · intro e e' m m' m'' he he' hne h1 h2 h3
    obtain ⟨g1, g2⟩ := h1.holds (henc ▸ he.symm) hcs h
    obtain ⟨g3, g4⟩ := h2.holds (g2 ▸ hne) hcs g1
    obtain ⟨g5, g6⟩ := h3.holds (henc ▸ he'.symm) hcs h
    rw [g3, g5, g4, g6]
  · intro e e' m m' m'' he he' hne h1 h2 h3
    obtain ⟨g1, g2⟩ := h1.holds (henc ▸ he.symm) hcs h
    obtain ⟨g3, g4⟩ := h2.holds (g2 ▸ hne) hcs g1
    obtain ⟨g5, g6⟩ := h3.holds (g4 ▸ he') hcs g3
    rw [g5, h, g6, henc]

theorem kept_char (c : Char) (h : c.toNat ≠ 0xFFFE ∧ c.toNat ≠ 0xFFFF) : Kept c.toNat := by
  have hv : c.toNat < 0xD800 ∨ 0xDFFF < c.toNat ∧ c.toNat < 0x110000 := c.valid
  unfold Kept
  omega

/-- A translation stays in its buffers exactly when the size of the new one fits into an `int`, or
there is none. Text without the characters that are replaced survives. -/
theorem translate_sound_iff (hne : pMem.enc ≠ desiredEnc) (hlen : pMem.z.length < 2147483648) :
    ((sqlite3VdbeMemTranslate mem db pMem desiredEnc).isSome ↔ Fits mem db pMem desiredEnc) ∧
    ∀ s : List Char, (∀ c ∈ s, c.toNat ≠ 0xFFFE ∧ c.toNat ≠ 0xFFFF) → pMem.enc = .SQLITE_UTF8 →
      pMem.z = s.flatMap String.utf8EncodeChar → RoundTrip pMem := by
  constructor
  · unfold sqlite3VdbeMemTranslate
    split
    · rename_i h
      exact translateSwap_isSome_iff hlen h
    · rename_i h
      exact translateCopy_isSome_iff hne hlen h
  · intro s hs henc hz
    have hholds : Holds pMem (s.map Char.toNat) := by
      unfold Holds
      rw [henc, hz, List.flatMap_map]
      exact List.flatMap_congr (fun c _ => (WRITE_UTF8_char c).symm)
    apply hholds.roundTrip henc
    intro c hc
    obtain ⟨c', h1, rfl⟩ := List.mem_map.mp hc
    exact kept_char c' (hs c' h1)

/-- A cell that holds a string of the application. -/
def cell (z : List UInt8) (e : Enc) : Mem := ⟨z, e, 0, false, false, false, false, false, true, false⟩

/-- No memory but the lookaside slots. -/
def noHeap : MemMethods := ⟨fun _ => none, nofun⟩

def lookaside : Option Db := some ⟨false, true, 512, true⟩

/-- A letter, a character of two words in UTF-16, and one of two bytes in UTF-8. -/
def threeChars : List UInt8 := [0x61, 0xF0, 0x9F, 0x98, 0x80, 0xC3, 0xA9]

theorem translate_sound_iff_three :
    (sqlite3VdbeMemTranslate noHeap lookaside (cell threeChars .SQLITE_UTF8) .SQLITE_UTF16LE).map
        (fun r => r.2.z) = some [0x61, 0x00, 0x3D, 0xD8, 0x00, 0xDE, 0xE9, 0x00] ∧
      Fits noHeap lookaside (cell threeChars .SQLITE_UTF8) .SQLITE_UTF16LE ∧
      RoundTrip (cell threeChars .SQLITE_UTF8) := by
  obtain ⟨h1, h2⟩ := @translate_sound_iff noHeap lookaside (cell threeChars .SQLITE_UTF8)
    .SQLITE_UTF16LE (by decide) (by decide)
  refine ⟨by decide, h1.mp (by decide), h2 ['a', '😀', 'é'] (fun c hc => ?_) rfl (by decide)⟩
  obtain rfl | rfl | rfl := by simpa using hc
  all_goals decide

/-- As many letters in UTF-16LE. -/
def letters (k : ℕ) : List UInt8 := (List.replicate k [0x61, 0]).flatten

theorem letters_succ (k : ℕ) : letters (k + 1) = 0x61 :: 0 :: letters k := rfl

theorem letters_length (k : ℕ) : (letters k).length = 2 * k := by
  induction k with
  | zero => rfl
  | succ k ih =>
    rw [letters_succ, List.length_cons, List.length_cons, ih]
    rfl

/-- Each letter takes a byte. -/
theorem transLoop_letters (h : z.length ≤ size) (hk : size < z.length + k) :
    transLoop READ_UTF16LE WRITE_UTF8 size n (letters k) z = none := by
  induction k generalizing n z with
  | zero => omega
  | succ k ih =>
    cases n with
    | zero => rfl
    | succ n =>
      have hread : READ_UTF16LE (0x61 :: 0 :: letters k) = some (0x61, letters k) := rfl
      rw [letters_succ, transLoop, hread]
      simp only
      split
      · rename_i hfit
        have hlen : (WRITE_UTF8 0x61).length = 1 := rfl
        rw [hlen] at hfit
        apply ih
        · rw [List.length_append, hlen]
          exact hfit
        · rw [List.length_append, hlen]
          omega
      · rfl

theorem lookaside_slot {x : ℤ} (h : x ≤ 512) : sqlite3DbMallocRaw noHeap lookaside x = some 512 := by
  have hsz : (512 : UInt16).toNat = 512 := rfl
  unfold sqlite3DbMallocRaw lookaside
  simp [hsz, h]

/-- The loop leaves its buffer. -/
theorem translateCopy_none {p : List UInt8} (hp : inputOf pMem desiredEnc = p)
    (hm : sqlite3DbMallocRaw mem db (i32 (p.length * 2 + termLen desiredEnc)) = some size)
    (hl : transLoop (readOf pMem.enc) (writeOf desiredEnc) size p.length p [] = none) :
    translateCopy mem db pMem desiredEnc = none := by
  unfold translateCopy
  rw [hp]
  simp only [hm, hl]

theorem translate_letters (h1 : 536870912 ≤ k) (h2 : k < 1073741824) :
    sqlite3VdbeMemTranslate noHeap lookaside (cell (letters k) .SQLITE_UTF16LE) .SQLITE_UTF8 = none := by
  have hlen := letters_length k
  have heven : evenLen (2 * k) = 2 * k := by
    unfold evenLen
    omega
  have hin : inputOf (cell (letters k) .SQLITE_UTF16LE) .SQLITE_UTF8 = letters k := by
    have hz : (cell (letters k) .SQLITE_UTF16LE).z = letters k := rfl
    rw [inputOf, if_pos rfl, hz, hlen, heven, ← hlen, List.take_length]
  have hwrap : i32 ((letters k).length * 2 + termLen .SQLITE_UTF8) ≤ 512 := by
    have hterm : termLen .SQLITE_UTF8 = 1 := rfl
    rw [hlen, hterm, i32_wrap (by omega) (by omega)]
    omega
  rw [sqlite3VdbeMemTranslate, if_neg (fun h => h.2 rfl)]
  apply translateCopy_none hin (lookaside_slot hwrap)
  apply transLoop_letters
  · exact Nat.zero_le 512
  · rw [List.length_nil]
    omega

/-- The translation of 2^29 letters to UTF-8 writes past its buffer, a lookaside slot. -/
theorem translate_overflow :
    sqlite3VdbeMemTranslate noHeap lookaside (cell (letters 536870912) .SQLITE_UTF16LE) .SQLITE_UTF8 =
        none ∧
      transLoop READ_UTF16LE WRITE_UTF8 512 1073741824 (letters 536870912) [] = none := by
  constructor
  · exact translate_letters (by decide) (by decide)
  · exact transLoop_letters (by decide) (by decide)

end Sqlite.Utf

import Mathlib.Data.List.TakeWhile
import Sqlite.Utf.Chars

/-! A text that ends with a zero byte, read one character after the other. The list of its bytes ends
there as well. -/
namespace Sqlite.Utf

open Foundation

def sqlite3Utf8Read : List UInt8 → ℕ × List UInt8
  | [] => (0, [])
  | b :: zIn =>
    if 0xc0 ≤ b.toNat then
      let r := utf8Tail ((sqlite3Utf8Trans1[b.toNat - 0xc0]?).getD 0) zIn
      if r.1 < 0x80 ∨ r.1 &&& 0xFFFFF800 = 0xD800 ∨ r.1 &&& 0xFFFFFFFE = 0xFFFE then (0xFFFD, r.2)
      else r
    else (b.toNat, zIn)

def SQLITE_SKIP_UTF8 : List UInt8 → List UInt8
  | [] => []
  | b :: zIn => if 0xc0 ≤ b.toNat then zIn.dropWhile Continues else zIn

variable {z zIn tl : List UInt8} {b : UInt8}

theorem SQLITE_SKIP_UTF8_length (b : UInt8) (zIn : List UInt8) :
    (SQLITE_SKIP_UTF8 (b :: zIn)).length ≤ zIn.length := by
  rw [SQLITE_SKIP_UTF8]
  split
  · exact (List.dropWhile_sublist _).length_le
  · rfl

theorem utf8Tail_rest (c : ℕ) (zIn : List UInt8) : (utf8Tail c zIn).2 = zIn.dropWhile Continues := by
  induction zIn generalizing c with
  | nil => rfl
  | cons b zIn ih =>
    show (if Continues b then _ else (c, b :: zIn)).2 = _
    rw [List.dropWhile_cons]
    by_cases hb : Continues b
    · rw [if_pos hb, if_pos (decide_eq_true hb)]
      exact ih _
    · rw [if_neg hb, if_neg (by simpa using hb)]

/-- Reading goes as far as skipping. -/
theorem sqlite3Utf8Read_rest (z : List UInt8) : (sqlite3Utf8Read z).2 = SQLITE_SKIP_UTF8 z := by
  cases z with
  | nil => rfl
  | cons b zIn =>
    rw [sqlite3Utf8Read, SQLITE_SKIP_UTF8, ← utf8Tail_rest ((sqlite3Utf8Trans1[b.toNat - 0xc0]?).getD 0)]
    dsimp only
    split_ifs <;> rfl

theorem sqlite3Utf8Read_length (b : UInt8) (zIn : List UInt8) :
    (sqlite3Utf8Read (b :: zIn)).2.length ≤ zIn.length := by
  rw [sqlite3Utf8Read_rest]
  exact SQLITE_SKIP_UTF8_length b zIn

theorem sqlite3Utf8Read_length_le (z : List UInt8) : (sqlite3Utf8Read z).2.length ≤ z.length := by
  cases z with
  | nil => rfl
  | cons b zIn => exact (sqlite3Utf8Read_length b zIn).trans (Nat.le_succ _)

/-- A character below 0x80 is a byte. -/
theorem sqlite3Utf8Read_ascii {x : ℕ} (hx : x < 0x80) :
    (sqlite3Utf8Read (b :: zIn)).1 = x ↔ b.toNat = x := by
  rw [sqlite3Utf8Read]
  dsimp only
  split_ifs with h1 h2
  · constructor <;> intro h <;> omega
  · constructor
    · intro h
      exact absurd (.inl (by omega)) h2
    · intro h
      omega
  · rfl

/-- The characters up to the zero byte, as they are read. -/
def codesOf : List UInt8 → List ℕ
  | [] => []
  | b :: zIn =>
    if b = 0 then []
    else (sqlite3Utf8Read (b :: zIn)).1 :: codesOf (sqlite3Utf8Read (b :: zIn)).2
termination_by z => z.length
decreasing_by exact Nat.lt_succ_of_le (sqlite3Utf8Read_length b zIn)

/-- The loop that counts characters, `for(z2=z; *z2; len++)`. -/
def countChars : List UInt8 → ℕ
  | [] => 0
  | b :: z => if b = 0 then 0 else countChars (SQLITE_SKIP_UTF8 (b :: z)) + 1
termination_by z => z.length
decreasing_by exact Nat.lt_succ_of_le (SQLITE_SKIP_UTF8_length b z)

/-- The function with a negative `nByte`. -/
def sqlite3Utf8CharLen (zIn : List UInt8) : ℕ := countChars zIn

theorem countChars_codesOf (z : List UInt8) : countChars z = (codesOf z).length := by
  induction z using countChars.induct with
  | case1 => simp [countChars, codesOf]
  | case2 z => simp [countChars, codesOf]
  | case3 b z hb ih =>
    rw [countChars, codesOf, if_neg hb, if_neg hb, ih, sqlite3Utf8Read_rest, List.length_cons]

/-- The end of the text. -/
def AtEnd (z : List UInt8) : Prop := ∀ b ∈ z.head?, b = 0

instance (z : List UInt8) : Decidable (AtEnd z) := inferInstanceAs (Decidable (∀ b ∈ z.head?, b = 0))

theorem AtEnd.begins (h : AtEnd z) : Begins z := fun b hb => by
  rw [h b hb]
  decide

theorem AtEnd.codesOf (h : AtEnd z) : codesOf z = [] := by
  cases z with
  | nil => rw [Utf.codesOf]
  | cons b zIn => rw [Utf.codesOf, if_pos (h b rfl)]

theorem AtEnd.read (h : AtEnd z) : (sqlite3Utf8Read z).1 = 0 := by
  cases z with
  | nil => rfl
  | cons b zIn =>
    rw [sqlite3Utf8Read_ascii (by omega), h b rfl]
    rfl

/-- Where the text goes on, a character is read. -/
theorem codesOf_read (h : ¬ AtEnd z) : codesOf z = (sqlite3Utf8Read z).1 :: codesOf (sqlite3Utf8Read z).2 ∧
    (sqlite3Utf8Read z).1 ≠ 0 ∧ (sqlite3Utf8Read z).2.length < z.length := by
  cases z with
  | nil => exact absurd (fun b hb => by cases hb) h
  | cons b zIn =>
    have hb : b ≠ 0 := fun hb => h fun x hx => by
      obtain rfl := Option.some.inj hx
      exact hb
    refine ⟨by rw [Utf.codesOf, if_neg hb], ?_, Nat.lt_succ_of_le (sqlite3Utf8Read_length b zIn)⟩
    rw [Ne, sqlite3Utf8Read_ascii (by omega)]
    exact fun h0 => hb (UInt8.toNat_inj.mp h0)

theorem codesOf_cons (h : (sqlite3Utf8Read z).1 ≠ 0) :
    codesOf z = (sqlite3Utf8Read z).1 :: codesOf (sqlite3Utf8Read z).2 :=
  (codesOf_read fun hend => h hend.read).1

theorem read_eq_zero_iff : (sqlite3Utf8Read z).1 = 0 ↔ AtEnd z := by
  constructor
  · intro h0
    by_contra hend
    exact (codesOf_read hend).2.1 h0
  · exact AtEnd.read

theorem codesOf_eq_nil_iff : codesOf z = [] ↔ AtEnd z := by
  constructor
  · intro hnil
    by_contra hend
    rw [(codesOf_read hend).1] at hnil
    cases hnil
  · exact AtEnd.codesOf

/-- The first character, when it is known. -/
theorem codesOf_head {x : ℕ} {l : List ℕ} (h : codesOf z = x :: l) :
    (sqlite3Utf8Read z).1 = x ∧ codesOf (sqlite3Utf8Read z).2 = l := by
  have hend : ¬ AtEnd z := fun hend => by
    rw [hend.codesOf] at h
    cases h
  rw [(codesOf_read hend).1] at h
  exact List.cons.inj h

theorem codesOf_nonzero (z : List UInt8) : 0 ∉ codesOf z := by
  by_cases hend : AtEnd z
  · rw [hend.codesOf]
    exact List.not_mem_nil
  · obtain ⟨heq, hc, hlt⟩ := codesOf_read hend
    rw [heq, List.mem_cons, not_or]
    exact ⟨hc.symm, codesOf_nonzero _⟩
termination_by z.length

theorem codesOf_head_ne {x : ℕ} {l : List ℕ} (h : codesOf z = x :: l) : x ≠ 0 := by
  rintro rfl
  apply codesOf_nonzero z
  rw [h]
  exact List.mem_cons_self

/-! A text of characters. -/

theorem dropWhile_continues (h : ∀ x ∈ tl, Continues x) (hz : Begins z) :
    (tl ++ z).dropWhile Continues = z := by
  rw [List.dropWhile_append_of_pos (by simpa using h)]
  cases z with
  | nil => rfl
  | cons b z => exact List.dropWhile_cons_of_neg (by simpa using hz b rfl)

theorem skip_utf8 (c : Char) (hz : Begins z) :
    SQLITE_SKIP_UTF8 (String.utf8EncodeChar c ++ z) = z := by
  obtain ⟨b, tl, heq, htl, hone, hlead⟩ := WRITE_UTF8_parts c.toNat
  rw [← WRITE_UTF8_char, heq, List.cons_append, SQLITE_SKIP_UTF8]
  by_cases hc : c.toNat < 0x80
  · obtain ⟨hb, rfl⟩ := hone hc
    rw [if_neg (by omega), List.nil_append]
  · rw [if_pos (hlead (by omega)), dropWhile_continues htl hz]

theorem utf8_nonzero {c : Char} (hc : c ≠ '\x00') :
    ∃ b tl, String.utf8EncodeChar c = b :: tl ∧ b ≠ 0 := by
  obtain ⟨b, tl, heq, -, hone, hlead⟩ := WRITE_UTF8_parts c.toNat
  refine ⟨b, tl, by rw [← WRITE_UTF8_char, heq], ?_⟩
  rintro rfl
  by_cases h : c.toNat < 0x80
  · exact hc (Char.toNat_inj.mp (hone h).1.symm)
  · exact absurd (hlead (by omega)) (by decide)

/-- A text up to its first NUL, and what stands behind. -/
theorem text_parts (cs : List Char) : ∃ z, AtEnd z ∧ cs.flatMap String.utf8EncodeChar =
    (cs.takeWhile (· ≠ '\x00')).flatMap String.utf8EncodeChar ++ z := by
  refine ⟨(cs.dropWhile (· ≠ '\x00')).flatMap String.utf8EncodeChar, ?_, ?_⟩
  · intro b hb
    cases hd : cs.dropWhile (· ≠ '\x00') with
    | nil =>
      rw [hd] at hb
      cases hb
    | cons c cs' =>
      have hc : c = '\x00' := by
        have hnot := List.head?_dropWhile_not (· ≠ '\x00') cs
        rw [hd] at hnot
        simpa using hnot
      subst hc
      rw [hd, List.flatMap_cons] at hb
      exact (Option.some.inj hb).symm
  · rw [← List.flatMap_append, List.takeWhile_append_dropWhile]

theorem begins_text (q : List Char) (hz : Begins z) :
    Begins (q.flatMap String.utf8EncodeChar ++ z) := by
  cases q with
  | nil => exact hz
  | cons c q =>
    rw [List.flatMap_cons, List.append_assoc, ← WRITE_UTF8_char]
    exact WRITE_UTF8_begins _ _

/-- The two characters that are not read as themselves. -/
def readAs (c : Char) : ℕ := if c.toNat = 0xFFFE ∨ c.toNat = 0xFFFF then 0xFFFD else c.toNat

theorem readAs_kept {c : Char} (h : ¬ (c.toNat = 0xFFFE ∨ c.toNat = 0xFFFF)) : Kept c.toNat := by
  have hvalid : c.toNat < 0xD800 ∨ (0xDFFF < c.toNat ∧ c.toNat < 0x110000) := c.valid
  exact ⟨by omega, by omega, by omega, by omega⟩

theorem READ_UTF8_cons (b : UInt8) (zIn : List UInt8) :
    READ_UTF8 (b :: zIn) = some (sqlite3Utf8Read (b :: zIn)) := by
  rw [READ_UTF8, sqlite3Utf8Read]
  split
  · have hlt := b.toNat_lt
    obtain ⟨c, hc, -⟩ := trans1_lt (i := b.toNat - 0xc0) (by omega)
    simp only [hc, Option.getD_some]
    split <;> rfl
  · rfl

theorem read_replaced {x : ℕ} (hb : 0xc0 ≤ b.toNat) (hx : x = 0xFFFE ∨ x = 0xFFFF)
    (ht : utf8Tail ((sqlite3Utf8Trans1[b.toNat - 0xc0]?).getD 0) zIn = (x, z)) :
    sqlite3Utf8Read (b :: zIn) = (0xFFFD, z) := by
  rw [sqlite3Utf8Read, if_pos hb, ht]
  dsimp only
  rw [if_pos]
  rcases hx with rfl | rfl <;> decide

theorem read_utf8 (c : Char) (hz : Begins z) :
    sqlite3Utf8Read (String.utf8EncodeChar c ++ z) = (readAs c, z) := by
  rw [← WRITE_UTF8_char, readAs]
  split
  · rename_i hc
    have htrans : sqlite3Utf8Trans1[(UInt8.ofNat (0xE0 + c.toNat / 4096 % 16)).toNat - 0xc0]? =
        some (c.toNat / 4096) := by
      have hq : c.toNat / 4096 = 15 := by omega
      rw [hq]
      rfl
    rw [WRITE_UTF8_eq, if_neg (by omega), if_neg (by omega), if_pos (by omega), List.cons_append,
      List.cons_append, List.cons_append, List.nil_append]
    apply read_replaced (by rw [toNat_ofNat (by omega)]; omega) hc
    rw [htrans, Option.getD_some, utf8Tail_tailByte, utf8Tail_tailByte, utf8Tail_begins _ hz,
      Prod.mk.injEq]
    exact ⟨by omega, rfl⟩
  · rename_i hc
    have hread := READ_UTF8_WRITE_UTF8 (readAs_kept hc) hz
    obtain ⟨b, tl, heq, -⟩ := WRITE_UTF8_parts c.toNat
    rw [heq, List.cons_append, READ_UTF8_cons] at hread
    rw [heq, List.cons_append, Option.some.inj hread]

theorem readAs_nonzero {c : Char} (hc : c ≠ '\x00') : readAs c ≠ 0 := by
  rw [readAs]
  split
  · omega
  · exact fun h0 => hc (Char.toNat_inj.mp h0)

theorem codesOf_text {q : List Char} (hq : ∀ c ∈ q, c ≠ '\x00') (hz : AtEnd z) :
    codesOf (q.flatMap String.utf8EncodeChar ++ z) = q.map readAs := by
  induction q with
  | nil => exact hz.codesOf
  | cons c q ih =>
    have hread := read_utf8 c (begins_text q hz.begins)
    obtain ⟨b, tl, heq, hb⟩ := utf8_nonzero (hq c List.mem_cons_self)
    rw [List.flatMap_cons, List.append_assoc]
    rw [heq, List.cons_append] at hread ⊢
    rw [Utf.codesOf, if_neg hb, hread, ih fun c hc => hq c (List.mem_cons_of_mem _ hc), List.map_cons]

/-- The characters of a text up to the first NUL, as they are read. -/
def textCodes (cs : List Char) : List ℕ := (cs.takeWhile (· ≠ '\x00')).map readAs

theorem codesOf_chars (cs : List Char) : codesOf (cs.flatMap String.utf8EncodeChar) = textCodes cs := by
  obtain ⟨z, hz, hcs⟩ := text_parts cs
  rw [hcs, codesOf_text (fun c hc => by simpa using List.mem_takeWhile_imp hc) hz, textCodes]

theorem textCodes_cons (c : Char) (s : List Char) :
    textCodes (c :: s) = if c = '\x00' then [] else readAs c :: textCodes s := by
  unfold textCodes
  rw [List.takeWhile_cons]
  by_cases hc : c = '\x00' <;> simp [hc]

theorem readAs_ascii {c d : Char} (hd : d.toNat < 0x80) : readAs c = d.toNat ↔ c = d := by
  rw [readAs]
  split
  · constructor
    · intro h
      omega
    · rintro rfl
      omega
  · exact Char.toNat_inj

end Sqlite.Utf

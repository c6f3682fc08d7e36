import Sqlite.Foundation.Binary64
import Sqlite.Numeric.Atoi

/-! The integer that a memory cell stands for (`vdbemem.c`). -/
namespace Sqlite.Numeric

open Foundation Utf

/-- A memory cell: its flags, the number `u.i`, the bits of `r`, and the `n` bytes at `z`. -/
structure Mem where
  int : Bool
  real : Bool
  str : Bool
  blob : Bool
  i : ℤ
  r : ℕ
  z : List UInt8
  enc : Enc

/-- The conversion of a number in floating point to an integer; behind the bounds it gives what the
hardware gives. -/
def toI64 (r : ℕ) : ℤ :=
  let t := (Binary64.units r).tdiv (2 ^ 1074)
  if SMALLEST_INT64 ≤ t ∧ t ≤ LARGEST_INT64 then t else SMALLEST_INT64

def doubleToInt64 (r : ℕ) : ℤ :=
  let minInt := SMALLEST_INT64
  let maxInt := LARGEST_INT64
  if Binary64.units r < Binary64.units (Binary64.ofInt minInt) then minInt
  -- not `maxInt`
  else if Binary64.units (Binary64.ofInt maxInt) < Binary64.units r then minInt
  else toI64 r

/-- The return code of the conversion is not looked at. -/
def sqlite3VdbeIntValue (pMem : Mem) : ℤ :=
  if pMem.int then pMem.i
  else if pMem.real then doubleToInt64 pMem.r
  else if pMem.str ∨ pMem.blob then (sqlite3Atoi64 pMem.z pMem.enc).2
  else 0

/-- A sign, or none, and digits. -/
def Literal (z : List UInt8) (v : ℤ) : Prop :=
  ∃ sg ds, z = sg ++ ds ∧ IsSign sg ∧ ds ≠ [] ∧ (∀ b ∈ ds, IsDigit b) ∧
    v = signed (decide (sg = [ch '-'])) (digitsValue ds)

/-- A text in UTF-8 that is not a number as well. -/
structure Mem.IsText (m : Mem) : Prop where
  int : m.int = false
  real : m.real = false
  str : m.str = true
  enc : m.enc = .SQLITE_UTF8

variable {z zs ds rest : List UInt8} {v : ℤ} {m : Mem}

theorem Literal.denotes (h : Literal z v) : Denotes z v := by
  obtain ⟨sg, ds, rfl, hsign, hne, hds, rfl⟩ := h
  refine ⟨[], sg, ds, rfl, by simp, hsign, hne, hds, ?_⟩
  simp [signed]

theorem stored_eq (neg : Bool) (n : ℕ) :
    stored neg n = if n % 2 ^ 64 < 2 ^ 63 then signed neg (n % 2 ^ 64) else SMALLEST_INT64 := by
  have hlarge : LARGEST_INT64 = 2 ^ 63 - 1 := rfl
  unfold stored signed
  generalize n % 2 ^ 64 = u
  dsimp only
  rw [hlarge]
  split_ifs <;> first | rfl | omega

/-- The integer of a decimal literal of any length: the number itself or, when it does not fit,
`-2 ^ 63`, if and only if its digits do not wrap around to a number below `2 ^ 63`. -/
theorem sqlite3VdbeIntValue_iff (hm : m.IsText) (hz : Literal m.z v) :
    sqlite3VdbeIntValue m = (if Fits v then v else SMALLEST_INT64) ↔
      v.natAbs < 2 ^ 63 ∨ 2 ^ 63 ≤ v.natAbs % 2 ^ 64 := by
  obtain ⟨ws, sg, zs, ds, rest, h⟩ := exists_parts m.z
  obtain ⟨rfl, -, hv⟩ := (h.denotes_iff v).mp hz.denotes
  have heq : sqlite3VdbeIntValue m = (verdict (decide (sg = [ch '-'])) zs ds []).2 := by
    have hread : sqlite3Atoi64 m.z .SQLITE_UTF8 = verdict (decide (sg = [ch '-'])) zs ds [] :=
      h.atoi64_eq
    simp [sqlite3VdbeIntValue, hm.int, hm.real, hm.str, hm.enc, hread]
  have habs : v.natAbs = digitsValue ds := by
    rw [hv, signed]
    split_ifs <;> simp
  have hsmallest : SMALLEST_INT64 = -2 ^ 63 := rfl
  rw [heq, verdict_stored, stored_eq, habs, hv, hsmallest]
  generalize digitsValue ds = n
  have hfits : Fits (signed (decide (sg = [ch '-'])) n) ↔
      n < 2 ^ 63 ∨ (decide (sg = [ch '-']) = true ∧ n = 2 ^ 63) := by
    rw [fits_iff]
    cases decide (sg = [ch '-']) <;> simp [signed] <;> omega
  generalize decide (sg = [ch '-']) = neg at hfits ⊢
  simp only [hfits]
  cases neg
  · simp only [signed, Bool.false_eq_true, if_false, false_and, or_false]
    split_ifs <;> omega
  · simp only [signed, if_true, true_and]
    split_ifs <;> omega

/-- A text of the letters of a literal. -/
def textMem (s : String) : Mem := ⟨false, false, true, false, 0, 0, s.toList.map ch, .SQLITE_UTF8⟩

theorem sqlite3VdbeIntValue_iff_forty_two : (textMem "-42").IsText ∧ Literal (textMem "-42").z (-42) ∧
    sqlite3VdbeIntValue (textMem "-42") = -42 := by
  have hlit : Literal (textMem "-42").z (-42) := by
    refine ⟨[ch '-'], [ch '4', ch '2'], rfl, by decide, by simp, ?_, by decide⟩
    simp [ch, IsDigit]
  have htext : (textMem "-42").IsText := ⟨rfl, rfl, rfl, rfl⟩
  exact ⟨htext, hlit, (sqlite3VdbeIntValue_iff htext hlit).mpr (by decide)⟩

/-- 2^64 + 5 wraps around to 5. -/
theorem sqlite3VdbeIntValue_wraps : (textMem "18446744073709551621").IsText ∧
    Literal (textMem "18446744073709551621").z 18446744073709551621 ∧
    ¬ Fits 18446744073709551621 ∧ sqlite3VdbeIntValue (textMem "18446744073709551621") = 5 := by
  have hall : (textMem "18446744073709551621").z.all (fun b => decide (IsDigit b)) = true := by
    decide +kernel
  refine ⟨⟨rfl, rfl, rfl, rfl⟩, ⟨[], _, rfl, .inl rfl, by decide +kernel, fun b hb => ?_,
    by decide +kernel⟩, by decide, by decide +kernel⟩
  exact of_decide_eq_true (List.all_eq_true.mp hall b hb)

end Sqlite.Numeric

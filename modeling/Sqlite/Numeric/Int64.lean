import Mathlib.Algebra.Order.Ring.Abs
import Mathlib.Tactic.LinearCombination
import Mathlib.Tactic.NormNum

/-! Arithmetic with a test for overflow (`util.c`) on signed integers of 64 bits. -/
namespace Sqlite.Numeric

def LARGEST_INT64 : ℤ := 2 ^ 63 - 1
def SMALLEST_INT64 : ℤ := -2 ^ 63

def Fits (x : ℤ) : Prop := SMALLEST_INT64 ≤ x ∧ x ≤ LARGEST_INT64

instance (x : ℤ) : Decidable (Fits x) := inferInstanceAs (Decidable (_ ∧ _))

/-- A computation, and whether each of its operations had its exact result. -/
structure Arith (α : Type) where
  value : α
  exact : Bool
  deriving DecidableEq

instance : Monad Arith where
  pure a := ⟨a, true⟩
  bind m f := ⟨(f m.value).value, m.exact && (f m.value).exact⟩

/-- The result of one operation, which wraps where it does not fit. -/
def i64 (x : ℤ) : Arith ℤ := ⟨Int.bmod x (2 ^ 64), decide (Fits x)⟩

/-- What the function returns, and `*pA` afterwards. -/
abbrev Outcome := ℕ × ℤ

def sqlite3AddInt64 (iA iB : ℤ) : Arith Outcome :=
  if iB ≥ 0 then
    if iA > 0 then do
      let room ← i64 (LARGEST_INT64 - iA)
      if room < iB then return (1, iA)
      else return (0, ← i64 (iA + iB))
    else do
      return (0, ← i64 (iA + iB))
  else
    if iA < 0 then do
      let sum ← i64 (iA + LARGEST_INT64)
      let room ← i64 (-sum)
      let next ← i64 (iB + 1)
      if room > next then return (1, iA)
      else return (0, ← i64 (iA + iB))
    else do
      return (0, ← i64 (iA + iB))

def sqlite3SubInt64 (iA iB : ℤ) : Arith Outcome :=
  if iB = SMALLEST_INT64 then
    if iA ≥ 0 then return (1, iA)
    else do
      return (0, ← i64 (iA - iB))
  else do
    let minus ← i64 (-iB)
    sqlite3AddInt64 iA minus

def TWOPOWER32 : ℤ := 2 ^ 32
def TWOPOWER31 : ℤ := 2 ^ 31

/-- Division and remainder round towards zero. -/
def sqlite3MulInt64 (iA iB : ℤ) : Arith Outcome := do
  let iA1 ← i64 (iA.tdiv TWOPOWER32)
  let iA0 ← i64 (iA.tmod TWOPOWER32)
  let iB1 ← i64 (iB.tdiv TWOPOWER32)
  let iB0 ← i64 (iB.tmod TWOPOWER32)
  let high ← i64 (iA1 * iB1)
  if high ≠ 0 then return (1, iA)
  else do
    let cross ← i64 (iA1 * iB0)
    let cross' ← i64 (iA0 * iB1)
    let r ← i64 (cross + cross')
    if r < -TWOPOWER31 ∨ r ≥ TWOPOWER31 then return (1, iA)
    else do
      let r ← i64 (r * TWOPOWER32)
      let low ← i64 (iA0 * iB0)
      let sum ← sqlite3AddInt64 r low
      if sum.1 ≠ 0 then return (1, iA)
      else return (0, sum.2)

/-- No operation overflows, and the function returns 0 with the exact result, or 1 without a change
where that does not fit. -/
def Exact (m : Arith Outcome) (iA result : ℤ) : Prop :=
  m = ⟨if Fits result then (0, result) else (1, iA), true⟩

section
variable {iA iB x : ℤ}

theorem i64_of_fits (h : Fits x) : i64 x = pure x := by
  have hmod : Int.bmod x (2 ^ 64) = x := by
    unfold Fits SMALLEST_INT64 LARGEST_INT64 at h
    exact Int.bmod_eq_of_le (by omega) (by omega)
  rw [i64, hmod, decide_eq_true h]
  rfl

theorem i64_of_not_fits (h : ¬ Fits x) : (i64 x).exact = false := decide_eq_false h

theorem pure_bind_arith {α β : Type} (a : α) (f : α → Arith β) : (pure a >>= f) = f a := rfl

/-- An operation that overflows is never forgotten. -/
theorem bind_inexact {α β : Type} {m : Arith α} (f : α → Arith β) (h : m.exact = false) :
    (m >>= f).exact = false := by
  change (m.exact && (f m.value).exact) = false
  rw [h, Bool.false_and]

theorem fits_iff : Fits x ↔ -9223372036854775808 ≤ x ∧ x ≤ 9223372036854775807 := Iff.rfl

theorem largest_eq : LARGEST_INT64 = 9223372036854775807 := rfl

theorem return_i64 (h : Fits x) : (do return (0, ← i64 x) : Arith Outcome) = ⟨(0, x), true⟩ := by
  rw [i64_of_fits h]
  rfl

theorem sqlite3AddInt64_spec (hA : Fits iA) (hB : Fits iB) :
    Exact (sqlite3AddInt64 iA iB) iA (iA + iB) := by
  rw [fits_iff] at hA hB
  unfold Exact sqlite3AddInt64
  by_cases hneg : iB ≥ 0
  · rw [if_pos hneg]
    by_cases hpos : iA > 0
    · have hroom : Fits (LARGEST_INT64 - iA) := by
        rw [fits_iff, largest_eq]
        omega
      rw [if_pos hpos, i64_of_fits hroom, pure_bind_arith, largest_eq]
      by_cases hfit : Fits (iA + iB)
      · have hsum := fits_iff.mp hfit
        rw [if_neg (by omega), if_pos hfit]
        exact return_i64 hfit
      · have hsum := mt fits_iff.mpr hfit
        rw [if_pos (by omega), if_neg hfit]
        rfl
    · have hfit : Fits (iA + iB) := by
        rw [fits_iff]
        omega
      rw [if_neg hpos, if_pos hfit]
      exact return_i64 hfit
  · rw [if_neg hneg]
    by_cases hlow : iA < 0
    · have h1 : Fits (iA + LARGEST_INT64) := by
        rw [fits_iff, largest_eq]
        omega
      have h2 : Fits (-(iA + LARGEST_INT64)) := by
        rw [fits_iff, largest_eq]
        omega
      have h3 : Fits (iB + 1) := by
        rw [fits_iff]
        omega
      rw [if_pos hlow, i64_of_fits h1, pure_bind_arith, i64_of_fits h2, pure_bind_arith,
        i64_of_fits h3, pure_bind_arith, largest_eq]
      by_cases hfit : Fits (iA + iB)
      · have hsum := fits_iff.mp hfit
        rw [if_neg (by omega), if_pos hfit]
        exact return_i64 hfit
      · have hsum := mt fits_iff.mpr hfit
        rw [if_pos (by omega), if_neg hfit]
        rfl
    · have hfit : Fits (iA + iB) := by
        rw [fits_iff]
        omega
      rw [if_neg hlow, if_pos hfit]
      exact return_i64 hfit

theorem sqlite3SubInt64_spec (hA : Fits iA) (hB : Fits iB) :
    Exact (sqlite3SubInt64 iA iB) iA (iA - iB) := by
  unfold sqlite3SubInt64
  by_cases hmin : iB = SMALLEST_INT64
  · have hlit : iB = -9223372036854775808 := hmin
    rw [fits_iff] at hA
    unfold Exact
    rw [if_pos hmin]
    by_cases hpos : iA ≥ 0
    · have hfit : ¬ Fits (iA - iB) := by
        rw [fits_iff]
        omega
      rw [if_pos hpos, if_neg hfit]
      rfl
    · have hfit : Fits (iA - iB) := by
        rw [fits_iff]
        omega
      rw [if_neg hpos, if_pos hfit]
      exact return_i64 hfit
  · have hlit : iB ≠ -9223372036854775808 := hmin
    have hminus : Fits (-iB) := by
      rw [fits_iff] at hB ⊢
      omega
    rw [if_neg hmin, i64_of_fits hminus, pure_bind_arith, Int.sub_eq_add_neg]
    exact sqlite3AddInt64_spec hA hminus

/-- A number in two halves, which have its sign. -/
structure Halves (x high low : ℤ) : Prop where
  eq : x = high * 4294967296 + low
  high_le : -2147483648 ≤ high ∧ high ≤ 2147483648
  low_le : -4294967295 ≤ low ∧ low ≤ 4294967295
  nonneg : 0 ≤ x → 0 ≤ high ∧ 0 ≤ low
  nonpos : x ≤ 0 → high ≤ 0 ∧ low ≤ 0

theorem halves (h : Fits x) : Halves x (x.tdiv TWOPOWER32) (x.tmod TWOPOWER32) := by
  have hpow : TWOPOWER32 = 4294967296 := rfl
  rw [fits_iff] at h
  rcases Int.le_total 0 x with hx | hx
  · rw [Int.tdiv_eq_ediv_of_nonneg hx, Int.tmod_eq_emod_of_nonneg hx, hpow]
    constructor <;> omega
  · obtain ⟨y, rfl⟩ : ∃ y, x = -y := ⟨-x, by omega⟩
    have hy : 0 ≤ y := by omega
    rw [Int.neg_tdiv, Int.neg_tmod, Int.tdiv_eq_ediv_of_nonneg hy, Int.tmod_eq_emod_of_nonneg hy, hpow]
    constructor <;> omega

variable {A1 A0 B1 B0 : ℤ}

theorem Halves.large (h : Halves x A1 A0) (h1 : A1 ≠ 0) : 4294967296 ≤ |x| := by
  have heq := h.eq
  rcases Int.le_total 0 x with hx | hx
  · have hsign := h.nonneg hx
    rw [abs_of_nonneg hx]
    omega
  · have hsign := h.nonpos hx
    rw [abs_of_nonpos hx]
    omega

/-- Two high halves make the product too large. -/
theorem not_fits_high (hA : Halves iA A1 A0) (hB : Halves iB B1 B0) (h : A1 * B1 ≠ 0) :
    ¬ Fits (iA * iB) := by
  obtain ⟨hA1, hB1⟩ := mul_ne_zero_iff.mp h
  have hprod := mul_le_mul (hA.large hA1) (hB.large hB1) (by norm_num) (abs_nonneg iA)
  rw [← abs_mul] at hprod
  intro hfit
  rw [fits_iff] at hfit
  have habs : |iA * iB| ≤ 9223372036854775808 := abs_le.mpr ⟨hfit.1, by omega⟩
  omega

theorem mul_fits {m n a b : ℤ} (ha : -m ≤ a ∧ a ≤ m) (hb : -n ≤ b ∧ b ≤ n) (hm : 0 ≤ m)
    (hmn : m * n ≤ 9223372036854775807) : Fits (a * b) := by
  have hprod := mul_le_mul (abs_le.mpr ha) (abs_le.mpr hb) (abs_nonneg b) hm
  rw [← abs_mul] at hprod
  have hle := abs_le.mp (hprod.trans hmn)
  rw [fits_iff]
  omega

/-- The partial products do not differ in sign. -/
theorem Halves.signs (hA : Halves iA A1 A0) (hB : Halves iB B1 B0) :
    (0 ≤ A1 * B0 ∧ 0 ≤ A0 * B1 ∧ 0 ≤ A0 * B0) ∨ (A1 * B0 ≤ 0 ∧ A0 * B1 ≤ 0 ∧ A0 * B0 ≤ 0) := by
  rcases Int.le_total 0 iA with hx | hx <;> rcases Int.le_total 0 iB with hy | hy
  · obtain ⟨h1, h0⟩ := hA.nonneg hx
    obtain ⟨k1, k0⟩ := hB.nonneg hy
    exact .inl ⟨mul_nonneg h1 k0, mul_nonneg h0 k1, mul_nonneg h0 k0⟩
  · obtain ⟨h1, h0⟩ := hA.nonneg hx
    obtain ⟨k1, k0⟩ := hB.nonpos hy
    exact .inr ⟨mul_nonpos_of_nonneg_of_nonpos h1 k0, mul_nonpos_of_nonneg_of_nonpos h0 k1,
      mul_nonpos_of_nonneg_of_nonpos h0 k0⟩
  · obtain ⟨h1, h0⟩ := hA.nonpos hx
    obtain ⟨k1, k0⟩ := hB.nonneg hy
    exact .inr ⟨mul_nonpos_of_nonpos_of_nonneg h1 k0, mul_nonpos_of_nonpos_of_nonneg h0 k1,
      mul_nonpos_of_nonpos_of_nonneg h0 k0⟩
  · obtain ⟨h1, h0⟩ := hA.nonpos hx
    obtain ⟨k1, k0⟩ := hB.nonpos hy
    exact .inl ⟨mul_nonneg_of_nonpos_of_nonpos h1 k0, mul_nonneg_of_nonpos_of_nonpos h0 k1,
      mul_nonneg_of_nonpos_of_nonpos h0 k0⟩

/-- The product of the low halves, which has up to 64 bits, is not computed or fits. -/
def LowFits (iA iB : ℤ) : Prop :=
  let r := iA.tdiv TWOPOWER32 * iB.tmod TWOPOWER32 + iA.tmod TWOPOWER32 * iB.tdiv TWOPOWER32
  iA.tdiv TWOPOWER32 * iB.tdiv TWOPOWER32 ≠ 0 ∨ r < -TWOPOWER31 ∨ r ≥ TWOPOWER31 ∨
    Fits (iA.tmod TWOPOWER32 * iB.tmod TWOPOWER32)

theorem sqlite3MulInt64_iff (hA : Fits iA) (hB : Fits iB) :
    Exact (sqlite3MulInt64 iA iB) iA (iA * iB) ↔ LowFits iA iB := by
  have hx := halves hA
  have hy := halves hB
  unfold LowFits sqlite3MulInt64
  dsimp only
  generalize iA.tdiv TWOPOWER32 = A1 at *
  generalize iA.tmod TWOPOWER32 = A0 at *
  generalize iB.tdiv TWOPOWER32 = B1 at *
  generalize iB.tmod TWOPOWER32 = B0 at *
  have hA1 : Fits A1 := by
    have h := hx.high_le
    rw [fits_iff]
    omega
  have hA0 : Fits A0 := by
    have h := hx.low_le
    rw [fits_iff]
    omega
  have hB1 : Fits B1 := by
    have h := hy.high_le
    rw [fits_iff]
    omega
  have hB0 : Fits B0 := by
    have h := hy.low_le
    rw [fits_iff]
    omega
  have hhigh : Fits (A1 * B1) := mul_fits hx.high_le hy.high_le (by norm_num) (by norm_num)
  have hcross : Fits (A1 * B0) := mul_fits hx.high_le hy.low_le (by norm_num) (by norm_num)
  have hcross' : Fits (A0 * B1) := mul_fits hx.low_le hy.high_le (by norm_num) (by norm_num)
  rw [i64_of_fits hA1, pure_bind_arith, i64_of_fits hA0, pure_bind_arith, i64_of_fits hB1,
    pure_bind_arith, i64_of_fits hB0, pure_bind_arith, i64_of_fits hhigh, pure_bind_arith]
  by_cases hzero : A1 * B1 ≠ 0
  · have hout := not_fits_high hx hy hzero
    refine ⟨fun _ => .inl hzero, fun _ => ?_⟩
    rw [if_pos hzero, Exact, if_neg hout]
    rfl
  · have hzero' : A1 * B1 = 0 := not_not.mp hzero
    have hr : Fits (A1 * B0 + A0 * B1) := by
      rcases mul_eq_zero.mp hzero' with h1 | h1
      · rw [h1, zero_mul, zero_add]
        exact hcross'
      · rw [h1, mul_zero, add_zero]
        exact hcross
    have hprod : iA * iB = (A1 * B0 + A0 * B1) * 4294967296 + A0 * B0 := by
      rw [hx.eq, hy.eq]
      linear_combination 18446744073709551616 * hzero'
    have hsigns : (0 ≤ A1 * B0 + A0 * B1 ∧ 0 ≤ A0 * B0) ∨
        (A1 * B0 + A0 * B1 ≤ 0 ∧ A0 * B0 ≤ 0) := by
      rcases hx.signs hy with ⟨h1, h2, h3⟩ | ⟨h1, h2, h3⟩
      · exact .inl ⟨add_nonneg h1 h2, h3⟩
      · exact .inr ⟨add_nonpos h1 h2, h3⟩
    have hpow : TWOPOWER32 = 4294967296 := rfl
    have hhalf : TWOPOWER31 = 2147483648 := rfl
    rw [if_neg hzero, i64_of_fits hcross, pure_bind_arith, i64_of_fits hcross', pure_bind_arith,
      i64_of_fits hr, pure_bind_arith, hprod]
    generalize A1 * B0 + A0 * B1 = r at *
    generalize A0 * B0 = low at *
    by_cases hrange : r < -TWOPOWER31 ∨ r ≥ TWOPOWER31
    · have hout : ¬ Fits (r * 4294967296 + low) := by
        rw [fits_iff]
        omega
      refine ⟨fun _ => .inr (hrange.imp_right .inl), fun _ => ?_⟩
      rw [if_pos hrange, Exact, if_neg hout]
      rfl
    · have hshift : Fits (r * TWOPOWER32) := by
        rw [fits_iff, hpow]
        omega
      rw [if_neg hrange, i64_of_fits hshift, pure_bind_arith, hpow]
      by_cases hlow : Fits low
      · rw [hpow] at hshift
        have hadd := sqlite3AddInt64_spec hshift hlow
        rw [Exact] at hadd
        refine ⟨fun _ => .inr (.inr (.inr hlow)), fun _ => ?_⟩
        rw [i64_of_fits hlow, pure_bind_arith, hadd, Exact]
        by_cases hfit : Fits (r * 4294967296 + low)
        · rw [if_pos hfit, if_pos hfit]
          rfl
        · rw [if_neg hfit, if_neg hfit]
          rfl
      · constructor
        · intro hexact
          have hfalse := bind_inexact (fun low => do
            let sum ← sqlite3AddInt64 (r * 4294967296) low
            if sum.1 ≠ 0 then return (1, iA) else return (0, sum.2)) (i64_of_not_fits hlow)
          rw [Exact] at hexact
          rw [hexact] at hfalse
          cases hfalse
        · rintro (h | h | h | h)
          · exact absurd h hzero
          · exact absurd (.inl h) hrange
          · exact absurd (.inr h) hrange
          · exact absurd h hlow

/-- The three functions, each with its exact result or none. -/
theorem int64_arith_iff (hA : Fits iA) (hB : Fits iB) :
    (Exact (sqlite3AddInt64 iA iB) iA (iA + iB) ∧ Exact (sqlite3SubInt64 iA iB) iA (iA - iB) ∧
      Exact (sqlite3MulInt64 iA iB) iA (iA * iB)) ↔ LowFits iA iB := by
  rw [← sqlite3MulInt64_iff hA hB]
  exact ⟨fun h => h.2.2, fun h => ⟨sqlite3AddInt64_spec hA hB, sqlite3SubInt64_spec hA hB, h⟩⟩

theorem int64_arith_iff_seven :
    (Exact (sqlite3AddInt64 7 (-5)) 7 2 ∧ Exact (sqlite3SubInt64 7 (-5)) 7 12 ∧
      Exact (sqlite3MulInt64 7 (-5)) 7 (-35)) ↔ LowFits 7 (-5) :=
  int64_arith_iff (by decide) (by decide)

/-- The low halves of 4294967295 and 4294967295 are the numbers themselves, and their product has 64
bits: the function reports success with a negative product. -/
theorem int64_mul_wraps : Fits 4294967295 ∧ ¬ Fits (4294967295 * 4294967295) ∧
    sqlite3MulInt64 4294967295 4294967295 = ⟨(0, -8589934591), false⟩ := by
  decide +kernel

end

end Sqlite.Numeric

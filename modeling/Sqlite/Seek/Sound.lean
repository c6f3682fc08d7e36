import Sqlite.BtreeCursor.Sound
import Sqlite.Numeric.IntValue
import Sqlite.Record.Compare

/-! Where the seeks of a rowid end. -/
namespace Sqlite.Seek

open BtreeCursor Foundation Numeric CursorState

section

/-! The opcodes that seek a rowid of a table (`OP_SeekLt`, `OP_SeekLe`, `OP_SeekGe` and `OP_SeekGt`). -/

open BtreeCursor Foundation Numeric

inductive SeekOp
  | OP_SeekLt
  | OP_SeekLe
  | OP_SeekGe
  | OP_SeekGt
  deriving DecidableEq

/-- `oc>=OP_SeekGe`. -/
def SeekOp.up (oc : SeekOp) : Bool := oc = .OP_SeekGe ∨ oc = .OP_SeekGt

/-- The fields of a cursor of the program that the opcodes set. `cacheStale` is `cacheStatus==CACHE_STALE`. -/
structure VdbeCursor where
  pCursor : BtCursor ℤ
  nullRow : Bool
  rowidIsValid : Bool
  lastRowid : ℤ
  deferredMoveto : Bool
  cacheStale : Bool

/-- Comparison of two numbers; the one is never a NaN, as memory cells hold none. -/
def doubleLt (r1 r2 : ℕ) : Bool := Record.doubleLt r1 r2

/-- The computation in floating point at the end of `sqlite3AtoF` is `toReal`; its loops take at most `n`
tests each. -/
def applyNumericAffinity (n : ℕ) (toReal : Scaled → ℕ) (pRec : Mem) : Mem :=
  if pRec.real ∨ pRec.int then pRec
  else if ¬ pRec.str then pRec
  else
    match sqlite3AtoF n pRec.z pRec.enc with
    | none => pRec
    | some m =>
      if m.value.ret = false then pRec
      else
        let iValue := sqlite3Atoi64 pRec.z pRec.enc
        if iValue.1 = 0 then { pRec with i := iValue.2, int := true }
        else { pRec with r := toReal m.value.number, real := true }

def sqlite3BtreeEof (c : BtCursor ℤ) : Bool := c.eState ≠ .CURSOR_VALID

/-- The value is too large in magnitude to be expressed as an integer. -/
def tooLarge (iKey : ℤ) (r : ℕ) : Bool :=
  iKey = SMALLEST_INT64 ∧ (doubleLt r (Binary64.ofInt iKey) ∨ doubleLt 0 r)

/-- The first or the last row for such a value. The number is `res`. -/
def seekEnd (t : BtShared ℤ) (c : BtCursor ℤ) (oc : SeekOp) (r : ℕ) : Except Failure (ℤ × BtCursor ℤ) :=
  if doubleLt r 0 then
    if oc.up then sqlite3BtreeFirst t c else return (1, c)
  else if ¬ oc.up then do
    let (res, c) ← sqlite3BtreeLast t c
    return (res.getD 1, c)
  else return (1, c)

/-- The ceiling or the floor of a number, from the integer that truncation gives. -/
def roundKey (oc : SeekOp) (iKey : ℤ) (r : ℕ) : ℤ :=
  if oc = .OP_SeekLt ∨ oc = .OP_SeekGe then if doubleLt (Binary64.ofInt iKey) r then iKey + 1 else iKey
  else if doubleLt r (Binary64.ofInt iKey) then iKey - 1 else iKey

/-- The search, and the step from where it ends. The flag says that the program jumps to P2. -/
def seekKey (t : BtShared ℤ) (pC : VdbeCursor) (oc : SeekOp) (iKey : ℤ) :
    Except Failure (Bool × VdbeCursor) := do
  let (res, c) ← sqlite3BtreeMovetoUnpacked t pC.pCursor (.rowid iKey) false
  let pC := { pC with
    pCursor := c, rowidIsValid := res = 0, lastRowid := if res = 0 then iKey else pC.lastRowid,
    deferredMoveto := false, cacheStale := true }
  if oc.up then
    if res < 0 ∨ (res = 0 ∧ oc = .OP_SeekGt) then do
      let (res, c) ← sqlite3BtreeNext t 2 c
      return (res ≠ 0, { pC with pCursor := c, rowidIsValid := false })
    else return (false, pC)
  else if res > 0 ∨ (res = 0 ∧ oc = .OP_SeekLt) then do
    let (res, c) ← sqlite3BtreePrevious t 2 c
    return (res ≠ 0, { pC with pCursor := c, rowidIsValid := false })
  else return (sqlite3BtreeEof c, pC)

/-- The opcode for the register after `applyNumericAffinity`. -/
def seekValue (t : BtShared ℤ) (pC : VdbeCursor) (oc : SeekOp) (pIn3 : Mem) :
    Except Failure (Bool × VdbeCursor) :=
  let iKey := sqlite3VdbeIntValue pIn3
  let pC := { pC with nullRow := false, rowidIsValid := false }
  if pIn3.int then seekKey t pC oc iKey
  else if ¬ pIn3.real then return (true, pC)
  else if tooLarge iKey pIn3.r then do
    let (res, c) ← seekEnd t pC.pCursor oc pIn3.r
    return (res ≠ 0, { pC with pCursor := c })
  else seekKey t pC oc (roundKey oc iKey pIn3.r)

def opSeek (n : ℕ) (toReal : Scaled → ℕ) (t : BtShared ℤ) (pC : VdbeCursor) (oc : SeekOp) (pIn3 : Mem) :
    Except Failure (Bool × VdbeCursor) :=
  seekValue t pC oc (applyNumericAffinity n toReal pIn3)

end

variable {r : ℕ} {q k U x : ℤ} {oc : SeekOp}

/-! Real numbers and the integers beside them. Numbers are in multiples of `2 ^ (-1074)`. -/

theorem doubleLt_iff {r1 r2 : ℕ} (h1 : ¬Record.sqlite3IsNaN r1) (h2 : ¬Record.sqlite3IsNaN r2) :
    doubleLt r1 r2 = true ↔ Binary64.units r1 < Binary64.units r2 := by
  simp [doubleLt, Record.doubleLt, h1, h2]

theorem ofInt_finite (h : k.natAbs < 2 ^ 64) : Binary64.IsFinite (Binary64.ofInt k) :=
  (Binary64.ofInt_nearest h).1

theorem not_nan_of_finite (h : Binary64.IsFinite r) : ¬Record.sqlite3IsNaN r := by
  simp only [Binary64.IsFinite, Binary64.exponent] at h
  simp only [Record.sqlite3IsNaN, decide_eq_true_eq, not_and]
  omega

theorem units_smallest : Binary64.units (Binary64.ofInt SMALLEST_INT64) = -2 ^ 63 * 2 ^ 1074 := by
  decide +kernel

theorem units_largest : Binary64.units (Binary64.ofInt LARGEST_INT64) = 2 ^ 63 * 2 ^ 1074 := by
  decide +kernel

theorem natAbs_units (r : ℕ) : (Binary64.units r).natAbs = Binary64.magnitude r := by
  unfold Binary64.units
  split_ifs <;> simp

/-- Truncation goes towards 0. -/
theorem trunc_bounds (hU : 0 < U) (q : ℤ) :
    (0 ≤ q → q.tdiv U * U ≤ q ∧ q < (q.tdiv U + 1) * U) ∧
      (q < 0 → (q.tdiv U - 1) * U < q ∧ q ≤ q.tdiv U * U) := by
  have hsum := Int.mul_tdiv_add_tmod q U
  rw [mul_comm] at hsum
  rw [add_mul, sub_mul, one_mul]
  constructor
  · intro hq
    have h1 := Int.tmod_nonneg U hq
    have h2 := Int.tmod_lt_of_pos q hU
    omega
  · intro hq
    have h1 := Int.tmod_nonneg U (show 0 ≤ -q by omega)
    have h2 := Int.tmod_lt_of_pos (-q) hU
    rw [Int.neg_tmod] at h1 h2
    omega

theorem trunc_fits (hU : 0 < U) (hlo : -2 ^ 63 * U ≤ q) (hhi : q < 2 ^ 63 * U) :
    SMALLEST_INT64 ≤ q.tdiv U ∧ q.tdiv U ≤ LARGEST_INT64 := by
  obtain ⟨hpos, hneg⟩ := trunc_bounds hU q
  unfold SMALLEST_INT64 LARGEST_INT64
  rcases lt_or_ge q 0 with hq | hq
  · obtain ⟨h1, h2⟩ := hneg hq
    have h3 : -2 ^ 63 ≤ q.tdiv U := le_of_mul_le_mul_right (hlo.trans h2) hU
    have h4 : q.tdiv U - 1 < 0 := by
      by_contra hge
      have := mul_nonneg (not_lt.mp hge) hU.le
      omega
    omega
  · obtain ⟨h1, h2⟩ := hpos hq
    have h3 : q.tdiv U < 2 ^ 63 := lt_of_mul_lt_mul_right (h1.trans_lt hhi) hU.le
    have h4 : 0 < q.tdiv U + 1 := by
      by_contra hle
      have := mul_nonpos_of_nonpos_of_nonneg (not_lt.mp hle) hU.le
      omega
    omega

/-- The conversion truncates what fits, and gives the least integer for the others. -/
theorem doubleToInt64_eq (r : ℕ) :
    ((Binary64.units r < -2 ^ 63 * 2 ^ 1074 ∨ 2 ^ 63 * 2 ^ 1074 ≤ Binary64.units r) ∧
      doubleToInt64 r = SMALLEST_INT64) ∨
    (-2 ^ 63 * 2 ^ 1074 ≤ Binary64.units r ∧ Binary64.units r < 2 ^ 63 * 2 ^ 1074 ∧
      doubleToInt64 r = (Binary64.units r).tdiv (2 ^ 1074)) := by
  have hU : (0 : ℤ) < 2 ^ 1074 := pow_pos zero_lt_two _
  unfold doubleToInt64 toI64
  dsimp only
  rw [units_smallest, units_largest]
  generalize Binary64.units r = q
  generalize (2 : ℤ) ^ 1074 = U at *
  by_cases hlo : q < -2 ^ 63 * U
  · rw [if_pos hlo]
    exact .inl ⟨.inl hlo, rfl⟩
  by_cases hhi : 2 ^ 63 * U < q
  · rw [if_neg hlo, if_pos hhi]
    exact .inl ⟨.inr hhi.le, rfl⟩
  rw [if_neg hlo, if_neg hhi]
  rcases eq_or_lt_of_le (not_lt.mp hhi) with heq | hlt
  · refine .inl ⟨.inr heq.ge, ?_⟩
    have hdiv : q.tdiv U = 2 ^ 63 := by rw [heq, Int.mul_tdiv_cancel _ hU.ne']
    rw [hdiv]
    decide
  · refine .inr ⟨not_lt.mp hlo, hlt, ?_⟩
    rw [if_pos (trunc_fits hU (not_lt.mp hlo) hlt)]

/-- What is left out of the range of integers is finite inside of it. -/
theorem finite_of_lt (h : Binary64.magnitude r ≤ 2 ^ 63 * 2 ^ 1074) : Binary64.IsFinite r := by
  unfold Binary64.IsFinite
  by_contra hge
  have hlt : Binary64.exponent r < 2 ^ 11 := Nat.mod_lt _ (by decide)
  have hexp : Binary64.exponent r = 2047 := by omega
  have hmag : Binary64.magnitude r = (2 ^ 52 + r % 2 ^ 52) * 2 ^ 2046 := by
    rw [Binary64.magnitude, hexp, if_neg (by decide)]
  have hle : 1 * 2 ^ 2046 ≤ Binary64.magnitude r := by
    rw [hmag]
    exact Nat.mul_le_mul_right _ (by omega)
  have hpow (a b c : ℕ) (h : a + b < c) : 2 ^ a * 2 ^ b < 1 * 2 ^ c := by
    rw [← pow_add, one_mul]
    exact Nat.pow_lt_pow_right (by decide) h
  exact absurd (hle.trans h) (not_le.mpr (hpow 63 1074 2046 (by decide)))

theorem cast_scale : ((2 ^ 1074 : ℕ) : ℤ) = 2 ^ 1074 := Nat.cast_pow 2 1074

/-- The integer that truncation gives is a number itself. -/
theorem ofInt_trunc (hlo : -2 ^ 63 * 2 ^ 1074 ≤ Binary64.units r)
    (hhi : Binary64.units r < 2 ^ 63 * 2 ^ 1074) :
    Binary64.units (Binary64.ofInt ((Binary64.units r).tdiv (2 ^ 1074))) =
      (Binary64.units r).tdiv (2 ^ 1074) * 2 ^ 1074 := by
  have hpos := Nat.two_pow_pos 1074
  have hlarge := @Binary64.dvd_magnitude r
  have hfinite := @finite_of_lt r
  have hsmall := @Binary64.units_ofInt ((Binary64.units r).tdiv (2 ^ 1074))
  have hnear := @Binary64.ofInt_nearest ((Binary64.units r).tdiv (2 ^ 1074))
  simp only [Binary64.IsNearest] at hnear
  obtain ⟨u, hu⟩ : ∃ u, u = (2 : ℕ) ^ 1074 := ⟨_, rfl⟩
  have hcast : (2 : ℤ) ^ 1074 = u := by rw [hu, cast_scale]
  simp only [← hu] at hpos hlarge hfinite
  simp only [hcast] at hlo hhi hsmall hnear ⊢
  obtain ⟨hfit, hfit'⟩ := trunc_fits (Int.natCast_pos.mpr hpos) hlo hhi
  unfold SMALLEST_INT64 at hfit
  unfold LARGEST_INT64 at hfit'
  by_cases hk : ((Binary64.units r).tdiv u).natAbs ≤ 2 ^ 53
  · exact hsmall hk
  -- Otherwise the number has no fraction, and is the one nearest to itself.
  rw [← natAbs_units] at hlarge hfinite
  have hdvd : (u : ℤ) ∣ Binary64.units r := by
    rw [← Int.natAbs_dvd_natAbs, Int.natAbs_natCast]
    rw [Int.natAbs_tdiv, Int.natAbs_natCast] at hk
    exact hlarge ((Nat.le_div_iff_mul_le hpos).mp (not_le.mp hk).le)
  have hle := (hnear (by omega)).2 r (hfinite (by omega))
  have hexact := Int.tdiv_mul_cancel hdvd
  rw [hexact, sub_self, Int.natAbs_zero, Nat.le_zero, Int.natAbs_eq_zero, sub_eq_zero] at hle
  rw [hle, hexact]

theorem tooLarge_iff (hnan : ¬Record.sqlite3IsNaN r) : tooLarge (doubleToInt64 r) r = true ↔
    Binary64.units r < -2 ^ 63 * 2 ^ 1074 ∨ 2 ^ 63 * 2 ^ 1074 ≤ Binary64.units r := by
  have hfinite := not_nan_of_finite (@ofInt_finite SMALLEST_INT64 (by decide))
  have hzero : ¬Record.sqlite3IsNaN 0 := by decide
  have hunits : Binary64.units 0 = 0 := by decide
  have hU : (0 : ℤ) < 2 ^ 1074 := pow_pos zero_lt_two _
  have hcases := doubleToInt64_eq r
  have hbounds := trunc_bounds hU (Binary64.units r)
  simp only [tooLarge, decide_eq_true_eq]
  rw [doubleLt_iff hzero hnan, hunits]
  generalize doubleToInt64 r = k at *
  by_cases hk : k = SMALLEST_INT64
  · subst hk
    rw [doubleLt_iff hnan hfinite, units_smallest]
    generalize Binary64.units r = q at *
    generalize (2 : ℤ) ^ 1074 = U at *
    rcases hcases with ⟨hout, -⟩ | ⟨hlo, hhi, heq⟩
    · refine ⟨fun _ => hout, fun _ => ⟨rfl, hout.imp_right fun hge => ?_⟩⟩
      exact (mul_pos (by decide) hU).trans_le hge
    · refine ⟨fun h => absurd h.2 ?_, fun h => absurd h (by omega)⟩
      rw [not_or, not_lt, not_lt]
      refine ⟨hlo, ?_⟩
      by_contra hq
      obtain ⟨h1, h2⟩ := hbounds.1 (not_le.mp hq).le
      rw [← heq, SMALLEST_INT64] at h2
      have := mul_pos (show (0 : ℤ) < 2 ^ 63 - 1 by decide) hU
      rw [add_mul] at h2
      rw [sub_mul] at this
      omega
  · refine ⟨fun h => absurd h.1 hk, fun h => ?_⟩
    rcases hcases with ⟨-, heq⟩ | ⟨hlo, hhi, -⟩
    · exact absurd heq hk
    · exact absurd h (not_or.mpr ⟨not_lt.mpr hlo, not_le.mpr hhi⟩)

/-- What is to hold between a rowid and the value. -/
def SeekOp.Holds : SeekOp → ℤ → ℤ → Prop
  | .OP_SeekLt, x, v => x < v
  | .OP_SeekLe, x, v => x ≤ v
  | .OP_SeekGe, x, v => v ≤ x
  | .OP_SeekGt, x, v => v < x

theorem holds_scale (hU : 0 < U) (oc : SeekOp) (x k : ℤ) : oc.Holds (x * U) (k * U) ↔ oc.Holds x k := by
  cases oc <;> simp only [SeekOp.Holds, mul_lt_mul_iff_left₀ hU, mul_le_mul_iff_left₀ hU]

/-- The integers on either side of a number that is not one. -/
theorem between (hU : 0 < U) (hlo : k * U < q) (hhi : q < (k + 1) * U) (x : ℤ) :
    (x * U < q ↔ x ≤ k) ∧ (q < x * U ↔ k < x) := by
  have hle : x ≤ k → x * U < q := fun h => (mul_le_mul_of_nonneg_right h hU.le).trans_lt hlo
  have hgt : k < x → q < x * U := fun h =>
    hhi.trans_le (mul_le_mul_of_nonneg_right (Int.add_one_le_of_lt h) hU.le)
  refine ⟨⟨fun h => ?_, hle⟩, fun h => ?_, hgt⟩
  · by_contra hlt
    exact absurd (hgt (not_le.mp hlt)) (not_lt.mpr h.le)
  · by_contra hge
    exact absurd (hle (not_lt.mp hge)) (not_lt.mpr h.le)

/-- The ceiling and the floor keep what is to hold. -/
theorem roundKey_holds (hnan : ¬Record.sqlite3IsNaN r) (hlo : -2 ^ 63 * 2 ^ 1074 ≤ Binary64.units r)
    (hhi : Binary64.units r < 2 ^ 63 * 2 ^ 1074) (oc : SeekOp) (x : ℤ) :
    oc.Holds x (roundKey oc ((Binary64.units r).tdiv (2 ^ 1074)) r) ↔
      oc.Holds (x * 2 ^ 1074) (Binary64.units r) := by
  have hU : (0 : ℤ) < 2 ^ 1074 := pow_pos zero_lt_two _
  obtain ⟨hfit, hfit'⟩ := trunc_fits hU hlo hhi
  unfold SMALLEST_INT64 at hfit
  unfold LARGEST_INT64 at hfit'
  have hexact := ofInt_trunc hlo hhi
  have hbounds := trunc_bounds hU (Binary64.units r)
  generalize hk : (Binary64.units r).tdiv (2 ^ 1074) = k at *
  have hfinite := not_nan_of_finite (@ofInt_finite k (by omega))
  have habove := doubleLt_iff hfinite hnan
  have hbelow := doubleLt_iff hnan hfinite
  rw [hexact] at habove hbelow
  rw [roundKey]
  simp only [habove, hbelow]
  generalize Binary64.units r = q at *
  generalize (2 : ℤ) ^ 1074 = U at *
  rcases lt_trichotomy (k * U) q with hlt | heq | hgt
  · have hq : 0 ≤ q := by
      by_contra hneg
      exact absurd (hbounds.2 (not_le.mp hneg)).2 (not_le.mpr hlt)
    obtain ⟨hlow, hhigh⟩ := between hU hlt (hbounds.1 hq).2 x
    have hle : x * U ≤ q ↔ x ≤ k := by rw [← not_lt, hhigh, not_lt]
    have hge : q ≤ x * U ↔ k < x := by rw [← not_lt, hlow, not_le]
    cases oc <;> simp only [SeekOp.Holds, hlt, hlt.not_gt, hlow, hhigh, hle, hge, reduceCtorEq,
      true_or, or_true, or_self, if_true, if_false] <;> omega
  · subst heq
    rw [holds_scale hU]
    simp
  · have hq : q < 0 := by
      by_contra hpos
      exact absurd (hbounds.1 (not_lt.mp hpos)).1 (not_le.mpr hgt)
    have hhi' : q < (k - 1 + 1) * U := by rwa [sub_add_cancel]
    obtain ⟨hlow, hhigh⟩ := between hU (hbounds.2 hq).1 hhi' x
    have hle : x * U ≤ q ↔ x ≤ k - 1 := by rw [← not_lt, hhigh, not_lt]
    have hge : q ≤ x * U ↔ k - 1 < x := by rw [← not_lt, hlow, not_le]
    cases oc <;> simp only [SeekOp.Holds, hgt, hgt.not_gt, hlow, hhigh, hle, hge, reduceCtorEq,
      true_or, or_true, or_self, if_true, if_false] <;> omega

/-! The search in the tree. -/

/-- The nearest of some rows for which `p` holds. -/
def Lands (oc : SeekOp) (rows : List ℤ) (p : ℤ → Prop) : Option ℤ → Prop
  | none => ∀ x ∈ rows, ¬p x
  | some x => x ∈ rows ∧ p x ∧ ∀ y ∈ rows, p y → if oc.up then x ≤ y else y ≤ x

variable {t : BtShared ℤ} {root depth : ℕ} {intKey : Bool} {s : Client ℤ} {c c' : BtCursor ℤ} {rows : List ℤ}
  {p p' : ℤ → Prop} {pos : Option ℤ} {pC : VdbeCursor} {res : ℤ}

theorem Lands.congr (h : Lands oc rows p pos) (hp : ∀ x ∈ rows, p x ↔ p' x) : Lands oc rows p' pos := by
  cases pos with
  | none => exact fun x hx => (hp x hx).not.mp (h x hx)
  | some x =>
    obtain ⟨hx, hpx, hleast⟩ := h
    exact ⟨hx, (hp x hx).mp hpx, fun y hy hpy => hleast y hy ((hp y hy).mpr hpy)⟩

theorem holds_up (hup : oc.up = true) (y k : ℤ) : oc.Holds y k ↔ k < y ∨ (y = k ∧ oc = .OP_SeekGe) := by
  cases oc with
  | OP_SeekLt => exact absurd hup (by decide)
  | OP_SeekLe => exact absurd hup (by decide)
  | OP_SeekGe => simp [SeekOp.Holds, le_iff_lt_or_eq, eq_comm]
  | OP_SeekGt => simp [SeekOp.Holds]

theorem holds_down (hup : oc.up = false) (y k : ℤ) : oc.Holds y k ↔ y < k ∨ (y = k ∧ oc = .OP_SeekLe) := by
  cases oc with
  | OP_SeekLt => simp [SeekOp.Holds]
  | OP_SeekLe => simp [SeekOp.Holds, le_iff_lt_or_eq]
  | OP_SeekGe => exact absurd hup (by decide)
  | OP_SeekGt => exact absurd hup (by decide)

/-- The row after one that is too small, with none of the rows between it and the key. -/
theorem lands_succ (hup : oc.up = true) (hpos : IsSucc rows x pos) (hx : x < k ∨ (x = k ∧ oc = .OP_SeekGt))
    (hnone : x < k → ∀ y ∈ rows, x < y → k < y) : Lands oc rows (oc.Holds · k) pos := by
  have hiff : ∀ y ∈ rows, oc.Holds y k ↔ x < y := by
    intro y hy
    rw [holds_up hup]
    rcases hx with hlt | ⟨rfl, rfl⟩
    · refine ⟨fun h => ?_, fun h => .inl (hnone hlt y hy h)⟩
      rcases h with h | ⟨rfl, -⟩
      · exact hlt.trans h
      · exact hlt
    · simp
  cases pos with
  | none => exact fun y hy => (hiff y hy).not.mpr (hpos y hy)
  | some z =>
    obtain ⟨hz, hxz, hleast⟩ := hpos
    refine ⟨hz, (hiff z hz).mpr hxz, fun y hy hpy => ?_⟩
    rw [if_pos hup]
    exact hleast y hy ((hiff y hy).mp hpy)

/-- The row before one that is too large. -/
theorem lands_pred (hup : oc.up = false) (hpos : IsPred rows x pos) (hx : k < x ∨ (x = k ∧ oc = .OP_SeekLt))
    (hnone : k < x → ∀ y ∈ rows, y < x → y < k) : Lands oc rows (oc.Holds · k) pos := by
  have hiff : ∀ y ∈ rows, oc.Holds y k ↔ y < x := by
    intro y hy
    rw [holds_down hup]
    rcases hx with hlt | ⟨rfl, rfl⟩
    · refine ⟨fun h => ?_, fun h => .inl (hnone hlt y hy h)⟩
      rcases h with h | ⟨rfl, -⟩
      · exact h.trans hlt
      · exact hlt
    · simp
  cases pos with
  | none => exact fun y hy => (hiff y hy).not.mpr (hpos y hy)
  | some z =>
    obtain ⟨hz, hzx, hgreatest⟩ := hpos
    refine ⟨hz, (hiff z hz).mpr hzx, fun y hy hpy => ?_⟩
    rw [if_neg (by simp [hup])]
    exact hgreatest y hy ((hiff y hy).mp hpy)

/-- A row that is not too small, with none of the rows between the key and it. -/
theorem lands_at_up (hup : oc.up = true) (hmem : x ∈ rows) (hx : k < x ∨ (x = k ∧ oc = .OP_SeekGe))
    (hnone : k < x → ∀ y ∈ rows, y < x → y < k) : Lands oc rows (oc.Holds · k) (some x) := by
  refine ⟨hmem, (holds_up hup x k).mpr hx, fun y hy hpy => ?_⟩
  rw [if_pos hup]
  by_contra hlt
  have hyx := not_le.mp hlt
  rcases (holds_up hup y k).mp hpy with hky | ⟨rfl, -⟩
  · rcases hx with hkx | ⟨rfl, -⟩
    · exact absurd (hnone hkx y hy hyx) hky.not_gt
    · exact absurd hyx hky.not_gt
  · exact absurd (hnone hyx y hy hyx) (lt_irrefl y)

/-- A row that is not too large. -/
theorem lands_at_down (hup : oc.up = false) (hmem : x ∈ rows) (hx : x < k ∨ (x = k ∧ oc = .OP_SeekLe))
    (hnone : x < k → ∀ y ∈ rows, x < y → k < y) : Lands oc rows (oc.Holds · k) (some x) := by
  refine ⟨hmem, (holds_down hup x k).mpr hx, fun y hy hpy => ?_⟩
  rw [if_neg (by simp [hup])]
  by_contra hlt
  have hxy := not_le.mp hlt
  rcases (holds_down hup y k).mp hpy with hyk | ⟨rfl, -⟩
  · rcases hx with hxk | ⟨rfl, -⟩
    · exact absurd (hnone hxk y hy hxy) hyk.not_gt
    · exact absurd hxy hyk.not_gt
  · exact absurd (hnone hxy y hy hxy) (lt_irrefl y)

theorem steps_entry {right : List ℤ → ℤ → Option ℤ → Prop} (h : Steps root intKey s right res c') :
    (res ≠ 0 ↔ entryOf s.t c' = none) ∧
      ∀ k, s.pos = some k → right (allEntries s.t root s.depth) k (entryOf s.t c') := by
  obtain ⟨hg, hcase, -, hright⟩ := h
  refine ⟨?_, hright⟩
  rcases hcase with ⟨hres, hv⟩ | ⟨hres, hv⟩
  · simp [hres, entryOf_invalid hv]
  · obtain ⟨pre, x, post, hp, -⟩ := hg.valid hv
    have hsome : entryOf s.t c' = some x := hp.1.entryOf rfl hv
    simp [hres, hsome]

/-- A search for an integer ends at the row that is to be found. -/
theorem seekKey_lands (hg : Good root true s) (hf : s.cur.eState ≠ CURSOR_FAULT) (hskip : s.cur.skipNext = 0)
    (hcur : pC.pCursor = s.cur) (oc : SeekOp) (k : ℤ) : ∃ jump pC', seekKey s.t pC oc k = pure (jump, pC') ∧
      (jump = true ↔ entryOf s.t pC'.pCursor = none) ∧
      Lands oc (allEntries s.t root s.depth) (oc.Holds · k) (entryOf s.t pC'.pCursor) := by
  have hvalid : s.cur.eState = CURSOR_VALID → s.cur.validNKey = true ∨ s.cur.atLast = true →
      ∃ pre x post, Placed s.t root s.depth s.cur pre x post := by
    intro hv _
    obtain ⟨pre, x, post, hp, -⟩ := hg.valid hv
    exact ⟨pre, x, post, hp⟩
  obtain ⟨res, c, hmove, hkept, hcase⟩ :=
    moveto_eq hg.tree hg.pgnoRoot hg.kind hg.stack hf hvalid (.rowid k) false
  have hg' : Good root true (s.moved c) := by
    refine hg.moved hkept.pgnoRoot hkept.intKey (hkept.skipNext.trans hskip) ?_
    rcases hcase with ⟨-, -, hv, hst⟩ | ⟨hv, pre, x, post, hp, -⟩
    · exact .inl ⟨hv, hst⟩
    · exact .inr ⟨hv, pre, x, post, hp⟩
  have hf' : (s.moved c).cur.eState ≠ CURSOR_FAULT := by
    rcases hcase with ⟨-, -, hv, -⟩ | ⟨hv, -⟩ <;> simp [Client.moved, hv]
  obtain ⟨nres, n, hnext, hn⟩ := hg'.next hf'
  obtain ⟨pres, p, hprev, hp⟩ := hg'.previous hf'
  obtain ⟨hnentry, hsucc⟩ := steps_entry hn
  obtain ⟨hpentry, hpred⟩ := steps_entry hp
  change sqlite3BtreeNext s.t 2 c = pure (nres, n) at hnext
  change sqlite3BtreePrevious s.t 2 c = pure (pres, p) at hprev
  change nres ≠ 0 ↔ entryOf s.t n = none at hnentry
  change pres ≠ 0 ↔ entryOf s.t p = none at hpentry
  change ∀ k, entryOf s.t c = some k → IsSucc (allEntries s.t root s.depth) k (entryOf s.t n) at hsucc
  change ∀ k, entryOf s.t c = some k → IsPred (allEntries s.t root s.depth) k (entryOf s.t p) at hpred
  simp only [seekKey, hcur, hmove, pure_bind]
  rcases hcase with ⟨hall, rfl, hv, -⟩ | ⟨hv, pre, x, post, hplaced, hres, -, hside⟩
  · -- The table is empty.
    have hentry : entryOf s.t c = none := entryOf_invalid hv
    have hnone : ∀ pos, pos = none → Lands oc (allEntries s.t root s.depth) (oc.Holds · k) pos := by
      rintro _ rfl
      rw [hall]
      exact fun y hy => absurd hy List.not_mem_nil
    cases hup : oc.up with
    | true =>
      rw [if_pos rfl, if_pos (.inl (by decide)), hnext, pure_bind]
      exact ⟨_, _, rfl, by simpa using hnentry, hnone _ (hnentry.mp (by rw [hn.2.2.1 hentry]; decide))⟩
    | false =>
      rw [if_neg (by simp), if_neg (by simp)]
      exact ⟨_, _, rfl, by simp [sqlite3BtreeEof, hv, hentry], hnone _ hentry⟩
  have hentry : entryOf s.t c = some x := hplaced.1.entryOf rfl hv
  have heof : sqlite3BtreeEof c = false := by simp [sqlite3BtreeEof, hv]
  have hsplit := hplaced.1.split hg.tree
  have hsort := hg.tree.sorted
  rw [hsplit] at hsort
  obtain ⟨hpre, hpost, hcross⟩ := List.pairwise_append.mp hsort
  obtain ⟨hxpost, -⟩ := List.pairwise_cons.mp hpost
  have hmem : x ∈ allEntries s.t root s.depth := by
    rw [hsplit]
    simp
  obtain ⟨hsidel, hsider⟩ := keyCompare_sides rfl hside
  have hleft : k < x → ∀ y ∈ allEntries s.t root s.depth, y < x → y < k := by
    intro hkx y hy hyx
    rw [hsplit] at hy
    rcases List.mem_append.mp hy with hy | hy
    · exact hsidel hkx y hy
    · rcases List.mem_cons.mp hy with rfl | hy
      · exact absurd hyx (lt_irrefl y)
      · exact absurd hyx (lt_asymm (hxpost y hy))
  have hright : x < k → ∀ y ∈ allEntries s.t root s.depth, x < y → k < y := by
    intro hxk y hy hxy
    rw [hsplit] at hy
    rcases List.mem_append.mp hy with hy | hy
    · exact absurd hxy (lt_asymm (hcross y hy x List.mem_cons_self))
    · rcases List.mem_cons.mp hy with rfl | hy
      · exact absurd hxy (lt_irrefl y)
      · exact hsider hxk y hy
  have hzero : res = 0 ↔ x = k := hres ▸ keyCompare_eq_zero
  have hneg : res < 0 ↔ x < k := hres ▸ keyCompare_neg
  have hgt : res > 0 ↔ k < x := hres ▸ keyCompare_pos
  cases hup : oc.up with
  | true =>
    rw [if_pos rfl]
    by_cases hstep : res < 0 ∨ (res = 0 ∧ oc = .OP_SeekGt)
    · rw [if_pos hstep, hnext, pure_bind]
      refine ⟨_, _, rfl, by simpa using hnentry, ?_⟩
      exact lands_succ hup (hsucc x hentry) (hstep.imp hneg.mp fun h => ⟨hzero.mp h.1, h.2⟩) hright
    · rw [if_neg hstep]
      refine ⟨_, _, rfl, by simp [hentry], ?_⟩
      rw [show entryOf s.t c = some x from hentry]
      refine lands_at_up hup hmem ?_ hleft
      rw [not_or, hneg, hzero] at hstep
      rcases lt_or_eq_of_le (not_lt.mp hstep.1) with hlt | rfl
      · exact .inl hlt
      · refine .inr ⟨rfl, ?_⟩
        cases oc <;> first | rfl | exact absurd hup (by decide) | exact absurd ⟨rfl, rfl⟩ hstep.2
  | false =>
    rw [if_neg (by simp)]
    by_cases hstep : res > 0 ∨ (res = 0 ∧ oc = .OP_SeekLt)
    · rw [if_pos hstep, hprev, pure_bind]
      refine ⟨_, _, rfl, by simpa using hpentry, ?_⟩
      exact lands_pred hup (hpred x hentry) (hstep.imp hgt.mp fun h => ⟨hzero.mp h.1, h.2⟩) hleft
    · rw [if_neg hstep]
      refine ⟨_, _, rfl, by simp [hentry, heof], ?_⟩
      rw [show entryOf s.t c = some x from hentry]
      refine lands_at_down hup hmem ?_ hright
      rw [not_or, hgt, hzero] at hstep
      rcases lt_or_eq_of_le (not_lt.mp hstep.1) with hlt | rfl
      · exact .inl hlt
      · refine .inr ⟨rfl, ?_⟩
        cases oc <;> first | rfl | exact absurd hup (by decide) | exact absurd ⟨rfl, rfl⟩ hstep.2

/-- A cursor that is not at the last entry already gets a result. -/
theorem last_result {o : Option ℤ} (hnot : ¬(c.eState = CURSOR_VALID ∧ c.atLast = true))
    (h : sqlite3BtreeLast t c = pure (o, c')) : o = some 1 ∨ o = some 0 := by
  rw [sqlite3BtreeLast, if_neg hnot] at h
  obtain ⟨c₁, -, h⟩ := bind_eq_pure h
  split at h
  · cases h
    exact .inl rfl
  · obtain ⟨c₂, -, h⟩ := bind_eq_pure h
    cases h
    exact .inr rfl

/-- A value above or below all integers: the last or the first row, or none. -/
theorem seekEnd_lands (hg : Good root true s) (hf : s.cur.eState ≠ CURSOR_FAULT)
    (hrows : ∀ x ∈ allEntries s.t root s.depth, -2 ^ 63 ≤ x ∧ x < 2 ^ 63) (hnan : ¬Record.sqlite3IsNaN r)
    (hout : Binary64.units r < -2 ^ 63 * 2 ^ 1074 ∨ 2 ^ 63 * 2 ^ 1074 ≤ Binary64.units r)
    (hlast : 2 ^ 63 * 2 ^ 1074 ≤ Binary64.units r → oc.up = false →
      ¬(s.cur.eState = CURSOR_VALID ∧ s.cur.atLast = true)) :
    ∃ res c', seekEnd s.t s.cur oc r = pure (res, c') ∧ (res = 0 → entryOf s.t c' ≠ none) ∧
      Lands oc (allEntries s.t root s.depth) (fun x => oc.Holds (x * 2 ^ 1074) (Binary64.units r))
        (if res ≠ 0 then none else entryOf s.t c') := by
  have hzero : ¬Record.sqlite3IsNaN 0 := by decide
  have hunits : Binary64.units 0 = 0 := by decide
  have hU : (0 : ℤ) < 2 ^ 1074 := pow_pos zero_lt_two _
  have hneg := doubleLt_iff hnan hzero
  rw [hunits] at hneg
  have hsort := hg.tree.sorted
  rw [seekEnd]
  generalize Binary64.units r = q at *
  generalize (2 : ℤ) ^ 1074 = U at *
  rcases hout with hlo | hhi
  · have hq : doubleLt r 0 = true := by
      rw [hneg]
      have := mul_pos (show (0 : ℤ) < 2 ^ 63 by decide) hU
      rw [neg_mul] at hlo
      omega
    have hbelow : ∀ x ∈ allEntries s.t root s.depth, q < x * U := fun x hx =>
      hlo.trans_le (mul_le_mul_of_nonneg_right (hrows x hx).1 hU.le)
    rw [if_pos hq]
    cases hup : oc.up with
    | true =>
      obtain ⟨res, c', hfirst, -, hcase⟩ := first_eq hg.tree hg.pgnoRoot hg.kind hg.stack hf
      rw [if_pos rfl]
      refine ⟨res, c', hfirst, ?_⟩
      rcases hcase with ⟨hall, rfl, -, -⟩ | ⟨rfl, hv, x, post, hp⟩
      · refine ⟨fun h => absurd h (by decide), ?_⟩
        rw [if_pos (by decide), hall]
        exact fun y hy => absurd hy List.not_mem_nil
      · have hentry : entryOf s.t c' = some x := hp.1.entryOf rfl hv
        have hsplit := hp.1.split hg.tree
        rw [if_neg (by decide), hentry]
        rw [hsplit] at hsort hbelow ⊢
        have hholds : ∀ y ∈ [] ++ x :: post, oc.Holds (y * U) q := by
          intro y hy
          have := hbelow y hy
          cases oc <;> first | exact absurd hup (by decide) | exact this.le | exact this
        refine ⟨by simp, by simp, hholds x (by simp), fun y hy _ => ?_⟩
        rw [if_pos hup]
        rcases List.mem_cons.mp hy with rfl | hy
        · exact le_rfl
        · exact ((List.pairwise_cons.mp hsort).1 y hy).le
    | false =>
      refine ⟨1, s.cur, rfl, fun h => absurd h (by decide), ?_⟩
      rw [if_pos (by decide)]
      intro x hx hholds
      have := hbelow x hx
      cases oc <;> simp only [SeekOp.Holds] at hholds <;> first | exact absurd hup (by decide) | omega
  · have hq : ¬doubleLt r 0 = true := by
      rw [hneg]
      have := mul_pos (show (0 : ℤ) < 2 ^ 63 by decide) hU
      omega
    have habove : ∀ x ∈ allEntries s.t root s.depth, x * U < q := fun x hx =>
      (mul_lt_mul_of_pos_right (hrows x hx).2 hU).trans_le hhi
    rw [if_neg hq]
    cases hup : oc.up with
    | true =>
      refine ⟨1, s.cur, rfl, fun h => absurd h (by decide), ?_⟩
      rw [if_pos (by decide)]
      intro x hx hholds
      have := habove x hx
      cases oc <;> simp only [SeekOp.Holds] at hholds <;> first | exact absurd hup (by decide) | omega
    | false =>
      have hvalid : s.cur.eState = CURSOR_VALID → s.cur.validNKey = true ∨ s.cur.atLast = true →
          ∃ pre x post, Placed s.t root s.depth s.cur pre x post := by
        intro hv _
        obtain ⟨pre, x, post, hp, -⟩ := hg.valid hv
        exact ⟨pre, x, post, hp⟩
      obtain ⟨o, c', hrun, -, hcase⟩ := last_eq hg.tree hg.pgnoRoot hg.kind hg.stack hf hvalid
      rw [if_pos (by simp), hrun, pure_bind]
      rcases hcase with ⟨hall, rfl, -, -⟩ | ⟨hres, hv, pre, x, hp⟩
      · refine ⟨1, c', rfl, fun h => absurd h (by decide), ?_⟩
        rw [if_pos (by decide), hall]
        exact fun y hy => absurd hy List.not_mem_nil
      · obtain rfl := (last_result (hlast hhi hup) hrun).resolve_left hres
        have hentry : entryOf s.t c' = some x := hp.1.entryOf rfl hv
        have hsplit := hp.1.split hg.tree
        refine ⟨0, c', rfl, fun _ => by simp [hentry], ?_⟩
        rw [if_neg (by decide), hentry]
        rw [hsplit] at hsort habove ⊢
        have hholds : ∀ y ∈ pre ++ [x], oc.Holds (y * U) q := by
          intro y hy
          have := habove y hy
          cases oc <;> first | exact absurd hup (by decide) | exact this.le | exact this
        refine ⟨by simp, hholds x (by simp), fun y hy _ => ?_⟩
        rw [if_neg (by simp [hup])]
        rcases List.mem_append.mp hy with hy | hy
        · exact ((List.pairwise_append.mp hsort).2.2 y hy x (by simp)).le
        · exact (List.mem_singleton.mp hy).le

/-- The value of a register that holds a number, in multiples of `2 ^ (-1074)`. -/
def value (m : Mem) : ℤ := if m.int then m.i * 2 ^ 1074 else Binary64.units m.r

/-- The seek of a last row comes at a cursor that is known to be there. -/
def KnownLast (c : BtCursor ℤ) (oc : SeekOp) (m : Mem) : Prop :=
  m.int = false ∧ 2 ^ 63 * 2 ^ 1074 ≤ Binary64.units m.r ∧ oc.up = false ∧ c.eState = CURSOR_VALID ∧
    c.atLast = true

theorem Lands.of_jump {jump : Bool} (hjump : jump = true ↔ pos = none) (h : Lands oc rows p pos) :
    (jump = false → pos ≠ none) ∧ Lands oc rows p (if jump then none else pos) := by
  cases jump with
  | true =>
    obtain rfl := hjump.mp rfl
    exact ⟨fun hno => absurd hno (by decide), h⟩
  | false => exact ⟨fun _ hnone => absurd (hjump.mpr hnone) (by decide), h⟩

/-- For a number the opcode ends at the row that is to be found, and jumps if there is none. For any other
value it jumps. -/
theorem opSeek_lands (n : ℕ) (toReal : Scaled → ℕ) (t : BtShared ℤ) (root depth : ℕ)
    (hw : WellFormed t root true depth) (s : Client ℤ) (hrun : Run root true (openCursor t root true depth) s)
    (hf : s.cur.eState ≠ CURSOR_FAULT) (hskip : s.cur.skipNext = 0)
    (hrows : ∀ x ∈ allEntries s.t root s.depth, -2 ^ 63 ≤ x ∧ x < 2 ^ 63) (pC : VdbeCursor)
    (hcur : pC.pCursor = s.cur) (oc : SeekOp) (pIn3 m : Mem) (hm : m = applyNumericAffinity n toReal pIn3)
    (hnan : m.real = true → ¬Record.sqlite3IsNaN m.r) (hlast : ¬KnownLast s.cur oc m) :
    ∃ jump pC', opSeek n toReal s.t pC oc pIn3 = pure (jump, pC') ∧
      if m.int ∨ m.real then
        (jump = false → entryOf s.t pC'.pCursor ≠ none) ∧
        Lands oc (allEntries s.t root s.depth) (fun x => oc.Holds (x * 2 ^ 1074) (value m))
          (if jump then none else entryOf s.t pC'.pCursor)
      else jump = true ∧ pC'.pCursor = pC.pCursor := by
  have hg := (good_open hw).run hrun
  have hU : (0 : ℤ) < 2 ^ 1074 := pow_pos zero_lt_two _
  rw [opSeek, ← hm, seekValue]
  cases hint : m.int with
  | true =>
    have hkey : sqlite3VdbeIntValue m = m.i := by rw [sqlite3VdbeIntValue, if_pos hint]
    have hvalue : value m = m.i * 2 ^ 1074 := by rw [value, if_pos hint]
    obtain ⟨jump, pC', hseek, hjump, hlands⟩ :=
      @seekKey_lands root s { pC with nullRow := false, rowidIsValid := false } hg hf hskip hcur oc m.i
    refine ⟨jump, pC', ?_, ?_⟩
    · rw [if_pos rfl, hkey]
      exact hseek
    · rw [if_pos (.inl rfl), hvalue]
      exact (hlands.congr fun x _ => (holds_scale hU oc x m.i).symm).of_jump hjump
  | false =>
    cases hreal : m.real with
    | false => exact ⟨true, _, rfl, rfl, rfl⟩
    | true =>
      have hkey : sqlite3VdbeIntValue m = doubleToInt64 m.r := by
        rw [sqlite3VdbeIntValue, if_neg (by simp [hint]), if_pos hreal]
      have hvalue : value m = Binary64.units m.r := by rw [value, if_neg (by simp [hint])]
      have hlarge := tooLarge_iff (hnan hreal)
      rw [if_neg (by simp), if_neg (by simp), hkey]
      by_cases hout : tooLarge (doubleToInt64 m.r) m.r = true
      · have hnot : 2 ^ 63 * 2 ^ 1074 ≤ Binary64.units m.r → oc.up = false →
            ¬(s.cur.eState = CURSOR_VALID ∧ s.cur.atLast = true) :=
          fun hge hup h => hlast ⟨hint, hge, hup, h.1, h.2⟩
        obtain ⟨res, c', hend, hentry, hlands⟩ :=
          seekEnd_lands hg hf hrows (hnan hreal) (hlarge.mp hout) hnot
        rw [if_pos hout, hcur, hend, pure_bind]
        refine ⟨_, _, rfl, ?_⟩
        rw [if_pos (.inr rfl), hvalue]
        refine ⟨fun hjump => hentry (not_not.mp (of_decide_eq_false hjump)), ?_⟩
        simpa only [decide_eq_true_eq] using hlands
      · have hin := mt hlarge.mpr hout
        rw [not_or, not_lt, not_le] at hin
        have htrunc := ((doubleToInt64_eq m.r).resolve_left
          fun h => h.1.elim (not_lt.mpr hin.1) (not_le.mpr hin.2)).2.2
        obtain ⟨jump, pC', hseek, hjump, hlands⟩ :=
          @seekKey_lands root s { pC with nullRow := false, rowidIsValid := false } hg hf hskip hcur oc
            (roundKey oc (doubleToInt64 m.r) m.r)
        rw [if_neg hout]
        refine ⟨jump, pC', hseek, ?_⟩
        rw [if_pos (.inr rfl), hvalue]
        refine (hlands.congr fun x _ => ?_).of_jump hjump
        rw [htrunc]
        exact roundKey_holds (hnan hreal) hin.1 hin.2 oc x

def realMem (r : ℕ) : Mem := ⟨false, true, false, false, 0, r, [], .SQLITE_UTF8⟩

/-- A cursor of the program on a table, with nothing known of a row. -/
def cursorOn (c : BtCursor ℤ) : VdbeCursor := ⟨c, false, false, 0, false, true⟩

/-- The greatest rowid up to 4.5. -/
theorem opSeek_lands_real : ∃ jump pC', opSeek 0 (fun _ => 0) (tableOf [1, 5]) (cursorOn (btreeCursor 2 true))
      .OP_SeekLe (realMem 0x4012000000000000) = pure (jump, pC') ∧
    if (realMem 0x4012000000000000).int ∨ (realMem 0x4012000000000000).real then
      (jump = false → entryOf (tableOf [1, 5]) pC'.pCursor ≠ none) ∧
      Lands .OP_SeekLe (allEntries (tableOf [1, 5]) 2 0)
        (fun x => SeekOp.OP_SeekLe.Holds (x * 2 ^ 1074) (value (realMem 0x4012000000000000)))
        (if jump then none else entryOf (tableOf [1, 5]) pC'.pCursor)
    else jump = true ∧ pC'.pCursor = btreeCursor 2 true :=
  opSeek_lands 0 (fun _ => 0) (tableOf [1, 5]) 2 0 (tableOf_wellFormed (by decide))
    (openCursor (tableOf [1, 5]) 2 true 0) .start (by decide) rfl (by decide) (cursorOn (btreeCursor 2 true)) rfl
    .OP_SeekLe (realMem 0x4012000000000000) _ rfl (fun _ => by decide) fun h => absurd h.2.2.2.1 (by decide)

def blobMem : Mem := ⟨false, false, false, true, 0, 0, [97], .SQLITE_UTF8⟩

theorem exists_of_jump {x : Except Failure (Bool × VdbeCursor)} {jump : Bool}
    (h : x.toOption.map (·.1) = some jump) : ∃ pC', x = pure (jump, pC') := by
  cases x with
  | error e => exact absurd h (by simp [Except.toOption])
  | ok y =>
    obtain ⟨b, pC'⟩ := y
    obtain rfl : b = jump := Option.some.inj h
    exact ⟨pC', rfl⟩

/-- Every rowid comes before a blob, but `OP_SeekLe` finds none. The rowid 2^53+1 is equal to the real 2^53,
to which it is rounded, but `OP_SeekGt` finds it. A cursor that `sqlite3BtreeLast` has left at the last row
is not left there for the real 2^64. -/
theorem opSeek_differs :
    ((∃ pC', opSeek 0 (fun _ => 0) (tableOf [1]) (cursorOn (btreeCursor 2 true)) .OP_SeekLe blobMem =
        pure (true, pC')) ∧
      Record.sqlite3MemCompare Binary64.ofInt (fun _ _ _ => none) { int := true, i := 1 }
        { blob := true, z := [97], n := 1 } .SQLITE_UTF8 none < 0) ∧
    ((∃ pC', opSeek 0 (fun _ => 0) (tableOf [2 ^ 53 + 1]) (cursorOn (btreeCursor 2 true)) .OP_SeekGt
        (realMem (Binary64.ofInt (2 ^ 53))) = pure (false, pC')) ∧
      Record.sqlite3MemCompare Binary64.ofInt (fun _ _ _ => none) { int := true, i := 2 ^ 53 + 1 }
        { real := true, r := Binary64.ofInt (2 ^ 53) } .SQLITE_UTF8 none = 0) ∧
    (∃ c, sqlite3BtreeLast (tableOf [1]) (btreeCursor 2 true) = pure (some 0, c) ∧
        ∃ pC', opSeek 0 (fun _ => 0) (tableOf [1]) (cursorOn c) .OP_SeekLe
          (realMem (Binary64.ofInt (2 ^ 64))) = pure (true, pC')) ∧
      Record.sqlite3MemCompare Binary64.ofInt (fun _ _ _ => none) { int := true, i := 1 }
        { real := true, r := Binary64.ofInt (2 ^ 64) } .SQLITE_UTF8 none < 0 := by
  refine ⟨⟨⟨_, rfl⟩, by decide +kernel⟩, ⟨exists_of_jump (by decide +kernel), by decide +kernel⟩,
    ⟨_, rfl, exists_of_jump (by decide +kernel)⟩, by decide +kernel⟩

end Sqlite.Seek

import Mathlib.Tactic.IntervalCases
import Mathlib.Tactic.Ring
import Sqlite.Date.Model

/-! The Gregorian calendar, and what `computeJD`, `computeYMD` and `computeHMS` compute as integers. -/
namespace Sqlite.Date

def leap (Y : ℤ) : Prop := Y % 4 = 0 ∧ (Y % 100 ≠ 0 ∨ Y % 400 = 0)

instance (Y : ℤ) : Decidable (leap Y) := inferInstanceAs (Decidable (_ ∧ _))

def monthLength (Y M : ℤ) : ℤ :=
  if M = 2 then if leap Y then 29 else 28
  else if M = 4 ∨ M = 6 ∨ M = 9 ∨ M = 11 then 30 else 31

/-- A day of the years 0 to 9999. -/
structure Day where
  Y : ℤ
  M : ℤ
  D : ℤ
  year : 0 ≤ Y ∧ Y ≤ 9999
  month : 1 ≤ M ∧ M ≤ 12
  day : 1 ≤ D ∧ D ≤ monthLength Y M

/-- A time of a day in whole seconds. -/
structure Time where
  h : ℤ
  m : ℤ
  s : ℤ
  hour : 0 ≤ h ∧ h < 24
  minute : 0 ≤ m ∧ m < 60
  second : 0 ≤ s ∧ s < 60

/-- The second day is the one after the first. -/
def Day.Follows (d e : Day) : Prop :=
  if d.D < monthLength d.Y d.M then e.Y = d.Y ∧ e.M = d.M ∧ e.D = d.D + 1
  else e.D = 1 ∧ if d.M < 12 then e.Y = d.Y ∧ e.M = d.M + 1 else e.Y = d.Y + 1 ∧ e.M = 1

/-- The number of the month, over all years. -/
def Day.monthNumber (d : Day) : ℤ := 12 * d.Y + d.M

def Time.milliseconds (t : Time) : ℤ := t.h * 3600000 + t.m * 60000 + t.s * 1000

theorem Time.milliseconds_lt (t : Time) : 0 ≤ t.milliseconds ∧ t.milliseconds < 86400000 := by
  have := t.hour
  have := t.minute
  have := t.second
  unfold Time.milliseconds
  omega

theorem monthLength_le (Y M : ℤ) : 28 ≤ monthLength Y M ∧ monthLength Y M ≤ 31 := by
  unfold monthLength
  split_ifs <;> omega

/-! Arithmetic of C. -/

theorem int_of_fits {x : ℤ} (h : -2 ^ 31 ≤ x ∧ x < 2 ^ 31) : int x = some x := if_pos h

theorem i64_of_fits {x : ℤ} (h : -2 ^ 63 ≤ x ∧ x < 2 ^ 63) : i64 x = some x := if_pos h

theorem int_bind {α : Type} {x : ℤ} {f : ℤ → Option α} (h : -2 ^ 31 ≤ x ∧ x < 2 ^ 31) :
    (int x).bind f = f x := by rw [int_of_fits h]; rfl

theorem i64_bind {α : Type} {x : ℤ} {f : ℤ → Option α} (h : -2 ^ 63 ≤ x ∧ x < 2 ^ 63) :
    (i64 x).bind f = f x := by rw [i64_of_fits h]; rfl

theorem tdiv_eq (a b : ℤ) : a.tdiv b = if 0 ≤ a then a / b else -(-a / b) := by
  split_ifs with h
  · exact Int.tdiv_eq_ediv_of_nonneg h
  · rw [← neg_neg (a.tdiv b), ← Int.neg_tdiv, Int.tdiv_eq_ediv_of_nonneg (by omega)]

theorem trunc_intCast (x : ℤ) : trunc x = x := by simp [trunc]

theorem trunc_div (a : ℤ) (b : ℕ) (hb : 0 < b) : trunc ((a : ℚ) / b) = a.tdiv b := by
  have hb' : (0 : ℚ) < b := by exact_mod_cast hb
  have h0 : (0 : ℚ) ≤ a / b ↔ 0 ≤ a := by rw [le_div_iff₀ hb', zero_mul]; exact_mod_cast Iff.rfl
  simp only [trunc, h0, tdiv_eq, Rat.floor_intCast_div_natCast, Rat.ceil_intCast_div_natCast]

/-! Years from March on. -/

/-- A year in groups of 400, 100 and 4. -/
structure Cycle (y q s u v : ℤ) : Prop where
  eq : y = 400 * q + 100 * s + 4 * u + v
  hs : 0 ≤ s ∧ s < 4
  hu : 0 ≤ u ∧ u < 25
  hv : 0 ≤ v ∧ v < 4

theorem exists_cycle (y : ℤ) : ∃ q s u v, Cycle y q s u v :=
  ⟨y / 400, y % 400 / 100, y % 100 / 4, y % 4, by omega, by omega, by omega, by omega⟩

theorem Cycle.leap_succ {y q s u v : ℤ} (c : Cycle y q s u v) :
    leap (y + 1) ↔ v = 3 ∧ (u = 24 → s = 3) := by
  obtain ⟨rfl, _, _, _⟩ := c
  unfold leap
  constructor <;> intro <;> omega

/-- The number of days from March 1st of the year 0 to that of the year `y`. -/
def marchZero (y : ℤ) : ℤ := 365 * y + y / 4 - y / 100 + y / 400

theorem Cycle.marchZero_eq {y q s u v : ℤ} (c : Cycle y q s u v) :
    marchZero y = 146097 * q + 36524 * s + 1461 * u + 365 * v := by
  obtain ⟨rfl, _, _, _⟩ := c
  unfold marchZero
  omega

/-- The century of a day of the year `y`, which is the `k`-th from March on. -/
theorem century_eq {y k : ℤ} (hk : 0 ≤ k ∧ k ≤ 365) (hl : k = 365 → leap (y + 1)) :
    146097 * (y / 100) ≤ 4 * (marchZero y + k) + 3 ∧
      4 * (marchZero y + k) + 3 < 146097 * (y / 100 + 1) := by
  obtain ⟨q, s, u, v, c⟩ := exists_cycle y
  rw [c.leap_succ] at hl
  rw [c.marchZero_eq]
  obtain ⟨rfl, _, _, _⟩ := c
  have h100 : (400 * q + 100 * s + 4 * u + v) / 100 = 4 * q + s := by omega
  rw [h100]
  omega

/-- The number of leap days that the code leaves out. Both of its divisions truncate where they should
round down; the two errors cancel, but on the one day whose quotient is an integer. -/
theorem century_correction {y n : ℤ} (hy : -1 ≤ y) (h0 : -400 ≤ n)
    (hn : 146097 * (y / 100) ≤ 4 * n + 3 ∧ 4 * n + 3 < 146097 * (y / 100 + 1)) :
    (4 * (n + 1721120) - 7468865).tdiv 146097 -
        ((4 * (n + 1721120) - 7468865).tdiv 146097).tdiv 4 =
      y / 100 - y / 400 - 3 - if n = 109572 then 1 else 0 := by
  have h400 : y / 400 = y / 100 / 4 := by omega
  have hc : -1 ≤ y / 100 := by omega
  rw [h400]
  generalize y / 100 = c at *
  rcases lt_or_ge c 4 with h | h
  · have : c = -1 ∨ c = 0 ∨ c = 1 ∨ c = 2 ∨ c = 3 := by omega
    simp only [tdiv_eq]
    split_ifs <;> omega
  · simp only [tdiv_eq]
    split_ifs <;> omega

/-- The year that begins in March, and the month in it from 3 on. -/
def marchOf (Y M : ℤ) : ℤ × ℤ := if M ≤ 2 then (Y - 1, M + 12) else (Y, M)

/-- The day of a year that begins in March, from 123 on. -/
def dayOfYear (μ D : ℤ) : ℤ := (306001 * (μ + 1)).tdiv 10000 + D

theorem dayOfYear_bounds {Y M D : ℤ} (hM : 1 ≤ M ∧ M ≤ 12) (hD : 1 ≤ D ∧ D ≤ monthLength Y M) :
    123 ≤ dayOfYear (marchOf Y M).2 D ∧ dayOfYear (marchOf Y M).2 D ≤ 488 ∧
      (dayOfYear (marchOf Y M).2 D = 488 → leap ((marchOf Y M).1 + 1)) := by
  rcases eq_or_ne M 2 with rfl | h2
  · have hX : dayOfYear (marchOf Y 2).2 D = 459 + D := by simp [dayOfYear, marchOf, tdiv_eq]
    have hY : (marchOf Y 2).1 + 1 = Y := by simp [marchOf]
    rw [monthLength, if_pos rfl] at hD
    rw [hX, hY]
    split_ifs at hD with hl
    · exact ⟨by omega, by omega, fun _ => hl⟩
    · exact ⟨by omega, by omega, fun h => by omega⟩
  · have h31 := (monthLength_le Y M).2
    have hX : 123 ≤ dayOfYear (marchOf Y M).2 D ∧ dayOfYear (marchOf Y M).2 D ≤ 459 := by
      obtain ⟨h1, h12⟩ := hM
      simp only [tdiv_eq, dayOfYear, marchOf]
      interval_cases M <;> simp at h2 ⊢ <;> omega
    exact ⟨by omega, by omega, fun h => by omega⟩

/-- The month of a day of the year. -/
theorem dayOfYear_month {Y M D : ℤ} (hM : 1 ≤ M ∧ M ≤ 12) (hD : 1 ≤ D ∧ D ≤ monthLength Y M) :
    (10000 * dayOfYear (marchOf Y M).2 D).tdiv 306001 = (marchOf Y M).2 + 1 := by
  obtain ⟨h1, h12⟩ := hM
  have := (monthLength_le Y M).2
  unfold monthLength at hD
  simp only [tdiv_eq, dayOfYear, marchOf]
  interval_cases M <;> simp at hD ⊢ <;> omega

/-! The functions over integers. -/

/-- The number of the day before a month. -/
def dayZero (Y M : ℤ) : ℤ :=
  let (y, μ) := marchOf Y M
  (36525 * (y + 4716)).tdiv 100 + dayOfYear μ 0 + (2 - y.tdiv 100 + (y.tdiv 100).tdiv 4) - 1524

/-- The years for which `computeJD` stays within an `int`. -/
def Window (Y M : ℤ) : Prop := -63510 ≤ (marchOf Y M).1 ∧ (marchOf Y M).1 ≤ 54078

theorem julianDay_eq {Y M D : ℤ} (hy : Window Y M) (hM : -1000 ≤ M ∧ M ≤ 1000)
    (hD : -3000 ≤ D ∧ D ≤ 3000) :
    julianDay Y M D = some ((dayZero Y M + D) * 86400000 - 43200000) := by
  unfold Window at hy
  have hmarch : marchYear Y M = some (marchOf Y M) := by
    unfold marchYear marchOf at *
    split_ifs at hy ⊢
    · rw [int_of_fits (by omega), int_of_fits (by omega)]; rfl
    · rfl
  have hμ : -1000 ≤ (marchOf Y M).2 ∧ (marchOf Y M).2 ≤ 1014 := by
    unfold marchOf; split_ifs <;> simp <;> omega
  have hreal (t : ℤ) : trunc (((t : ℚ) - 1524.5) * 86400000) = t * 86400000 - 131716800000 := by
    rw [← trunc_intCast (t * 86400000 - 131716800000)]; congr 1; push_cast; ring
  rw [julianDay, hmarch, dayZero]
  generalize marchOf Y M = p at *
  obtain ⟨y, μ⟩ := p
  simp only [Option.bind_eq_bind, Option.bind_some, dayOfYear] at *
  have hA : -636 ≤ y.tdiv 100 ∧ y.tdiv 100 ≤ 540 := by rw [tdiv_eq]; split_ifs <;> omega
  have hA4 : -159 ≤ (y.tdiv 100).tdiv 4 ∧ (y.tdiv 100).tdiv 4 ≤ 135 := by
    rw [tdiv_eq (y.tdiv 100)]; split_ifs <;> omega
  have hX1 : -21475000 ≤ (36525 * (y + 4716)).tdiv 100 ∧ (36525 * (y + 4716)).tdiv 100 ≤ 21475000 := by
    rw [tdiv_eq]; split_ifs <;> omega
  have hX2 : -31000 ≤ (306001 * (μ + 1)).tdiv 10000 ∧ (306001 * (μ + 1)).tdiv 10000 ≤ 32000 := by
    rw [tdiv_eq]; split_ifs <;> omega
  simp (disch := omega) only [int_of_fits, i64_of_fits, Option.bind_some, hreal]
  congr 1
  omega

/-- The year, the month and the day of a day number. -/
def dateOf (Z : ℤ) : ℤ × ℤ × ℤ :=
  let A := (4 * Z - 7468865).tdiv 146097
  let B := Z + 1 + A - A.tdiv 4 + 1524
  let C := (20 * B - 2442).tdiv 7305
  let D := (36525 * C).tdiv 100
  let E := (10000 * (B - D)).tdiv 306001
  let M := if E < 14 then E - 1 else E - 13
  (if M > 2 then C - 4716 else C - 4715, M, B - D - (306001 * E).tdiv 10000)

/-- The Julian days for which `computeYMD` stays within an `int`. -/
def CalendarWindow (iJD : ℤ) : Prop := -1855508903999999 ≤ iJD ∧ iJD ≤ 1855273118399999

/-- The fields of a day within an `int`, for which `computeJD` stays within it as well. -/
structure Fields (Y M D : ℤ) : Prop where
  window : Window Y M
  month : -50 ≤ M ∧ M ≤ 50
  day : -3000 ≤ D ∧ D ≤ 3000

theorem calendarDay_spec {iJD : ℤ} (h : CalendarWindow iJD) :
    ∃ Y M D, dateOf ((iJD + 43200000).tdiv 86400000) = (Y, M, D) ∧ calendarDay iJD = some (Y, M, D) ∧
      Fields Y M D := by
  unfold CalendarWindow at h
  have hZ : -21475796 ≤ (iJD + 43200000).tdiv 86400000 ∧ (iJD + 43200000).tdiv 86400000 ≤ 21473068 := by
    rw [tdiv_eq]; split_ifs <;> omega
  have hrealA (Z : ℤ) : trunc (((Z : ℚ) - 1867216.25) / 36524.25) = (4 * Z - 7468865).tdiv 146097 := by
    rw [← Nat.cast_ofNat (n := 146097), ← trunc_div _ _ (by norm_num)]; congr 1; push_cast; ring
  have hrealC (B : ℤ) : trunc (((B : ℚ) - 122.1) / 365.25) = (20 * B - 2442).tdiv 7305 := by
    rw [← Nat.cast_ofNat (n := 7305), ← trunc_div _ _ (by norm_num)]; congr 1; push_cast; ring
  have hrealE (K : ℤ) : trunc ((K : ℚ) / 30.6001) = (10000 * K).tdiv 306001 := by
    rw [← Nat.cast_ofNat (n := 306001), ← trunc_div _ _ (by norm_num)]; congr 1; push_cast; ring
  have hrealX (E : ℤ) : trunc (30.6001 * (E : ℚ)) = (306001 * E).tdiv 10000 := by
    rw [← Nat.cast_ofNat (n := 10000), ← trunc_div _ _ (by norm_num)]; congr 1; push_cast; ring
  unfold calendarDay
  simp only [Option.bind_eq_bind, hrealA, hrealC, hrealE, hrealX]
  rw [i64_of_fits (by omega), Option.bind_some, int_of_fits (by omega), Option.bind_some]
  unfold dateOf
  generalize (iJD + 43200000).tdiv 86400000 = Z at *
  extract_lets A B C D E M
  have hA : -639 ≤ A ∧ A ≤ 536 := by simp only [A, tdiv_eq]; split_ifs <;> omega
  have hA4 : -480 ≤ A - A.tdiv 4 ∧ A - A.tdiv 4 ≤ 402 := by rw [tdiv_eq]; split_ifs <;> omega
  have hB : -21474751 ≤ B ∧ B ≤ 21474995 := by omega
  have hC : -58794 ≤ C ∧ C ≤ 58794 := by simp only [C, tdiv_eq]; split_ifs <;> omega
  have hD : -21474508 ≤ D ∧ D ≤ 21474508 := by simp only [D, tdiv_eq]; split_ifs <;> omega
  have hK : -1000 ≤ B - D ∧ B - D ≤ 1000 := by
    simp only [D, C, tdiv_eq]
    split_ifs <;> omega
  have hE : -34 ≤ E ∧ E ≤ 34 := by simp only [E, tdiv_eq]; split_ifs <;> omega
  have hX : -1041 ≤ (306001 * E).tdiv 10000 ∧ (306001 * E).tdiv 10000 ≤ 1041 := by
    rw [tdiv_eq]; split_ifs <;> omega
  have hM : -35 ≤ M ∧ M ≤ 33 := by simp only [M]; split_ifs <;> omega
  refine ⟨_, _, _, rfl, ?_, ⟨?_, by omega, by omega⟩⟩
  · rw [show (4 * Z - 7468865).tdiv 146097 = A from rfl, int_bind (by omega), int_bind (by omega),
      int_bind (by omega), int_bind (by omega), show Z + 1 + A - A.tdiv 4 + 1524 = B from rfl,
      int_bind (by omega), show (20 * B - 2442).tdiv 7305 = C from rfl, int_bind (by omega),
      int_bind (by omega), show (36525 * C).tdiv 100 = D from rfl, int_bind (by omega),
      show (10000 * (B - D)).tdiv 306001 = E from rfl, int_bind (by omega), int_bind (by omega),
      int_bind (by omega), int_bind (by omega),
      show (if E < 14 then E - 1 else E - 13) = M from rfl, int_bind (by omega),
      int_bind (by split_ifs <;> omega)]
    rfl
  · unfold Window marchOf
    split_ifs <;> simp <;> omega

theorem calendarDay_eq {iJD : ℤ} (h : CalendarWindow iJD) :
    calendarDay iJD = some (dateOf ((iJD + 43200000).tdiv 86400000)) := by
  obtain ⟨Y, M, D, hd, hc, -⟩ := calendarDay_spec h
  rw [hc, hd]

/-- The number of a day, from its year and its day of the year. -/
theorem dayZero_add {Y M D : ℤ} (hy : -1 ≤ (marchOf Y M).1) :
    dayZero Y M + D = marchZero (marchOf Y M).1 + (dayOfYear (marchOf Y M).2 D - 123) + 1721120 := by
  unfold dayZero
  generalize marchOf Y M = p at *
  obtain ⟨y, μ⟩ := p
  have hA : y.tdiv 100 - (y.tdiv 100).tdiv 4 = y / 100 - y / 400 := by
    rcases eq_or_lt_of_le hy with rfl | h
    · rfl
    · rw [Int.tdiv_eq_ediv_of_nonneg (by omega), Int.tdiv_eq_ediv_of_nonneg (by omega)]; omega
  simp only [marchZero, dayOfYear] at *
  rw [Int.tdiv_eq_ediv_of_nonneg (by omega)]
  omega

/-- The first day of March of the year 300 is the only one of its number. -/
theorem marchZero_eq_iff {y k : ℤ} (hk : 0 ≤ k ∧ k ≤ 365) (hl : k = 365 → leap (y + 1)) :
    marchZero y + k = 109572 ↔ y = 300 ∧ k = 0 := by
  obtain ⟨q, s, u, v, c⟩ := exists_cycle y
  rw [c.leap_succ] at hl
  rw [c.marchZero_eq]
  obtain ⟨rfl, _, _, _⟩ := c
  constructor
  · intro h
    have hq : q = 0 := by omega
    have hs : s = 2 ∨ s = 3 := by omega
    rcases hs with rfl | rfl
    · have hu : u = 24 := by omega
      omega
    · omega
  · intro
    omega

theorem eq_of_dayOfYear {Y M D : ℤ} (hM : 1 ≤ M ∧ M ≤ 12) (hD : 1 ≤ D)
    (h : dayOfYear (marchOf Y M).2 D = 123) : M = 3 ∧ D = 1 := by
  obtain ⟨h1, h12⟩ := hM
  simp only [tdiv_eq, dayOfYear, marchOf] at h
  interval_cases M <;> simp at h ⊢ <;> omega

/-- The year of a day, from the number of the day with the leap days of the centuries put back. -/
theorem yearIndex_eq {y k : ℤ} (hy : -1 ≤ y) (hk : 123 ≤ k ∧ k ≤ 488) (hl : k = 488 → leap (y + 1)) :
    (20 * ((36525 * (y + 4716)).tdiv 100 + k) - 2442).tdiv 7305 = y + 4716 := by
  have h0 : 0 ≤ 36525 * (y + 4716) := by omega
  rw [Int.tdiv_eq_ediv_of_nonneg h0, Int.tdiv_eq_ediv_of_nonneg (by omega)]
  unfold leap at hl
  omega

/-- Every day is read back from its number, but March 1st of the year 300. -/
theorem dateOf_dayZero (d : Day) :
    dateOf (dayZero d.Y d.M + d.D) =
      if d.Y = 300 ∧ d.M = 3 ∧ d.D = 1 then (300, 2, 29) else (d.Y, d.M, d.D) := by
  split_ifs with h300
  · rw [h300.1, h300.2.1, h300.2.2]; decide
  have hy : -1 ≤ (marchOf d.Y d.M).1 := by
    have := d.year; unfold marchOf; split_ifs <;> simp <;> omega
  obtain ⟨h123, h488, hleap⟩ := dayOfYear_bounds d.month d.day
  have hE := dayOfYear_month d.month d.day
  have hn : marchZero (marchOf d.Y d.M).1 + (dayOfYear (marchOf d.Y d.M).2 d.D - 123) ≠ 109572 := by
    rw [Ne, marchZero_eq_iff (by omega) (fun h => hleap (by omega))]
    rintro ⟨hY, hk⟩
    obtain ⟨hM, hD⟩ := eq_of_dayOfYear (Y := d.Y) d.month d.day.1 (by omega)
    have hY : d.Y = 300 := by simpa [marchOf, hM] using hY
    exact h300 ⟨hY, hM, hD⟩
  have hZ := dayZero_add (D := d.D) hy
  have hk : 0 ≤ dayOfYear (marchOf d.Y d.M).2 d.D - 123 ∧ dayOfYear (marchOf d.Y d.M).2 d.D - 123 ≤ 365 := by
    omega
  have hn0 : -400 ≤ marchZero (marchOf d.Y d.M).1 := by unfold marchZero; omega
  have hc := century_correction hy (by omega) (century_eq hk (fun h => hleap (by omega)))
  rw [if_neg hn, ← hZ] at hc
  unfold dateOf
  extract_lets A B C D E M
  have hB : B = (36525 * ((marchOf d.Y d.M).1 + 4716)).tdiv 100 + dayOfYear (marchOf d.Y d.M).2 d.D := by
    have h0 : 0 ≤ 36525 * ((marchOf d.Y d.M).1 + 4716) := by omega
    have hA : A - A.tdiv 4 = (marchOf d.Y d.M).1 / 100 - (marchOf d.Y d.M).1 / 400 - 3 - 0 := hc
    unfold marchZero at hZ
    rw [Int.tdiv_eq_ediv_of_nonneg h0]
    omega
  have hC : C = (marchOf d.Y d.M).1 + 4716 := by
    simp only [C, hB, yearIndex_eq hy ⟨h123, h488⟩ hleap]
  have hD : B - D = dayOfYear (marchOf d.Y d.M).2 d.D := by simp only [D, hC, hB]; omega
  have hE : E = (marchOf d.Y d.M).2 + 1 := by simp only [E, hD, hE]
  have hM : M = d.M := by
    have := d.month
    simp only [M, hE, marchOf]
    split_ifs <;> simp at * <;> omega
  rw [hD, hM, hC, hE, dayOfYear, marchOf]
  split_ifs <;> simp <;> omega

theorem clockTime_eq {iJD : ℤ} {t : Time} (h : -43200000 ≤ iJD ∧ iJD < 2 ^ 62)
    (ht : (iJD + 43200000) % 86400000 = t.milliseconds) : clockTime iJD = some (t.h, t.m, (t.s : ℚ)) := by
  have := t.milliseconds_lt
  have := t.hour
  have := t.minute
  have := t.second
  unfold Time.milliseconds at *
  simp only [clockTime, Option.bind_eq_bind]
  rw [i64_bind (by omega), Int.tmod_eq_emod_of_nonneg (by omega), int_bind (by omega), ht]
  have hr : (((t.h * 3600000 + t.m * 60000 + t.s * 1000 : ℤ) : ℚ) / 1000) =
      ((t.h * 3600 + t.m * 60 + t.s : ℤ) : ℚ) := by push_cast; ring
  have hh : (t.h * 3600 + t.m * 60 + t.s).tdiv 3600 = t.h := by rw [tdiv_eq]; split_ifs <;> omega
  have hm : (t.h * 3600 + t.m * 60 + t.s - t.h * 3600).tdiv 60 = t.m := by
    rw [tdiv_eq]; split_ifs <;> omega
  rw [hr, trunc_intCast, int_bind (by omega), hh, int_bind (by omega), int_bind (by omega), hm,
    int_bind (by omega), int_bind (by omega)]
  simp only [Option.pure_def, Option.some.injEq, Prod.mk.injEq, true_and]
  push_cast
  ring

end Sqlite.Date

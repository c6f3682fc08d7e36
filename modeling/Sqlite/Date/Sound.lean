import Sqlite.Date.Calendar
import Sqlite.Date.Text

/-! Dates and times through `computeJD`, `computeYMD_HMS` and the modifiers `NNN months` and `NNN years`. -/
namespace Sqlite.Date

/-- The fields of a day and a time. -/
def fields (d : Day) (t : Time) : DateTime :=
  { Y := d.Y, M := d.M, D := d.D, h := t.h, m := t.m, s := t.s, validYMD := true, validHMS := true }

/-- The Julian day of a day and a time, in milliseconds, as `computeJD` has it. -/
def jdOf (d : Day) (t : Time) : Option ℤ := (computeJD (fields d t)).map (·.iJD)

/-- The fields come back from the Julian day. -/
def RoundTrip (d : Day) (t : Time) : Prop :=
  ∃ p q, computeJD (fields d t) = some p ∧ computeYMD_HMS (clearYMD_HMS_TZ p) = some q ∧
    (q.Y, q.M, q.D) = (d.Y, d.M, d.D) ∧ (q.h, q.m, q.s) = (t.h, t.m, (t.s : ℚ))

/-- What is valid of `p` is of the day and the time, and determines them. -/
structure Shows (p : DateTime) (d : Day) (t : Time) : Prop where
  date : p.validYMD → (p.Y, p.M, p.D) = (d.Y, d.M, d.D)
  time : p.validHMS → (p.h, p.m, p.s) = (t.h, t.m, (t.s : ℚ))
  jd : p.validJD → jdOf d t = some p.iJD
  hasDate : p.validJD ∨ p.validYMD ∨ (d.Y, d.M, d.D) = (2000, 1, 1)
  hasTime : p.validJD ∨ p.validHMS ∨ (t.h, t.m, t.s) = (0, 0, 0)
  zone : p.validTZ = false

/-- March 1st of the year 300. -/
def Day.Misread (d : Day) : Prop := d.Y = 300 ∧ d.M = 3 ∧ d.D = 1

instance (d : Day) : Decidable d.Misread := inferInstanceAs (Decidable (_ ∧ _))

/-- The months of one unit. -/
def Unit.months : Unit → ℤ
  | month => 1
  | year => 12
  | _ => 0

/-- The modifier leads to the time `t` of the day that is `d.D - 1` days after `e`. -/
def Moves (osLocaltime : ℤ → Option Tm) (zMod : List UInt8) (p : DateTime) (d e : Day) (t : Time) : Prop :=
  ∃ q j, parseModifier osLocaltime zMod p = some (some q) ∧ q.validJD ∧ jdOf e t = some j ∧
    q.iJD = j + (d.D - 1) * 86400000

/-! The Julian day. -/

/-- The Julian day of a time in a day of the given number. -/
def instant (Z : ℤ) (t : Time) : ℤ := Z * 86400000 - 43200000 + t.milliseconds

theorem milliseconds_eq (t : Time) : milliseconds t.h t.m t.s = some t.milliseconds := by
  have := t.hour
  have := t.minute
  have := t.second
  have hs : trunc ((t.s : ℚ) * 1000) = t.s * 1000 := by
    rw [← trunc_intCast (t.s * 1000)]; congr 1; push_cast; ring
  simp only [milliseconds, Option.bind_eq_bind, hs]
  rw [int_bind (by omega), int_bind (by omega), int_bind (by omega), i64_bind (by omega),
    i64_of_fits (by omega)]
  rfl

theorem dayZero_bounds {Y M : ℤ} (hy : -1 ≤ (marchOf Y M).1 ∧ (marchOf Y M).1 ≤ 9999)
    (hM : 1 ≤ M ∧ M ≤ 12) : 1000000 ≤ dayZero Y M ∧ dayZero Y M ≤ 6000000 := by
  have h := dayZero_add (D := 0) hy.1
  have hX : 0 ≤ dayOfYear (marchOf Y M).2 0 ∧ dayOfYear (marchOf Y M).2 0 ≤ 1000 := by
    have hμ : 0 ≤ (marchOf Y M).2 ∧ (marchOf Y M).2 ≤ 14 := by unfold marchOf; split_ifs <;> simp <;> omega
    rw [dayOfYear, Int.tdiv_eq_ediv_of_nonneg (by omega)]
    omega
  unfold marchZero at h
  omega

theorem julianDay_month {Y M D : ℤ} (hy : -1 ≤ (marchOf Y M).1 ∧ (marchOf Y M).1 ≤ 9999)
    (hM : 1 ≤ M ∧ M ≤ 12) (hD : 1 ≤ D ∧ D ≤ 31) :
    julianDay Y M D = some ((dayZero Y M + D) * 86400000 - 43200000) :=
  julianDay_eq ⟨by omega, by omega⟩ (by omega) (by omega)

theorem Day.march (d : Day) : -1 ≤ (marchOf d.Y d.M).1 ∧ (marchOf d.Y d.M).1 ≤ 9999 := by
  have := d.year
  unfold marchOf
  split_ifs <;> simp <;> omega

/-- `computeJD` of a date with a time of the day, or with none at midnight. -/
theorem computeJD_eq {p : DateTime} {Z : ℤ} {t : Time} (hjd : p.validJD = false) (hz : p.validTZ = false)
    (hd : dateJD p = some (Z * 86400000 - 43200000)) (hZ : 0 ≤ Z ∧ Z ≤ 10000000)
    (ht : p.validHMS → (p.h, p.m, p.s) = (t.h, t.m, (t.s : ℚ)))
    (h0 : p.validHMS ∨ (t.h, t.m, t.s) = (0, 0, 0)) :
    computeJD p = some { p with iJD := instant Z t, validJD := true } := by
  have := t.milliseconds_lt
  simp only [computeJD, hjd, Option.bind_eq_bind, hd, Option.bind_some, addClock]
  cases hv : p.validHMS with
  | true =>
    have ht := ht hv
    simp only [Prod.mk.injEq] at ht
    simp only [ht.1, ht.2.1, ht.2.2, milliseconds_eq, Option.bind_some]
    rw [if_pos trivial, i64_bind (by omega)]
    simp [instant, hz]
  | false =>
    have h0 : t.milliseconds = 0 := by
      simp only [hv, Bool.false_eq_true, false_or, Prod.mk.injEq] at h0
      simp [Time.milliseconds, h0.1, h0.2.1, h0.2.2]
    simp [instant, h0]

/-- The number of a day. -/
def Day.number (d : Day) : ℤ := dayZero d.Y d.M + d.D

theorem Day.day_le (d : Day) : d.D ≤ 31 := d.day.2.trans (monthLength_le _ _).2

theorem Day.number_bounds (d : Day) : 1000000 ≤ d.number ∧ d.number ≤ 7000000 := by
  have := dayZero_bounds d.march d.month
  have := d.day.1
  have := d.day_le
  unfold Day.number
  omega

theorem Day.julianDay_eq (d : Day) : julianDay d.Y d.M d.D = some (d.number * 86400000 - 43200000) :=
  julianDay_month d.march d.month ⟨d.day.1, d.day_le⟩

theorem jdOf_eq (d : Day) (t : Time) : jdOf d t = some (instant d.number t) := by
  have hb := d.number_bounds
  have hd : dateJD (fields d t) = some (d.number * 86400000 - 43200000) := d.julianDay_eq
  rw [jdOf, computeJD_eq rfl rfl hd (by omega) (fun _ => rfl) (.inl rfl)]
  rfl

/-- A day and a time are a Julian day once `computeJD` has run. -/
theorem Shows.computeJD {p : DateTime} {d : Day} {t : Time} (h : Shows p d t) :
    computeJD p = some { p with iJD := instant d.number t, validJD := true } := by
  have hb := d.number_bounds
  cases hjd : p.validJD with
  | true =>
    have hj := h.jd hjd
    rw [jdOf_eq, Option.some.injEq] at hj
    rw [Date.computeJD, if_pos hjd, hj, ← hjd]
  | false =>
    have hn : ¬ p.validJD := by simp [hjd]
    have hd : dateJD p = some (d.number * 86400000 - 43200000) := by
      have hdate := h.date
      have h2000 := h.hasDate.resolve_left hn
      rw [← d.julianDay_eq]
      unfold dateJD
      split_ifs with hv
      · obtain ⟨hY, hM, hD⟩ : p.Y = d.Y ∧ p.M = d.M ∧ p.D = d.D := by simpa using hdate hv
        rw [hY, hM, hD]
      · obtain ⟨hY, hM, hD⟩ : d.Y = 2000 ∧ d.M = 1 ∧ d.D = 1 := by simpa using h2000.resolve_left hv
        rw [hY, hM, hD]
    exact computeJD_eq hjd h.zone hd (by omega) h.time (h.hasTime.resolve_left hn)

/-! The fields. -/

theorem calendarDay_instant (d : Day) (t : Time) :
    calendarDay (instant d.number t) =
      some (if d.Misread then (300, 2, 29) else (d.Y, d.M, d.D)) := by
  have := d.number_bounds
  have := t.milliseconds_lt
  have hZ : (instant d.number t + 43200000).tdiv 86400000 = d.number := by
    unfold instant
    rw [Int.tdiv_eq_ediv_of_nonneg (by omega)]
    omega
  rw [calendarDay_eq (by unfold CalendarWindow instant; omega), hZ]
  exact congrArg some (dateOf_dayZero d)

theorem clockTime_instant (d : Day) (t : Time) :
    clockTime (instant d.number t) = some (t.h, t.m, (t.s : ℚ)) := by
  have := d.number_bounds
  have := t.milliseconds_lt
  exact clockTime_eq (by unfold instant; omega) (by unfold instant; omega)

/-- The date that `computeYMD` has for a day. -/
def readDate (p : DateTime) (d : Day) : ℤ × ℤ × ℤ :=
  if p.validYMD = false ∧ d.Misread then (300, 2, 29) else (d.Y, d.M, d.D)

theorem Shows.computeYMD_HMS {p : DateTime} {d : Day} {t : Time} (h : Shows p d t)
    (hjd : p.validJD) (hj : p.iJD = instant d.number t) :
    computeYMD_HMS p = some { p with
      Y := (readDate p d).1, M := (readDate p d).2.1, D := (readDate p d).2.2, validYMD := true,
      h := t.h, m := t.m, s := t.s, validHMS := true } := by
  have hymd : computeYMD p = some { p with
      Y := (readDate p d).1, M := (readDate p d).2.1, D := (readDate p d).2.2, validYMD := true } := by
    unfold computeYMD readDate
    cases hv : p.validYMD with
    | true =>
      have hd := h.date hv
      rw [if_pos rfl, if_neg (by simp), ← hd, ← hv]
    | false =>
      rw [if_neg (by simp), if_neg (by simp [hjd]), hj, calendarDay_instant]
      simp
  rw [Date.computeYMD_HMS, hymd]
  simp only [Option.bind_eq_bind, Option.bind_some, computeHMS]
  cases hv : p.validHMS with
  | true =>
    have ht : p.h = t.h ∧ p.m = t.m ∧ p.s = t.s := by simpa using h.time hv
    rw [if_pos rfl, ← ht.1, ← ht.2.1, ← ht.2.2]
  | false =>
    rw [if_neg (by simp), Date.computeJD, if_pos hjd]
    simp only [Option.bind_some, hj, clockTime_instant]
    rfl

/-- The fields of every day come back but those of the one that is misread. -/
theorem roundTrip_iff (d : Day) (t : Time) : RoundTrip d t ↔ ¬ d.Misread := by
  have hf : Shows (fields d t) d t :=
    ⟨fun _ => rfl, fun _ => rfl, fun h => by simp [fields] at h, .inr (.inl rfl), .inr (.inl rfl), rfl⟩
  have hp := hf.computeJD
  have hc : Shows (clearYMD_HMS_TZ { fields d t with iJD := instant d.number t, validJD := true }) d t :=
    ⟨fun h => by simp [clearYMD_HMS_TZ] at h, fun h => by simp [clearYMD_HMS_TZ] at h,
      fun _ => jdOf_eq d t, .inl rfl, .inl rfl, rfl⟩
  have hq := hc.computeYMD_HMS rfl rfl
  constructor
  · rintro ⟨p, q, hp', hq', hdate, -⟩ h
    rw [hp, Option.some.injEq] at hp'
    rw [← hp', hq, Option.some.injEq] at hq'
    rw [← hq'] at hdate
    simp [readDate, h, clearYMD_HMS_TZ, h.1, h.2.1] at hdate
  · intro h
    refine ⟨_, _, hp, hq, ?_, rfl⟩
    simp [readDate, h]

/-- A month ends where the next one begins. -/
theorem dayZero_succ {Y M Y' M' : ℤ} (hM : 1 ≤ M ∧ M ≤ 12) (hy : -1 ≤ (marchOf Y M).1)
    (h : if M < 12 then Y' = Y ∧ M' = M + 1 else Y' = Y + 1 ∧ M' = 1) :
    dayZero Y' M' = dayZero Y M + monthLength Y M := by
  have hy' : -1 ≤ (marchOf Y' M').1 := by
    unfold marchOf at *
    split_ifs at * <;> simp at * <;> omega
  have h0 := dayZero_add (D := 0) hy
  have h1 := dayZero_add (D := 0) hy'
  rw [add_zero] at h0 h1
  rw [h0, h1]
  obtain ⟨hM1, hM12⟩ := hM
  rcases eq_or_ne M 2 with rfl | h2
  · obtain ⟨rfl, rfl⟩ := h
    simp only [marchOf, dayOfYear, monthLength, marchZero, leap, tdiv_eq]
    simp
    split_ifs <;> omega
  · unfold marchOf dayOfYear monthLength
    simp only [tdiv_eq]
    interval_cases M <;> simp at h h2 ⊢ <;> simp [h] <;> omega

theorem Day.Follows.number_eq {d e : Day} (h : d.Follows e) : e.number = d.number + 1 := by
  have hd := d.day
  unfold Day.Follows at h
  unfold Day.number
  split_ifs at h with hl h12
  · rw [h.1, h.2.1, h.2.2]; ring
  · rw [h.1, dayZero_succ d.month d.march.1 (by rw [if_pos h12]; exact h.2)]
    omega
  · rw [h.1, dayZero_succ d.month d.march.1 (by rw [if_neg h12]; exact h.2)]
    omega

/-- Consecutive days are 86400000 milliseconds apart. -/
theorem Day.Follows.jdOf_eq {d e : Day} (h : d.Follows e) (t : Time) :
    ∃ j, jdOf d t = some j ∧ jdOf e t = some (j + 86400000) := by
  refine ⟨_, Date.jdOf_eq d t, ?_⟩
  rw [Date.jdOf_eq, h.number_eq, instant, instant]
  congr 1
  ring

/-! Months and years. -/

theorem readDate_bounds (p : DateTime) (d : Day) :
    (d.monthNumber - 1 ≤ 12 * (readDate p d).1 + (readDate p d).2.1 ∧
      12 * (readDate p d).1 + (readDate p d).2.1 ≤ d.monthNumber) ∧
    (1 ≤ (readDate p d).2.1 ∧ (readDate p d).2.1 ≤ 12) ∧
    (1 ≤ (readDate p d).2.2 ∧ (readDate p d).2.2 ≤ 31) := by
  have := d.month
  have := d.day.1
  have := d.day_le
  unfold readDate Day.monthNumber
  split_ifs with h
  · obtain ⟨-, hY, hM, -⟩ := h
    rw [hY, hM]
    simp
  · exact ⟨⟨by simp, by simp⟩, by assumption, by assumption, by assumption⟩

theorem Day.monthNumber_bounds (d : Day) : 1 ≤ d.monthNumber ∧ d.monthNumber ≤ 120000 := by
  have := d.year
  have := d.month
  unfold Day.monthNumber
  omega

/-- `computeJD` of a date whose year and month have been set. -/
theorem computeJD_setMonth {p : DateTime} {Y M : ℤ} {t : Time} (hz : p.validTZ = false)
    (hv : p.validYMD = true) (ht : p.validHMS = true ∧ (p.h, p.m, p.s) = (t.h, t.m, (t.s : ℚ)))
    (hM : 1 ≤ M ∧ M ≤ 12) (hY : 0 ≤ 12 * Y + M ∧ 12 * Y + M ≤ 120000) (hD : 1 ≤ p.D ∧ p.D ≤ 31) :
    computeJD { p with Y, M, validJD := false } =
      some { p with Y, M, iJD := instant (dayZero Y M + p.D) t, validJD := true } := by
  have hy : -1 ≤ (marchOf Y M).1 ∧ (marchOf Y M).1 ≤ 9999 := by
    unfold marchOf; split_ifs <;> simp <;> omega
  have hb := dayZero_bounds hy hM
  have hd : dateJD { p with Y, M, validJD := false } =
      some ((dayZero Y M + p.D) * 86400000 - 43200000) := by
    rw [dateJD, if_pos hv]
    exact julianDay_month hy hM hD
  exact computeJD_eq rfl hz hd (by omega) (fun _ => ht.2) (.inl ht.1)

/-- Months are added to the date as `computeYMD` has it. -/
theorem addMonths_eq {p : DateTime} {d e : Day} {t : Time} {N : ℤ} (h : Shows p d t) (hjd : p.validJD)
    (hj : p.iJD = instant d.number t) (he : e.monthNumber = d.monthNumber + N) :
    ∃ Y M, (1 ≤ M ∧ M ≤ 12) ∧ 12 * Y + M = 12 * (readDate p d).1 + (readDate p d).2.1 + N ∧
      (addMonths p N).map (fun q => (q.validJD, q.iJD)) =
        some (true, instant (dayZero Y M + (readDate p d).2.2) t) := by
  obtain ⟨hr, hrM, hrD⟩ := readDate_bounds p d
  have hd := d.monthNumber_bounds
  have heb := e.monthNumber_bounds
  have hp := h.computeYMD_HMS hjd hj
  generalize readDate p d = r at *
  obtain ⟨Yr, Mr, Dr⟩ := r
  simp only at *
  let x := if Mr + N > 0 then (Mr + N - 1).tdiv 12 else (Mr + N - 12).tdiv 12
  have hx : x = (if Mr + N > 0 then Mr + N - 1 else Mr + N - 12).tdiv 12 := by
    simp only [x]; split_ifs <;> rfl
  have hM : 1 ≤ Mr + N - x * 12 ∧ Mr + N - x * 12 ≤ 12 := by
    simp only [x, tdiv_eq]; split_ifs <;> omega
  have hset := computeJD_setMonth (p := { p with
      Y := Yr, M := Mr, D := Dr, validYMD := true, h := t.h, m := t.m, s := t.s, validHMS := true })
    (Y := Yr + x) (t := t) h.zone rfl ⟨rfl, rfl⟩ hM (by omega) hrD
  refine ⟨Yr + x, Mr + N - x * 12, hM, by omega, ?_⟩
  simp only [addMonths, hp, trunc_intCast, Option.bind_eq_bind, Option.bind_some]
  rw [int_bind (by omega), int_bind (by omega), int_bind (by split_ifs <;> omega), ← hx,
    int_bind (by omega), int_bind (by omega), int_bind (by omega), hset]
  simp

/-- Years are added to the date as `computeYMD` has it. -/
theorem addYears_eq {p : DateTime} {d e : Day} {t : Time} {N : ℤ} (h : Shows p d t) (hjd : p.validJD)
    (hj : p.iJD = instant d.number t) (he : e.monthNumber = d.monthNumber + 12 * N) :
    ∃ Y M, (1 ≤ M ∧ M ≤ 12) ∧ 12 * Y + M = 12 * (readDate p d).1 + (readDate p d).2.1 + 12 * N ∧
      (addYears p N).map (fun q => (q.validJD, q.iJD)) =
        some (true, instant (dayZero Y M + (readDate p d).2.2) t) := by
  obtain ⟨hr, hrM, hrD⟩ := readDate_bounds p d
  have hd := d.monthNumber_bounds
  have heb := e.monthNumber_bounds
  have hp := h.computeYMD_HMS hjd hj
  generalize readDate p d = r at *
  obtain ⟨Yr, Mr, Dr⟩ := r
  simp only at *
  have hset := computeJD_setMonth (p := { p with
      Y := Yr, M := Mr, D := Dr, validYMD := true, h := t.h, m := t.m, s := t.s, validHMS := true })
    (Y := Yr + N) (t := t) h.zone rfl ⟨rfl, rfl⟩ hrM (by omega) hrD
  refine ⟨Yr + N, Mr, hrM, by omega, ?_⟩
  simp only [addYears, hp, trunc_intCast, Option.bind_eq_bind, Option.bind_some]
  rw [int_bind (by omega), int_bind (by omega), hset]
  simp

/-- The Julian day behind a modifier of months. -/
theorem parseModifier_months (osLocaltime : ℤ → Option Tm) {zMod : List UInt8} {p : DateTime} {d e : Day}
    {t : Time} {N : ℤ} {u : Unit} (h : Shows p d t) (hN : Asks zMod N u) (hu : u = .month ∨ u = .year)
    (he : e.monthNumber = d.monthNumber + u.months * N) :
    ∃ Y M, (1 ≤ M ∧ M ≤ 12) ∧
      12 * Y + M = 12 * (readDate p d).1 + (readDate p d).2.1 + u.months * N ∧
      ∃ q, parseModifier osLocaltime zMod p = some (some q) ∧ q.validJD = true ∧
        q.iJD = instant (dayZero Y M + (readDate p d).2.2) t := by
  obtain ⟨z, hz, hu'⟩ := hN
  have hp := h.computeJD
  have h1 : Shows { p with iJD := instant d.number t, validJD := true } d t :=
    ⟨h.date, h.time, fun _ => jdOf_eq d t, .inl rfl, .inl rfl, h.zone⟩
  rcases hu with rfl | rfl
  · simp only [Unit.months, one_mul] at he ⊢
    obtain ⟨Y, M, hM, hYM, hq⟩ := addMonths_eq h1 rfl rfl he
    obtain ⟨q, hq, hqe⟩ := Option.map_eq_some_iff.mp hq
    rw [Prod.mk.injEq] at hqe
    refine ⟨Y, M, hM, hYM, clearYMD_HMS_TZ q, ?_, hqe⟩
    simp [parseModifier, hz, applyModifier, addUnits, hp, hu', hq]
  · simp only [Unit.months] at he ⊢
    obtain ⟨Y, M, hM, hYM, hq⟩ := addYears_eq h1 rfl rfl he
    obtain ⟨q, hq, hqe⟩ := Option.map_eq_some_iff.mp hq
    rw [Prod.mk.injEq] at hqe
    refine ⟨Y, M, hM, hYM, clearYMD_HMS_TZ q, ?_, hqe⟩
    simp [parseModifier, hz, applyModifier, addUnits, hp, hu', hq]

/-- A modifier of months is right about every day that is not misread, and about the one that is, if the
month before the one it leads to has 28 days. -/
theorem moves_iff (osLocaltime : ℤ → Option Tm) {zMod : List UInt8} {p : DateTime} {d e : Day} {t : Time}
    {N : ℤ} {u : Unit} (h : Shows p d t) (hN : Asks zMod N u) (hu : u = .month ∨ u = .year)
    (he1 : e.D = 1) (he : e.monthNumber = d.monthNumber + u.months * N) :
    Moves osLocaltime zMod p d e t ↔
      p.validYMD = true ∨ ¬ d.Misread ∨ e.M = 3 ∧ ¬ leap e.Y := by
  obtain ⟨Y, M, hM, hYM, q, hq, hjd, hj⟩ := parseModifier_months osLocaltime h hN hu he
  have hmoves : Moves osLocaltime zMod p d e t ↔
      dayZero Y M + (readDate p d).2.2 = dayZero e.Y e.M + d.D := by
    constructor
    · rintro ⟨q', j, hq', -, hj', hqj⟩
      rw [hq, Option.some.injEq, Option.some.injEq] at hq'
      rw [jdOf_eq, Option.some.injEq] at hj'
      rw [← hq', hj, ← hj', Day.number, he1] at hqj
      unfold instant at hqj
      omega
    · intro hZ
      refine ⟨q, _, hq, hjd, jdOf_eq e t, ?_⟩
      rw [hj, Day.number, he1, hZ, instant, instant]
      ring
  have heM := e.month
  rw [hmoves]
  unfold Day.monthNumber at he
  by_cases hr : p.validYMD = false ∧ d.Misread
  · have hm := hr.2
    obtain ⟨hY3, hM3, hD1⟩ := hm
    rw [readDate, if_pos hr] at hYM ⊢
    simp only at hYM ⊢
    have hnext : if M < 12 then e.Y = Y ∧ e.M = M + 1 else e.Y = Y + 1 ∧ e.M = 1 := by
      split_ifs <;> omega
    have hy : -1 ≤ (marchOf Y M).1 := by
      have := e.year
      unfold marchOf
      split_ifs <;> simp <;> omega
    have h28 : e.M = 3 ∧ ¬ leap e.Y ↔ monthLength Y M = 28 := by
      rcases eq_or_ne M 2 with rfl | h2
      · obtain ⟨hY, hM⟩ := hnext
        rw [hY, hM, monthLength, if_pos rfl]
        split_ifs with hl <;> simp [hl]
      · have hM3 : e.M ≠ 3 := by omega
        rw [monthLength, if_neg h2]
        split_ifs <;> simp [hM3]
    have hm : ¬ (p.validYMD = true ∨ ¬ d.Misread) := by simp [hr]
    rw [← or_assoc, or_iff_right hm, h28, dayZero_succ hM hy hnext]
    omega
  · rw [readDate, if_neg hr] at hYM ⊢
    simp only at hYM ⊢
    have hY : Y = e.Y ∧ M = e.M := by constructor <;> omega
    rw [hY.1, hY.2]
    simp only [true_iff]
    rw [not_and_or, Bool.not_eq_false] at hr
    exact hr.imp_right .inl

/-- The calendar is right but for March 1st of the year 300: its fields do not come back from its Julian day,
and a modifier of months goes wrong that starts from its Julian day alone, unless it leads to a March of a
year that is no leap year. -/
theorem calendar_iff (osLocaltime : ℤ → Option Tm) :
    (∀ d t, RoundTrip d t ↔ ¬ d.Misread) ∧
    (∀ d e t, d.Follows e → ∃ j, jdOf d t = some j ∧ jdOf e t = some (j + 86400000)) ∧
    (∀ zMod p d e t N u, Shows p d t → Asks zMod N u → u = .month ∨ u = .year → e.D = 1 →
      e.monthNumber = d.monthNumber + u.months * N →
      (Moves osLocaltime zMod p d e t ↔ p.validYMD = true ∨ ¬ d.Misread ∨ e.M = 3 ∧ ¬ leap e.Y)) ∧
    (∀ N u, N.natAbs < 10 ^ 15 → Asks (modifierText N u) N u) :=
  ⟨roundTrip_iff, fun _ _ t h => h.jdOf_eq t,
    fun _ _ _ _ _ _ _ h hN hu he1 he => moves_iff osLocaltime h hN hu he1 he,
    fun _ u hN => modifierText_asks hN u⟩

theorem calendar_january :
    Moves (fun _ => none) (modifierText 1 .month)
      { Y := 2000, M := 1, D := 31, h := 12, validYMD := true, validHMS := true }
      ⟨2000, 1, 31, by decide, by decide, by decide⟩ ⟨2000, 2, 1, by decide, by decide, by decide⟩
      ⟨12, 0, 0, by decide, by decide, by decide⟩ :=
  ((calendar_iff fun _ => none).2.2.1 _ _ _ _ _ 1 .month
    ⟨fun _ => rfl, fun _ => rfl, fun h => by simp at h, .inr (.inl rfl), .inr (.inl rfl), rfl⟩
    ((calendar_iff fun _ => none).2.2.2 1 .month (by decide)) (.inl rfl) rfl (by decide)).mpr (.inl rfl)

theorem march300_misread :
    ¬ RoundTrip ⟨300, 3, 1, by decide, by decide, by decide⟩ ⟨0, 0, 0, by decide, by decide, by decide⟩ := by
  rw [roundTrip_iff]
  decide

end Sqlite.Date

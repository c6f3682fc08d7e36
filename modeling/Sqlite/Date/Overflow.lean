import Sqlite.Date.Calendar

/-! What the functions of the calendar need of a time not to overflow, and the times that a text and the modifiers
behind it lead to. -/
namespace Sqlite.Date

/-! The states that a text and the modifiers lead to. -/

def I32 (x : ℤ) : Prop := -2 ^ 31 ≤ x ∧ x < 2 ^ 31

def I64 (x : ℤ) : Prop := -2 ^ 63 ≤ x ∧ x < 2 ^ 63

/-- Small fields, as far as they are valid. -/
structure Small (p : DateTime) : Prop where
  date : p.validYMD → (-64000 ≤ p.Y ∧ p.Y ≤ 55000) ∧ (-50 ≤ p.M ∧ p.M ≤ 50) ∧ (-3000 ≤ p.D ∧ p.D ≤ 3000)
  time : p.validHMS → (-24 ≤ p.h ∧ p.h ≤ 24) ∧ (-59 ≤ p.m ∧ p.m ≤ 59) ∧ (-61 ≤ p.s ∧ p.s ≤ 61)
  zone : p.validTZ → p.validHMS ∧ -899 ≤ p.tz ∧ p.tz ≤ 899

/-- A time as modifiers get it. -/
structure Between (p : DateTime) : Prop extends Small p where
  julian : p.validJD → I64 p.iJD
  alone : p.validJD → p.validYMD = false ∧ p.validTZ = false
  whole : p.validYMD → p.validTZ = false

/-- The time of the day in milliseconds, less the time zone. -/
def clock (p : DateTime) : ℤ :=
  if p.validHMS then
    p.h * 3600000 + p.m * 60000 + trunc (p.s * 1000) - if p.validTZ then p.tz * 60000 else 0
  else 0

/-- The Julian day of a time, in milliseconds. -/
def julian (p : DateTime) : ℤ :=
  if p.validJD then p.iJD
  else (if p.validYMD then dayZero p.Y p.M + p.D else dayZero 2000 1 + 1) * 86400000 - 43200000 + clock p

def JDFits (p : DateTime) : Prop := p.validYMD → Window p.Y p.M

def CalendarFits (p : DateTime) : Prop := p.validJD → CalendarWindow p.iJD

/-- The year and the month that a time is in. -/
def monthOf (p : DateTime) : ℤ × ℤ :=
  if p.validYMD then (p.Y, p.M)
  else ((dateOf ((julian p + 43200000).tdiv 86400000)).1, (dateOf ((julian p + 43200000).tdiv 86400000)).2.1)

/-! Bounds. -/

theorem trunc_bounds {x : ℚ} {a b : ℤ} (ha : a ≤ 0) (hb : 0 ≤ b) (h : a ≤ x ∧ x ≤ b) :
    a ≤ trunc x ∧ trunc x ≤ b := by
  unfold trunc
  split_ifs with h0
  · exact ⟨ha.trans (Int.floor_nonneg.mpr h0), Int.cast_le.mp ((Int.floor_le x).trans h.2)⟩
  · exact ⟨Int.cast_le.mp (h.1.trans (Int.le_ceil x)), (Int.ceil_nonpos.mpr (not_le.mp h0).le).trans hb⟩

theorem round_bounds {s : ℚ} (h : -61 ≤ s ∧ s ≤ 61) : -61 ≤ trunc (s + 0.5) ∧ trunc (s + 0.5) ≤ 61 := by
  unfold trunc
  split_ifs with h0
  · have hlt : (⌊s + 0.5⌋ : ℚ) < 62 := by linarith [Int.floor_le (s + 0.5)]
    exact ⟨le_trans (by decide) (Int.floor_nonneg.mpr h0), Int.lt_add_one_iff.mp (by exact_mod_cast hlt)⟩
  · have hlt : (-62 : ℚ) < ⌈s + 0.5⌉ := by linarith [Int.le_ceil (s + 0.5)]
    exact ⟨Int.add_one_le_iff.mpr (by exact_mod_cast hlt),
      (Int.ceil_nonpos.mpr (not_le.mp h0).le).trans (by decide)⟩

theorem milliseconds_some {h m : ℤ} {s : ℚ} (hh : -24 ≤ h ∧ h ≤ 24) (hm : -59 ≤ m ∧ m ≤ 59)
    (hs : -61 ≤ s ∧ s ≤ 61) :
    milliseconds h m s = some (h * 3600000 + m * 60000 + trunc (s * 1000)) ∧
      -61000 ≤ trunc (s * 1000) ∧ trunc (s * 1000) ≤ 61000 := by
  have ht : -61000 ≤ trunc (s * 1000) ∧ trunc (s * 1000) ≤ 61000 :=
    trunc_bounds (by norm_num) (by norm_num) ⟨by push_cast; linarith, by push_cast; linarith⟩
  refine ⟨?_, ht⟩
  simp only [milliseconds, Option.bind_eq_bind]
  rw [int_bind (by omega), int_bind (by omega), int_bind (by omega), i64_bind (by omega),
    i64_of_fits (by omega)]

/-- The days before a month, but for a few days. -/
theorem dayZero_near (Y M : ℤ) :
    3652425 * (marchOf Y M).1 + 306001 * (marchOf Y M).2 + 17210200000 ≤ 10000 * dayZero Y M ∧
      10000 * dayZero Y M ≤ 3652425 * (marchOf Y M).1 + 306001 * (marchOf Y M).2 + 17210350000 := by
  unfold dayZero
  generalize marchOf Y M = p
  obtain ⟨y, μ⟩ := p
  have hA : 75 * y - 15000 ≤ 10000 * (y.tdiv 100 - (y.tdiv 100).tdiv 4) ∧
      10000 * (y.tdiv 100 - (y.tdiv 100).tdiv 4) ≤ 75 * y + 15000 := by
    rw [tdiv_eq (y.tdiv 100), tdiv_eq]; split_ifs <;> omega
  have hX1 : 36525 * (y + 4716) - 100 < 100 * (36525 * (y + 4716)).tdiv 100 ∧
      100 * (36525 * (y + 4716)).tdiv 100 < 36525 * (y + 4716) + 100 := by
    rw [tdiv_eq]; split_ifs <;> omega
  have hX2 : 306001 * (μ + 1) - 10000 < 10000 * (306001 * (μ + 1)).tdiv 10000 ∧
      10000 * (306001 * (μ + 1)).tdiv 10000 < 306001 * (μ + 1) + 10000 := by
    rw [tdiv_eq]; split_ifs <;> omega
  simp only [dayOfYear]
  omega
theorem dayZero_small {Y M : ℤ} (hy : Window Y M) (hM : -1000 ≤ M ∧ M ≤ 1000) :
    -21600000 ≤ dayZero Y M ∧ dayZero Y M ≤ 21600000 := by
  have := dayZero_near Y M
  unfold Window at hy
  unfold marchOf at *
  split_ifs at * <;> dsimp only at * <;> omega

/-! The functions of the calendar. -/

/-- A Julian day, in milliseconds, within five times that of the year 9999. -/
def Near (iJD : ℤ) : Prop := -2000000000000000 ≤ iJD ∧ iJD ≤ 2000000000000000

/-- `q` is `p` with its Julian day. -/
structure Computed (p q : DateTime) : Prop where
  small : Small q
  valid : q.validJD = true
  iJD : q.iJD = julian p
  zone : q.validTZ = false
  date : (q.validYMD, q.Y, q.M, q.D) = (p.validYMD, p.Y, p.M, p.D)

/-- A time that `computeYMD` handles. -/
structure Ready (p : DateTime) : Prop extends Small p where
  near : p.validJD → p.validYMD → Near p.iJD
  calendar : p.validJD → p.validYMD = false → CalendarWindow p.iJD

/-- The date that `computeYMD` gives. -/
def dateIn (p : DateTime) : ℤ × ℤ × ℤ :=
  if p.validYMD then (p.Y, p.M, p.D)
  else if p.validJD then dateOf ((p.iJD + 43200000).tdiv 86400000) else (2000, 1, 1)

theorem near_of_calendar {iJD : ℤ} (h : CalendarWindow iJD) : Near iJD := by
  unfold CalendarWindow at h
  unfold Near
  omega

theorem ready_of_between {p : DateTime} (hp : Between p) (hc : CalendarFits p) : Ready p where
  toSmall := hp.toSmall
  near h hv := by simp [(hp.alone h).1] at hv
  calendar h _ := hc h

theorem clock_bounds {p : DateTime} (hs : Small p) : -200000000 ≤ clock p ∧ clock p ≤ 200000000 := by
  unfold clock
  split_ifs with hh hz
  · have := milliseconds_some (hs.time hh).1 (hs.time hh).2.1 (hs.time hh).2.2
    have := hs.time hh
    have := hs.zone hz
    omega
  · have := milliseconds_some (hs.time hh).1 (hs.time hh).2.1 (hs.time hh).2.2
    have := hs.time hh
    omega
  · omega

theorem dateJD_some {p : DateTime} (hs : Small p) (hf : JDFits p) :
    dateJD p = some ((if p.validYMD then dayZero p.Y p.M + p.D else dayZero 2000 1 + 1) * 86400000 - 43200000) ∧
      -21610000 ≤ (if p.validYMD then dayZero p.Y p.M + p.D else dayZero 2000 1 + 1) ∧
      (if p.validYMD then dayZero p.Y p.M + p.D else dayZero 2000 1 + 1) ≤ 21610000 := by
  unfold dateJD
  split_ifs with hv
  · have hd := hs.date hv
    have := dayZero_small (hf hv) ⟨by omega, by omega⟩
    exact ⟨julianDay_eq (hf hv) ⟨by omega, by omega⟩ ⟨by omega, by omega⟩, by omega, by omega⟩
  · exact ⟨julianDay_eq ⟨by decide, by decide⟩ (by decide) (by decide), by decide, by decide⟩

theorem addClock_some {p : DateTime} (hs : Small p) (hn : Near p.iJD) :
    ∃ q, addClock p = some q ∧ q.iJD = p.iJD + clock p ∧ q.validJD = p.validJD ∧ Small q ∧
      q.validTZ = false ∧ (q.Y, q.M, q.D) = (p.Y, p.M, p.D) ∧
      q.validYMD = (p.validYMD && !p.validTZ) := by
  unfold Near at hn
  unfold addClock clock
  split_ifs with hh hz
  · obtain ⟨hms, hb⟩ := milliseconds_some (hs.time hh).1 (hs.time hh).2.1 (hs.time hh).2.2
    have := hs.time hh
    have := hs.zone hz
    simp only [Option.bind_eq_bind, hms, Option.bind_some]
    rw [i64_bind (by omega), int_bind (by omega), i64_bind (by omega)]
    exact ⟨_, rfl, by ring, rfl, ⟨by simp, by simp, by simp⟩, rfl, rfl, by simp [hz]⟩
  · obtain ⟨hms, hb⟩ := milliseconds_some (hs.time hh).1 (hs.time hh).2.1 (hs.time hh).2.2
    have := hs.time hh
    simp only [Option.bind_eq_bind, hms, Option.bind_some]
    rw [i64_bind (by omega)]
    exact ⟨_, rfl, by ring, rfl, ⟨hs.date, hs.time, hs.zone⟩, by simpa using hz, rfl, by simp [hz]⟩
  · have hz : p.validTZ = false := Bool.eq_false_iff.mpr fun hz => hh (hs.zone hz).1
    exact ⟨p, rfl, by ring, rfl, hs, hz, rfl, by simp [hz]⟩

/-- A time without a Julian day gets one that is near. With a time zone it loses its date. -/
theorem computeJD_near {p : DateTime} (hs : Small p) (hjd : p.validJD = false) (hf : JDFits p) :
    ∃ q, computeJD p = some q ∧ Near q.iJD ∧ Small q ∧ q.validJD = true ∧ q.iJD = julian p ∧
      q.validTZ = false ∧ (q.validYMD, q.Y, q.M, q.D) = (p.validYMD && !p.validTZ, p.Y, p.M, p.D) := by
  obtain ⟨hd, hb⟩ := dateJD_some hs hf
  have hc := clock_bounds hs
  have hj : julian p = (if p.validYMD then dayZero p.Y p.M + p.D else dayZero 2000 1 + 1) * 86400000 -
      43200000 + clock p := by rw [julian, if_neg (by simp [hjd])]
  generalize (if p.validYMD then dayZero p.Y p.M + p.D else dayZero 2000 1 + 1) = Z at *
  obtain ⟨q, hq, hqj, hqv, hqs, hqz, hqd, hqy⟩ := addClock_some
    (p := { p with iJD := Z * 86400000 - 43200000, validJD := true }) ⟨hs.date, hs.time, hs.zone⟩
    (by unfold Near; dsimp only; omega)
  have hqj' : q.iJD = julian p := by rw [hqj, hj]; rfl
  refine ⟨q, ?_, ?_, hqs, hqv, hqj', hqz, ?_⟩
  · simp [computeJD, hjd, hd, hq]
  · unfold Near
    rw [hqj', hj]
    omega
  · rw [Prod.mk.injEq]
    exact ⟨hqy, hqd⟩

theorem computeJD_some {p : DateTime} (hs : Small p) (hjd : p.validJD = false) (hf : JDFits p)
    (hw : p.validTZ = false ∨ p.validYMD = false) :
    ∃ q, computeJD p = some q ∧ Computed p q ∧ Near q.iJD := by
  obtain ⟨q, hq, hn, hqs, hqv, hqj, hqz, hqd⟩ := computeJD_near hs hjd hf
  refine ⟨q, hq, ⟨hqs, hqv, hqj, hqz, ?_⟩, hn⟩
  rw [hqd]
  rcases hw with h | h <;> simp [h]

theorem computeJD_between {p : DateTime} (hp : Between p) (hf : JDFits p) :
    ∃ q, computeJD p = some q ∧ Computed p q ∧ I64 q.iJD ∧ (p.validJD = false → Near q.iJD) := by
  cases hjd : p.validJD with
  | true =>
    refine ⟨p, by simp [computeJD, hjd], ⟨hp.toSmall, hjd, by simp [julian, hjd], (hp.alone hjd).2, rfl⟩,
      hp.julian hjd, fun h => by cases h⟩
  | false =>
    have hw : p.validTZ = false ∨ p.validYMD = false := by
      cases hv : p.validYMD with
      | true => exact .inl (hp.whole hv)
      | false => exact .inr rfl
    obtain ⟨q, hq, hc, hn⟩ := computeJD_some hp.toSmall hjd hf hw
    refine ⟨q, hq, hc, ?_, fun _ => hn⟩
    unfold Near at hn
    unfold I64
    omega

theorem clockTime_some {iJD : ℤ} (hn : Near iJD) : ∃ h m s, clockTime iJD = some (h, m, s) ∧
    (-24 ≤ h ∧ h ≤ 24) ∧ (-59 ≤ m ∧ m ≤ 59) ∧ (-61 ≤ s ∧ s ≤ 61) := by
  unfold Near at hn
  have ht : -86400000 < (iJD + 43200000).tmod 86400000 ∧ (iJD + 43200000).tmod 86400000 < 86400000 :=
    ⟨Int.lt_tmod_of_pos _ (by decide), Int.tmod_lt_of_pos _ (by decide)⟩
  simp only [clockTime, Option.bind_eq_bind]
  rw [i64_bind (by omega), int_bind (by omega)]
  generalize (iJD + 43200000).tmod 86400000 = t at *
  have hs : trunc ((t : ℚ) / 1000) = t.tdiv 1000 := by exact_mod_cast trunc_div t 1000 (by decide)
  have hs1 : -86400 < t.tdiv 1000 ∧ t.tdiv 1000 < 86400 ∧ -1000 < t - t.tdiv 1000 * 1000 ∧
      t - t.tdiv 1000 * 1000 < 1000 := by rw [tdiv_eq]; split_ifs <;> omega
  have hr : -1 < (t : ℚ) / 1000 - t.tdiv 1000 ∧ (t : ℚ) / 1000 - t.tdiv 1000 < 1 := by
    have h0 : (-1000 : ℚ) < t - t.tdiv 1000 * 1000 := by exact_mod_cast hs1.2.2.1
    have h1 : (t : ℚ) - t.tdiv 1000 * 1000 < 1000 := by exact_mod_cast hs1.2.2.2
    constructor <;> linarith
  rw [hs, int_bind (by omega)]
  generalize t.tdiv 1000 = s at *
  have hh : -24 ≤ s.tdiv 3600 ∧ s.tdiv 3600 ≤ 24 ∧ -3600 < s - s.tdiv 3600 * 3600 ∧
      s - s.tdiv 3600 * 3600 < 3600 := by rw [tdiv_eq]; split_ifs <;> omega
  rw [int_bind (by omega), int_bind (by omega)]
  generalize s - s.tdiv 3600 * 3600 = u at *
  have hm : -59 ≤ u.tdiv 60 ∧ u.tdiv 60 ≤ 59 ∧ -60 < u - u.tdiv 60 * 60 ∧ u - u.tdiv 60 * 60 < 60 := by
    rw [tdiv_eq]; split_ifs <;> omega
  rw [int_bind (by omega), int_bind (by omega)]
  generalize u - u.tdiv 60 * 60 = v at *
  have hv : (-60 : ℚ) < v ∧ (v : ℚ) < 60 := by exact_mod_cast hm.2.2
  exact ⟨_, _, _, rfl, ⟨by omega, by omega⟩, ⟨by omega, by omega⟩, by linarith, by linarith⟩

theorem computeYMD_some {p : DateTime} (hp : Ready p) : ∃ q, computeYMD p = some q ∧ Ready q ∧
    q.validYMD = true ∧ (q.Y, q.M, q.D) = dateIn p ∧ (JDFits p → JDFits q) ∧
    (q.validHMS, q.validJD, q.validTZ, q.iJD) = (p.validHMS, p.validJD, p.validTZ, p.iJD) := by
  unfold computeYMD dateIn
  cases hv : p.validYMD with
  | true => exact ⟨p, rfl, hp, hv, rfl, id, rfl⟩
  | false =>
    cases hj : p.validJD with
    | false =>
      have hw : Window 2000 1 := ⟨by decide, by decide⟩
      refine ⟨_, rfl, ⟨⟨fun _ => by dsimp only; omega, hp.time, hp.zone⟩, ?_, ?_⟩, rfl, rfl,
        fun _ _ => hw, rfl⟩
      · simp
      · simp
    | true =>
      obtain ⟨Y, M, D, hd, hc, hf⟩ := calendarDay_spec (hp.calendar hj hv)
      have hw := hf.window
      refine ⟨{ p with Y, M, D, validYMD := true }, by simp [hc, hj],
        ⟨⟨fun _ => ?_, hp.time, hp.zone⟩, ?_, ?_⟩, rfl,
        by simp [hd], fun _ _ => hw, by rw [hj]⟩
      · refine ⟨?_, hf.month, hf.day⟩
        unfold Window marchOf at hw
        split_ifs at hw <;> dsimp only at hw ⊢ <;> omega
      · exact fun _ _ => near_of_calendar (hp.calendar hj hv)
      · simp

theorem computeHMS_some {p : DateTime} (hp : Ready p) (hv : p.validYMD = true) (hf : JDFits p) :
    ∃ q, computeHMS p = some q ∧ Ready q ∧ q.validHMS = true ∧ q.validTZ = p.validTZ ∧
      (q.validYMD, q.Y, q.M, q.D) = (p.validYMD, p.Y, p.M, p.D) := by
  unfold computeHMS
  cases hh : p.validHMS with
  | true => exact ⟨p, rfl, hp, hh, rfl, rfl⟩
  | false =>
    have hz : p.validTZ = false := Bool.eq_false_iff.mpr fun hz => by simpa [hh] using (hp.zone hz).1
    obtain ⟨q, hq, hs, hn, hqz, hqd⟩ : ∃ q, computeJD p = some q ∧ Small q ∧ Near q.iJD ∧ q.validTZ = false ∧
        (q.validYMD, q.Y, q.M, q.D) = (p.validYMD, p.Y, p.M, p.D) := by
      cases hj : p.validJD with
      | true => exact ⟨p, by simp [computeJD, hj], hp.toSmall, hp.near hj hv, hz, rfl⟩
      | false =>
        obtain ⟨q, hq, hc, hn⟩ := computeJD_some hp.toSmall hj hf (.inl hz)
        exact ⟨q, hq, hc.small, hn, hc.zone, hc.date⟩
    obtain ⟨h, m, s, ht, hb⟩ := clockTime_some hn
    have hqv : q.validYMD = true := (congrArg Prod.fst hqd).trans hv
    refine ⟨{ q with h, m, s, validHMS := true }, by simp [hq, ht],
      ⟨⟨hs.date, fun _ => hb, ?_⟩, fun _ _ => hn, ?_⟩,
      rfl, by rw [hqz, hz], hqd⟩
    · simp [hqz]
    · simp [hqv]

theorem computeYMD_HMS_some {p : DateTime} (hp : Ready p) (hf : JDFits p) :
    ∃ q, computeYMD_HMS p = some q ∧ Ready q ∧ q.validHMS = true ∧ q.validTZ = p.validTZ ∧ JDFits q ∧
      (q.validYMD, q.Y, q.M, q.D) = (true, dateIn p) := by
  obtain ⟨q, hq, hqr, hqv, hqd, hqf, hqe⟩ := computeYMD_some hp
  obtain ⟨x, hx, hxr, hxh, hxz, hxd⟩ := computeHMS_some hqr hqv (hqf hf)
  simp only [Prod.mk.injEq] at hqe hxd
  refine ⟨x, by simp [computeYMD_HMS, hq, hx], hxr, hxh, by rw [hxz, hqe.2.2.1], ?_, ?_⟩
  · intro _
    rw [hxd.2.1, hxd.2.2.1]
    exact hqf hf hqv
  · rw [hxd.1, hxd.2.1, hxd.2.2.1, hxd.2.2.2, hqv, hqd]

/-- A time with its Julian day is ready for the calendar, where the one without was. -/
theorem computeJD_ready {p : DateTime} (hp : Between p) (hf : JDFits p) (hc : CalendarFits p) :
    ∃ q, computeJD p = some q ∧ Computed p q ∧ Ready q ∧ JDFits q ∧ Near q.iJD := by
  obtain ⟨q, hq, hcq, -, hn⟩ := computeJD_between hp hf
  have hd := hcq.date
  simp only [Prod.mk.injEq] at hd
  have hnear : Near q.iJD := by
    cases hj : p.validJD with
    | true => rw [hcq.iJD, julian, if_pos hj]; exact near_of_calendar (hc hj)
    | false => exact hn hj
  refine ⟨q, hq, hcq, ⟨hcq.small, fun _ _ => hnear, fun _ hv => ?_⟩, fun hv => ?_, hnear⟩
  · rw [hcq.iJD, julian]
    split_ifs with hj hy
    · exact hc hj
    · rw [← hd.1, hv] at hy
      cases hy
    · have := clock_bounds hp.toSmall
      have h2000 : dayZero 2000 1 = 2451544 := by decide
      unfold CalendarWindow
      omega
  · rw [hd.2.1, hd.2.2.1]
    exact hf (hd.1 ▸ hv)

theorem dateIn_computed {p q : DateTime} (h : Computed p q) :
    ((dateIn q).1, (dateIn q).2.1) = monthOf p := by
  have hd := h.date
  simp only [Prod.mk.injEq] at hd
  unfold dateIn monthOf
  rw [hd.1, hd.2.1, hd.2.2.1, h.valid, h.iJD]
  split_ifs with _ hj
  · rfl
  · rfl
  · exact absurd rfl hj

end Sqlite.Date

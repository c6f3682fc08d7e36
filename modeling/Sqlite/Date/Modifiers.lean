import Mathlib
import Sqlite.Date.Overflow
import Sqlite.Date.Text

/-! Overflows in `parseModifier`: what each modifier needs of the time that it changes, and that a sequence of
modifiers that have it computes without overflow. -/
namespace Sqlite.Date

open Numeric (ch sqlite3Isdigit)

/-! What the modifiers need. -/

/-- The milliseconds of a unit of fixed length. -/
def Unit.length : Unit → ℚ
  | day => 86400000
  | hour => 86400000 / 24
  | minute => 86400000 / (24 * 60)
  | second => 86400000 / (24 * 60 * 60)
  | _ => 0

/-- What is added to the Julian day for `NNN units`. -/
def UnitFits (p : DateTime) (r : ℚ) : Unit → Prop
  | .month => CalendarFits p ∧
      -762117 ≤ 12 * (monthOf p).1 + (monthOf p).2 + trunc r ∧
        12 * (monthOf p).1 + (monthOf p).2 + trunc r ≤ 648950
  | .year => CalendarFits p ∧ I32 (trunc r) ∧ Window ((monthOf p).1 + trunc r) (monthOf p).2
  | u => I64 (trunc (r * u.length + rounder r)) ∧ I64 (julian p + trunc (r * u.length + rounder r))

/-- The text of a modifier `HH:MM:SS` behind its sign. -/
def clockText (z : List UInt8) : List UInt8 :=
  if (z.head?.map Numeric.sqlite3Isdigit).getD false then z else z.drop 1

/-- The milliseconds that a modifier `HH:MM:SS` adds. -/
def shift (z : List UInt8) (tx : DateTime) : ℤ :=
  (if z.head? = some (Numeric.ch '-') then -1 else 1) * (julian tx - 43200000).tmod 86400000

/-- The difference of local time on January 1st, 2000. -/
def zoneOf (t : Tm) : ℤ :=
  (dayZero (t.tm_year + 1900) (t.tm_mon + 1) + t.tm_mday) * 86400000 - 43200000 +
    (t.tm_hour * 3600000 + t.tm_min * 60000 + t.tm_sec * 1000) - 211813444800000

/-- The condition of one step. -/
def Fits (osLocaltime : ℤ → Option Tm) (p : DateTime) : Modifier → Prop
  | .localtime => JDFits p ∧ CalendarFits p
  | .unixepoch => p.validJD → p.iJD + 43200 < 2 ^ 63
  | .utc => JDFits p ∧ CalendarFits p ∧
      ∀ t, osLocaltime 946684800 = some t → CalendarWindow (julian p - zoneOf t)
  | .weekday r => I32 (trunc r) ∧ ((trunc r : ℚ) = r → 0 ≤ trunc r → r < 7 → JDFits p ∧ CalendarFits p)
  | .startOf _ => CalendarFits p
  | .addTime z => ∀ tx, parseHhMmSs (clockText z) {} = (false, tx) → JDFits p ∧ I64 (julian p + shift z tx)
  | .addUnits r z => JDFits p ∧ ∀ u, unitOf z = some u → UnitFits p r u

/-- What `localtime` gives: fields in their ranges, and for the times up to about three thousand years from
1970 a year up to about as far. -/
structure Localtime (osLocaltime : ℤ → Option Tm) : Prop where
  fields : ∀ t x, osLocaltime t = some x → (0 ≤ x.tm_mon ∧ x.tm_mon ≤ 11) ∧ (1 ≤ x.tm_mday ∧ x.tm_mday ≤ 31) ∧
    (0 ≤ x.tm_hour ∧ x.tm_hour ≤ 23) ∧ (0 ≤ x.tm_min ∧ x.tm_min ≤ 59) ∧ (0 ≤ x.tm_sec ∧ x.tm_sec ≤ 60)
  year : ∀ t x, osLocaltime t = some x → -100000000000 ≤ t → t ≤ 100000000000 →
    -5000 ≤ x.tm_year ∧ x.tm_year ≤ 5000

/-- `isDate` of a text and the modifiers behind it. -/
def run (osLocaltime : ℤ → Option Tm) : List (List UInt8) → DateTime → Option (Option DateTime)
  | [], p => some (some p)
  | zMod :: zs, p => do
    match ← parseModifier osLocaltime zMod p with
    | none => return none
    | some q => run osLocaltime zs q

def isDate (osLocaltime : ℤ → Option Tm) (now : Option ℤ) (z : List UInt8) (zs : List (List UInt8)) :
    Option (Option DateTime) := do
  let (fail, p) ← parseDateOrTime now z {}
  if fail then return none else run osLocaltime zs p

/-- Every modifier has what it needs in the state that it comes to. -/
def StepsFit (osLocaltime : ℤ → Option Tm) : DateTime → List (List UInt8) → Prop
  | _, [] => True
  | p, zMod :: zs => (∀ m, modifierOf zMod = some m → Fits osLocaltime p m) ∧
      ∀ q, parseModifier osLocaltime zMod p = some (some q) → StepsFit osLocaltime q zs

/-! The modifiers. -/

/-- The step does not overflow, and leads to a time if to any. -/
def Safe (x : Option (Option DateTime)) : Prop := ∃ r, x = some r ∧ ∀ q, r = some q → Between q

theorem safe_none : Safe (some none) := ⟨none, rfl, fun _ hq => absurd hq (Option.some_ne_none _).symm⟩

theorem safe_some {q : DateTime} (h : Between q) : Safe (some (some q)) :=
  ⟨some q, rfl, fun _ hq => Option.some.inj hq ▸ h⟩

theorem between_clear {p : DateTime} (h : I64 p.iJD) : Between (clearYMD_HMS_TZ p) where
  date := by simp [clearYMD_HMS_TZ]
  time := by simp [clearYMD_HMS_TZ]
  zone := by simp [clearYMD_HMS_TZ]
  julian := fun _ => h
  alone := by simp [clearYMD_HMS_TZ]
  whole := by simp [clearYMD_HMS_TZ]

theorem addReal_some {p : DateTime} {r x : ℚ} (hx : I64 (trunc (x + rounder r)))
    (h : I64 (p.iJD + trunc (x + rounder r))) :
    addReal p r x = some { p with iJD := p.iJD + trunc (x + rounder r) } := by
  simp only [addReal, Option.bind_eq_bind]
  rw [i64_bind hx, i64_bind h]
  rfl

/-- The fraction of a month or a year, in milliseconds. -/
theorem fraction_bounds {r x : ℚ} (hx : 0 ≤ x) (h : x ≤ 366 * 86400000) :
    -40000000000 ≤ trunc ((r - trunc r) * x + rounder r) ∧
      trunc ((r - trunc r) * x + rounder r) ≤ 40000000000 := by
  have hr : -1 ≤ r - trunc r ∧ r - trunc r ≤ 1 := by
    unfold trunc
    split_ifs with h0
    · exact ⟨by linarith [Int.floor_le r], by linarith [Int.lt_floor_add_one r]⟩
    · exact ⟨by linarith [Int.ceil_lt_add_one r], by linarith [Int.le_ceil r]⟩
  have hb : -0.5 ≤ rounder r ∧ rounder r ≤ 0.5 := by unfold rounder; split_ifs <;> norm_num
  have hlow : -1 * x ≤ (r - trunc r) * x := mul_le_mul_of_nonneg_right hr.1 hx
  have hhigh : (r - trunc r) * x ≤ 1 * x := mul_le_mul_of_nonneg_right hr.2 hx
  exact trunc_bounds (by norm_num) (by norm_num) ⟨by push_cast; linarith, by push_cast; linarith⟩

theorem addFraction_some {p : DateTime} {r x : ℚ} (hn : Near p.iJD) (hx : 0 ≤ x) (h : x ≤ 366 * 86400000) :
    ∃ q, (if (trunc r : ℚ) ≠ r then addReal p r ((r - trunc r) * x) else some p) = some q ∧ I64 q.iJD := by
  unfold Near at hn
  have hb := fraction_bounds (r := r) hx h
  split_ifs
  · rw [addReal_some (by unfold I64; omega) (by unfold I64; omega)]
    exact ⟨_, rfl, by unfold I64; dsimp only; omega⟩
  · exact ⟨p, rfl, by unfold I64; omega⟩

theorem addMonths_some {p q : DateTime} {r : ℚ} (h : Computed p q) (hr : Ready q) (hf : JDFits q)
    (hm : -762117 ≤ 12 * (monthOf p).1 + (monthOf p).2 + trunc r ∧
      12 * (monthOf p).1 + (monthOf p).2 + trunc r ≤ 648950) :
    ∃ x, addMonths q r = some x ∧ I64 x.iJD := by
  obtain ⟨x, hx, hxr, -, hxz, hxf, hxd⟩ := computeYMD_HMS_some hr hf
  have hv : x.validYMD = true := congrArg Prod.fst hxd
  have hd : (x.Y, x.M, x.D) = dateIn q := congrArg Prod.snd hxd
  rw [← dateIn_computed h, ← hd] at hm
  have hs := hxr.date hv
  have hw := hxf hv
  rw [h.zone] at hxz
  dsimp only at hm
  have hI : ∀ Y M, Window Y M → (1 ≤ M ∧ M ≤ 12) →
      ∃ z, computeJD { x with Y, M, validJD := false } = some z ∧ Near z.iJD := by
    intro Y M hw hM
    have hY : -64000 ≤ Y ∧ Y ≤ 55000 := by
      unfold Window marchOf at hw
      split_ifs at hw <;> dsimp only at hw <;> omega
    obtain ⟨z, hz, -, hn⟩ := computeJD_some (p := { x with Y, M, validJD := false })
      ⟨fun _ => ⟨hY, by dsimp only; omega, hs.2.2⟩, hxr.time, hxr.zone⟩ rfl (fun _ => hw) (.inl hxz)
    exact ⟨z, hz, hn⟩
  simp only [addMonths, Option.bind_eq_bind, hx, Option.bind_some]
  rw [int_bind (by omega), int_bind (by omega), int_bind (by split_ifs <;> omega)]
  generalize hk : (if x.M + trunc r > 0 then x.M + trunc r - 1 else x.M + trunc r - 12).tdiv 12 = k
  have hM : 1 ≤ x.M + trunc r - k * 12 ∧ x.M + trunc r - k * 12 ≤ 12 := by
    rw [← hk, tdiv_eq]
    split_ifs <;> omega
  rw [int_bind (by omega), int_bind (by omega), int_bind (by omega)]
  obtain ⟨z, hz, hn⟩ := hI (x.Y + k) (x.M + trunc r - k * 12)
    (by unfold Window marchOf; split_ifs <;> dsimp only <;> omega) hM
  rw [hz, Option.bind_some]
  have := addFraction_some (r := r) (x := 30 * 86400000) hn (by norm_num) (by norm_num)
  simpa only [mul_assoc, Option.pure_def] using this

theorem addYears_some {p q : DateTime} {r : ℚ} (h : Computed p q) (hr : Ready q) (hf : JDFits q)
    (hi : I32 (trunc r)) (hy : Window ((monthOf p).1 + trunc r) (monthOf p).2) :
    ∃ x, addYears q r = some x ∧ I64 x.iJD := by
  obtain ⟨x, hx, hxr, -, hxz, hxf, hxd⟩ := computeYMD_HMS_some hr hf
  have hv : x.validYMD = true := congrArg Prod.fst hxd
  have hd : (x.Y, x.M, x.D) = dateIn q := congrArg Prod.snd hxd
  rw [← dateIn_computed h, ← hd] at hy
  have hs := hxr.date hv
  rw [h.zone] at hxz
  dsimp only at hy
  have hY : -64000 ≤ x.Y + trunc r ∧ x.Y + trunc r ≤ 55000 := by
    unfold Window marchOf at hy
    split_ifs at hy <;> dsimp only at hy <;> omega
  obtain ⟨z, hz, -, hn⟩ := computeJD_some (p := { x with Y := x.Y + trunc r, validJD := false })
    ⟨fun _ => ⟨hY, hs.2⟩, hxr.time, hxr.zone⟩ rfl (fun _ => hy) (.inl hxz)
  unfold I32 at hi
  simp only [addYears, Option.bind_eq_bind]
  rw [int_bind (by omega), hx, Option.bind_some, int_bind (by omega), hz, Option.bind_some]
  have := addFraction_some (r := r) (x := 365 * 86400000) hn (by norm_num) (by norm_num)
  simpa only [mul_assoc, Option.pure_def] using this

theorem addUnits_safe {p : DateTime} {r : ℚ} {z : List UInt8} (hp : Between p) (hf : JDFits p)
    (hu : ∀ u, unitOf z = some u → UnitFits p r u) : Safe (addUnits p r z) := by
  obtain ⟨q, hq, hc, hj, -⟩ := computeJD_between hp hf
  simp only [addUnits, Option.bind_eq_bind, hq, Option.bind_some]
  cases hz : unitOf z with
  | none => exact safe_none
  | some u =>
    have hu := hu u hz
    have hreal {l : ℚ} (h : I64 (trunc (r * l + rounder r)) ∧ I64 (julian p + trunc (r * l + rounder r))) :
        ∃ x, addReal q r (r * l) = some x ∧ I64 x.iJD := by
      rw [← hc.iJD] at h
      exact ⟨_, addReal_some h.1 h.2, h.2⟩
    have hsafe {o : Option DateTime} (h : ∃ x, o = some x ∧ I64 x.iJD) :
        Safe (o.bind fun p => some (some (clearYMD_HMS_TZ p))) := by
      obtain ⟨x, rfl, hi⟩ := h
      exact safe_some (between_clear hi)
    have hready (hcal : CalendarFits p) : Ready q ∧ JDFits q := by
      obtain ⟨q', hq', -, hr, hf, -⟩ := computeJD_ready hp hf hcal
      rw [hq] at hq'
      cases hq'
      exact ⟨hr, hf⟩
    cases u with
    | day | hour | minute | second => exact hsafe (hreal hu)
    | month => exact hsafe (addMonths_some hc (hready hu.1).1 (hready hu.1).2 hu.2)
    | year => exact hsafe (addYears_some hc (hready hu.1).1 (hready hu.1).2 hu.2.1 hu.2.2)

theorem weekday_some {p : DateTime} {n : ℤ} (hp : Between p) (hf : JDFits p) (hc : CalendarFits p)
    (hn : 0 ≤ n ∧ n < 7) : ∃ q, weekday p n = some q ∧ Between q := by
  obtain ⟨x, hx, hxr, -, -, hxf, -⟩ := computeYMD_HMS_some (ready_of_between hp hc) hf
  obtain ⟨z, hz, -, hnear⟩ := computeJD_some (p := { x with validTZ := false, validJD := false })
    ⟨hxr.date, hxr.time, by simp⟩ rfl hxf (.inl rfl)
  unfold Near at hnear
  have hZ : -7 < ((z.iJD + 129600000).tdiv 86400000).tmod 7 ∧
    ((z.iJD + 129600000).tdiv 86400000).tmod 7 < 7 :=
    ⟨Int.lt_tmod_of_pos _ (by decide), Int.tmod_lt_of_pos _ (by decide)⟩
  simp only [weekday, Option.bind_eq_bind, hx, hz, Option.bind_some]
  rw [i64_bind (by omega)]
  generalize ((z.iJD + 129600000).tdiv 86400000).tmod 7 = Z at *
  have hS : -14 < (if Z > n then Z - 7 else Z) ∧ (if Z > n then Z - 7 else Z) < 7 := by split_ifs <;> omega
  rw [i64_bind (by omega)]
  generalize (if Z > n then Z - 7 else Z) = S at *
  rw [i64_bind (by omega), i64_bind (by omega), i64_bind (by omega)]
  exact ⟨_, rfl, between_clear (by unfold I64; dsimp only; omega)⟩

theorem startOf_safe {p : DateTime} (word : List UInt8) (hp : Between p) (hc : CalendarFits p) :
    Safe (startOf p word) := by
  obtain ⟨q, hq, hr, hv, -⟩ := computeYMD_some (ready_of_between hp hc)
  have hb {M D : ℤ} (hM : -50 ≤ M ∧ M ≤ 50) (hD : -3000 ≤ D ∧ D ≤ 3000) : Between { q with
      M, D, validHMS := true, h := 0, m := 0, s := 0, validTZ := false, validJD := false } :=
    { date := fun _ => ⟨(hr.date hv).1, hM, hD⟩
      time := fun _ => by norm_num
      zone := by simp
      julian := by simp
      alone := by simp
      whole := by simp }
  obtain ⟨-, hM, hD⟩ := hr.date hv
  simp only [startOf, Option.bind_eq_bind, hq, Option.bind_some]
  split_ifs
  · exact safe_some (hb hM (by omega))
  · exact safe_some (hb (by omega) (by omega))
  · exact safe_some (hb hM hD)
  · exact safe_none

theorem unixepoch_some {p : DateTime} (hi : I64 p.iJD) (h : p.iJD + 43200 < 2 ^ 63) :
    ∃ q, unixepoch p = some q ∧ Between q := by
  unfold I64 at hi
  have hd : -106751991167301 ≤ (p.iJD + 43200).tdiv 86400 ∧ (p.iJD + 43200).tdiv 86400 ≤ 106751991167301 := by
    rw [tdiv_eq]; split_ifs <;> omega
  simp only [unixepoch, Option.bind_eq_bind]
  rw [i64_bind (by omega), i64_bind (by omega)]
  exact ⟨_, rfl, between_clear (by unfold I64; dsimp only; omega)⟩

/-! The texts of dates and times. -/

/-- What a text of a time sets. -/
structure Timed (p : DateTime) : Prop extends Small p where
  undated : p.validYMD = false
  unset : p.validJD = false

theorem parseHhMmSs_timed {z : List UInt8} {p q : DateTime} {fail : Bool} (h : parseHhMmSs z p = (fail, q))
    (hp : Timed p) (hz : p.validTZ = false) : Timed q ∧ (fail = true → q.validTZ = false) := by
  have hd := @getDigits_bounds [⟨2, 0, 24, some (ch ':')⟩, ⟨2, 0, 59, none⟩] z
  unfold parseHhMmSs at h
  split at h
  case h_2 => cases h; exact ⟨hp, fun _ => hz⟩
  case h_1 hr mn hv =>
    rw [hv] at hd
    have hd : (0 ≤ hr ∧ hr ≤ 24) ∧ 0 ≤ mn ∧ mn ≤ 59 := by simpa using hd
    split at h
    · cases h; exact ⟨hp, fun _ => hz⟩
    · rename_i s rest hs
      have hs := parseSeconds_bounds hs
      have ht : (-24 ≤ hr ∧ hr ≤ 24) ∧ (-59 ≤ mn ∧ mn ≤ 59) ∧ (-61 ≤ s ∧ s ≤ 61) :=
        ⟨by omega, by omega, hs⟩
      dsimp only at h
      split at h
      · cases h
        exact ⟨⟨⟨by simp [hp.undated], fun _ => ht, by simp [hz]⟩, hp.undated, rfl⟩, fun _ => hz⟩
      · rename_i tz htz
        cases h
        exact ⟨⟨⟨by simp [hp.undated], fun _ => ht, fun _ => ⟨rfl, parseTimezone_bounds htz⟩⟩, hp.undated, rfl⟩,
          nofun⟩

theorem timed_empty : Timed {} where
  date := nofun
  time := nofun
  zone := nofun
  undated := rfl
  unset := rfl

theorem between_of_timed {p : DateTime} (hp : Timed p) : Between p where
  toSmall := hp.toSmall
  julian h := by simp [hp.unset] at h
  alone h := by simp [hp.unset] at h
  whole h := by simp [hp.undated] at h

/-- The end of `parseYyyyMmDd`. -/
theorem dated_some {p : DateTime} {Y M D : ℤ} (hp : Timed p) (hY : -9999 ≤ Y ∧ Y ≤ 9999) (hM : 1 ≤ M ∧ M ≤ 12)
    (hD : 1 ≤ D ∧ D ≤ 31) :
    ∃ q, (if p.validTZ then
        (computeJD { p with validJD := false, validYMD := true, Y, M, D }).map fun p => (false, p)
      else some (false, { p with validJD := false, validYMD := true, Y, M, D })) = some (false, q) ∧
        Between q := by
  have hs : Small { p with validJD := false, validYMD := true, Y, M, D } :=
    ⟨fun _ => by dsimp only; omega, hp.time, hp.zone⟩
  split_ifs with hz
  · have hw : Window Y M := by unfold Window marchOf; split_ifs <;> dsimp only <;> omega
    obtain ⟨q, hq, hn, hqs, -, -, hqz, hqd⟩ := computeJD_near hs rfl fun _ => hw
    have hv : q.validYMD = false := by simpa [hz] using congrArg Prod.fst hqd
    unfold Near at hn
    exact ⟨q, by rw [hq]; rfl, ⟨hqs, fun _ => by unfold I64; omega, fun _ => ⟨hv, hqz⟩, fun _ => hqz⟩⟩
  · exact ⟨_, rfl, ⟨hs, nofun, nofun, fun _ => by simpa using hz⟩⟩

/-- A date, or no date and at most some of the time. -/
theorem parseYyyyMmDd_some (z : List UInt8) : ∃ fail q, parseYyyyMmDd z {} = some (fail, q) ∧
    (fail = false → Between q) ∧ (fail = true → Timed q ∧ q.validTZ = false) := by
  unfold parseYyyyMmDd
  extract_lets neg w
  have hd := @getDigits_bounds [⟨4, 0, 9999, some (ch '-')⟩, ⟨2, 1, 12, some (ch '-')⟩, ⟨2, 1, 31, none⟩] w
  split
  case h_2 => exact ⟨true, {}, rfl, nofun, fun _ => ⟨timed_empty, rfl⟩⟩
  case h_1 v _ Y M D hv =>
    rw [hv] at hd
    have hd : (0 ≤ Y ∧ Y ≤ 9999) ∧ (1 ≤ M ∧ M ≤ 12) ∧ 1 ≤ D ∧ D ≤ 31 := by simpa using hd
    have hneg : -9999 ≤ (if neg then -Y else Y) ∧ (if neg then -Y else Y) ≤ 9999 := by split_ifs <;> omega
    generalize (if neg then -Y else Y) = y at *
    clear_value v
    rcases ht : parseHhMmSs v {} with ⟨fail, p⟩
    obtain ⟨hp, hz⟩ := parseHhMmSs_timed ht timed_empty rfl
    dsimp only
    cases fail with
    | false =>
      obtain ⟨q, hq, hqb⟩ := dated_some hp hneg hd.2.1 hd.2.2
      exact ⟨false, q, by simpa using hq, fun _ => hqb, nofun⟩
    | true =>
      by_cases hv : v = []
      · obtain ⟨q, hq, hqb⟩ := dated_some (p := { p with validHMS := false })
          ⟨⟨hp.date, nofun, by simp [hz rfl]⟩, hp.undated, hp.unset⟩ hneg hd.2.1 hd.2.2
        exact ⟨false, q, by simpa [hv] using hq, fun _ => hqb, nofun⟩
      · exact ⟨true, p, by simp [hv], nofun, fun _ => ⟨hp, hz rfl⟩⟩

/-- What a text needs that stands for the current time or a number of days. -/
def StartFits (now : Option ℤ) (z : List UInt8) : Prop :=
  (∀ iJD, now = some iJD → I64 iJD) ∧ ∀ r, sqlite3AtoF z = some r → I64 (trunc (r * 86400000 + 0.5))

theorem parseDateOrTime_some {now : Option ℤ} {z : List UInt8} (h : StartFits now z) :
    ∃ fail p, parseDateOrTime now z {} = some (fail, p) ∧ (fail = false → Between p) := by
  obtain ⟨fail, q, hq, hb, ht⟩ := parseYyyyMmDd_some z
  simp only [parseDateOrTime, Option.bind_eq_bind, hq, Option.bind_some]
  cases fail with
  | false => exact ⟨false, q, rfl, fun _ => hb rfl⟩
  | true =>
    obtain ⟨hqt, hqz⟩ := ht rfl
    rcases hp : parseHhMmSs z q with ⟨fail, p⟩
    obtain ⟨hpt, hpz⟩ := parseHhMmSs_timed hp hqt hqz
    cases fail with
    | false => exact ⟨false, p, rfl, fun _ => between_of_timed hpt⟩
    | true =>
      have hjulian {i : ℤ} (hi : I64 i) : Between { p with iJD := i, validJD := true } :=
        { date := hpt.date
          time := hpt.time
          zone := hpt.zone
          julian := fun _ => hi
          alone := fun _ => ⟨hpt.undated, hpz rfl⟩
          whole := fun _ => hpz rfl }
      simp only [Bool.not_true, Bool.false_eq_true, if_false]
      split_ifs
      · cases now with
        | none => exact ⟨true, p, rfl, nofun⟩
        | some i => exact ⟨false, _, rfl, fun _ => hjulian (h.1 i rfl)⟩
      · cases hr : sqlite3AtoF z with
        | none => exact ⟨true, p, rfl, nofun⟩
        | some r =>
          have hi := h.2 r hr
          exact ⟨false, _, by dsimp only; rw [i64_bind hi]; rfl, fun _ => hjulian hi⟩

theorem addTime_safe {p : DateTime} {z : List UInt8} (hp : Between p)
    (hf : ∀ tx, parseHhMmSs (clockText z) {} = (false, tx) → JDFits p ∧ I64 (julian p + shift z tx)) :
    Safe (addTime p z) := by
  unfold addTime
  extract_lets neg z2
  rw [show z2 = clockText z from rfl]
  rcases ht : parseHhMmSs (clockText z) {} with ⟨fail, tx⟩
  cases fail with
  | true => exact safe_none
  | false =>
    obtain ⟨hjd, hi⟩ := hf tx ht
    obtain ⟨htx, -⟩ := parseHhMmSs_timed ht timed_empty rfl
    obtain ⟨x, hx, hxc, hn⟩ := computeJD_some htx.toSmall htx.unset (fun h => by simp [htx.undated] at h)
      (.inr htx.undated)
    obtain ⟨q, hq, hqc, -⟩ := computeJD_between hp hjd
    rw [← hqc.iJD, shift, ← hxc.iJD] at hi
    unfold Near at hn
    have hb : -86400000 < (x.iJD - 43200000).tmod 86400000 ∧ (x.iJD - 43200000).tmod 86400000 < 86400000 :=
      ⟨Int.lt_tmod_of_pos _ (by decide), Int.tmod_lt_of_pos _ (by decide)⟩
    have hmod := Int.mul_tdiv_add_tmod (x.iJD - 43200000) 86400000
    simp only [Option.bind_eq_bind, hx, hq, Option.bind_some]
    rw [i64_bind (by omega), i64_bind (by omega), i64_bind (by omega)]
    have hs : (if neg then -(x.iJD - 43200000 - (x.iJD - 43200000).tdiv 86400000 * 86400000)
        else x.iJD - 43200000 - (x.iJD - 43200000).tdiv 86400000 * 86400000) =
        (if z.head? = some (ch '-') then -1 else 1) * (x.iJD - 43200000).tmod 86400000 := by
      simp only [neg]
      split_ifs <;> omega
    rw [hs, show (clearYMD_HMS_TZ q).iJD = q.iJD from rfl, i64_bind hi]
    exact safe_some (between_clear (p := { q with iJD := _ }) hi)

/-- The time that the operating system gives, read as a date. -/
theorem computeJD_tm {os : ℤ → Option Tm} (hos : Localtime os) {t : ℤ} {x : Tm} (hx : os t = some x)
    (ht : -100000000000 ≤ t ∧ t ≤ 100000000000) : ∃ y, computeJD {
      Y := x.tm_year + 1900, M := x.tm_mon + 1, D := x.tm_mday, h := x.tm_hour, m := x.tm_min, s := x.tm_sec,
      validYMD := true, validHMS := true } = some y ∧ y.iJD = zoneOf x + 211813444800000 ∧
      (-500000000000000 ≤ y.iJD ∧ y.iJD ≤ 500000000000000) ∧
      int (x.tm_year + 1900) = some (x.tm_year + 1900) ∧ int (x.tm_mon + 1) = some (x.tm_mon + 1) := by
  obtain ⟨hmon, hday, hhour, hmin, hsec⟩ := hos.fields t x hx
  have hyear := hos.year t x hx ht.1 ht.2
  have hw : Window (x.tm_year + 1900) (x.tm_mon + 1) := by
    unfold Window marchOf; split_ifs <;> dsimp only <;> omega
  have hs : (-61 : ℚ) ≤ x.tm_sec ∧ (x.tm_sec : ℚ) ≤ 61 := by
    constructor <;> exact_mod_cast (by omega)
  obtain ⟨y, hy, hc, hn⟩ := computeJD_some (p := {
      Y := x.tm_year + 1900, M := x.tm_mon + 1, D := x.tm_mday, h := x.tm_hour, m := x.tm_min, s := x.tm_sec,
      validYMD := true, validHMS := true })
    ⟨fun _ => by dsimp only; omega, fun _ => ⟨by dsimp only; omega, by dsimp only; omega, hs⟩,
      nofun⟩ rfl (fun _ => hw)
    (.inl rfl)
  have hsec : trunc ((x.tm_sec : ℚ) * 1000) = x.tm_sec * 1000 := by
    rw [← trunc_intCast (x.tm_sec * 1000)]; push_cast; rfl
  have hj : y.iJD = zoneOf x + 211813444800000 := by
    rw [hc.iJD]
    simp only [julian, clock, zoneOf, if_true, Bool.false_eq_true, if_false, hsec]
    ring
  have hday : -300000 ≤ dayZero (x.tm_year + 1900) (x.tm_mon + 1) ∧
      dayZero (x.tm_year + 1900) (x.tm_mon + 1) ≤ 5000000 := by
    have := dayZero_near (x.tm_year + 1900) (x.tm_mon + 1)
    unfold marchOf at this
    split_ifs at this <;> dsimp only at this <;> omega
  refine ⟨y, hy, hj, ?_, int_of_fits (by omega), int_of_fits (by omega)⟩
  rw [hj]
  unfold zoneOf
  omega

/-- The offset is that of January 1st, 2000, or is small, where the year is one that the operating system is
asked for. -/
theorem localtimeOffset_some {os : ℤ → Option Tm} (hos : Localtime os) {p : DateTime} (hp : Ready p)
    (hz : p.validTZ = false) (hf : JDFits p) : ∃ o, localtimeOffset os p = some o ∧ ∀ c, o = some c →
      (-1000000000000000 ≤ c ∧ c ≤ 1000000000000000) ∧
      ((∃ t, os 946684800 = some t ∧ c = zoneOf t) ∨ 1971 ≤ (dateIn p).1 ∧ (dateIn p).1 < 2038) := by
  obtain ⟨x, hx, hxr, hxh, hxz, hxf, hxd⟩ := computeYMD_HMS_some hp hf
  have hv : x.validYMD = true := congrArg Prod.fst hxd
  have hd : (x.Y, x.M, x.D) = dateIn p := congrArg Prod.snd hxd
  have hdate := hxr.date hv
  have htime := hxr.time hxh
  rw [hz] at hxz
  have hY : (dateIn p).1 = x.Y := by rw [← hd]
  rw [hY]
  obtain ⟨w, hw, z, hz, hb, hcase⟩ : ∃ w, (if x.Y < 1971 ∨ x.Y ≥ 2038 then
        some { x with Y := 2000, M := 1, D := 1, h := 0, m := 0, s := 0 }
      else (int (trunc (x.s + 0.5))).map fun s => { x with s }) = some w ∧
      ∃ z, computeJD { w with tz := 0, validJD := false } = some z ∧
        (209000000000000 ≤ z.iJD ∧ z.iJD ≤ 215000000000000) ∧
        (z.iJD = 211813444800000 ∨ 1971 ≤ x.Y ∧ x.Y < 2038) := by
    split_ifs with hy
    · obtain ⟨z, hz, hc, -⟩ := computeJD_some
        (p := { x with Y := 2000, M := 1, D := 1, h := 0, m := 0, s := 0, tz := 0, validJD := false })
        ⟨fun _ => by dsimp only; omega, fun _ => by norm_num, by simp [hxz]⟩ rfl
        (fun _ => (⟨by decide, by decide⟩ : Window 2000 1)) (.inl hxz)
      have hj : z.iJD = 211813444800000 := by
        rw [hc.iJD]
        have h2000 : dayZero 2000 1 = 2451544 := by decide
        simp [julian, clock, hv, hxh, hxz, h2000, trunc]
      exact ⟨_, rfl, z, hz, by omega, .inl hj⟩
    · have hs := round_bounds htime.2.2
      have hsq : (-61 : ℚ) ≤ trunc (x.s + 0.5) ∧ (trunc (x.s + 0.5) : ℚ) ≤ 61 := by exact_mod_cast hs
      have hw : Small { x with s := trunc (x.s + 0.5), tz := 0, validJD := false } :=
        ⟨fun _ => hdate, fun _ => ⟨htime.1, htime.2.1, hsq⟩, by simp [hxz]⟩
      obtain ⟨z, hz, hc, -⟩ := computeJD_some hw rfl hxf (.inl hxz)
      have hclock := clock_bounds hw
      have hday := dayZero_near x.Y x.M
      refine ⟨_, by rw [int_of_fits (by omega)]; rfl, z, hz, ?_, .inr (by omega)⟩
      rw [hc.iJD, julian, if_neg (by simp)]
      dsimp only at hclock ⊢
      rw [if_pos hv]
      unfold marchOf at hday
      split_ifs at hday <;> dsimp only at hday <;> omega
  have ht : -100000000000 ≤ z.iJD.tdiv 1000 - 210866760000 ∧
    z.iJD.tdiv 1000 - 210866760000 ≤ 100000000000 := by
    rw [tdiv_eq]; split_ifs <;> omega
  simp only [localtimeOffset, Option.bind_eq_bind, hx, Option.bind_some, hw, hz]
  rw [i64_bind (by omega)]
  cases htm : os (z.iJD.tdiv 1000 - 210866760000) with
  | none => exact ⟨none, rfl, fun c hc => by cases hc⟩
  | some t =>
    obtain ⟨y, hy, hyj, hyb, hty, htm'⟩ := computeJD_tm hos htm ht
    simp only [hty, htm', hy, Option.bind_some]
    rw [i64_bind (by omega)]
    refine ⟨_, rfl, fun c hc => ?_⟩
    have hc : c = y.iJD - z.iJD := (Option.some.inj hc).symm
    refine ⟨by omega, hcase.imp (fun hz => ⟨t, ?_, by omega⟩) id⟩
    rw [hz] at htm
    exact htm

theorem localtime_safe {os : ℤ → Option Tm} (hos : Localtime os) {p : DateTime} (hp : Between p)
    (hf : JDFits p)
    (hc : CalendarFits p) : Safe (localtime os p) := by
  obtain ⟨q, hq, hqc, hqr, hqf, hn⟩ := computeJD_ready hp hf hc
  obtain ⟨o, ho, hb⟩ := localtimeOffset_some hos hqr hqc.zone hqf
  unfold Near at hn
  simp only [localtime, Option.bind_eq_bind, hq, ho, Option.bind_some]
  cases o with
  | none => exact safe_none
  | some c =>
    have := (hb c rfl).1
    dsimp only
    rw [i64_bind (by omega)]
    exact safe_some (between_clear (by unfold I64; dsimp only; omega))

/-- The day of a date of those years. -/
theorem dateOf_recent {Z : ℤ} (h : 1971 ≤ (dateOf Z).1 ∧ (dateOf Z).1 < 2038) : 2400000 ≤ Z ∧
    Z ≤ 2500000 := by
  unfold dateOf at h
  extract_lets A B C D E M at h
  have hC : 6686 ≤ C ∧ C ≤ 6754 := by dsimp only at h; split_ifs at h <;> omega
  have hB : 2442000 ≤ B ∧ B ≤ 2468000 := by
    simp only [C, tdiv_eq] at hC
    split_ifs at hC <;> omega
  have hA : 4 * Z - 7468865 - 146097 < 146097 * A ∧ 146097 * A < 4 * Z - 7468865 + 146097 := by
    simp only [A, tdiv_eq]; split_ifs <;> omega
  have hA4 : 3 * A - 4 < 4 * (A - A.tdiv 4) ∧ 4 * (A - A.tdiv 4) < 3 * A + 4 := by
    rw [tdiv_eq]; split_ifs <;> omega
  omega

theorem recent_of_dateIn {p q : DateTime} (hp : Between p) (h : Computed p q) (hr : Ready q)
    (hy : 1971 ≤ (dateIn q).1 ∧ (dateIn q).1 < 2038) : 200000000000000 ≤ q.iJD ∧ q.iJD ≤ 220000000000000 := by
  have hdate := h.date
  simp only [Prod.mk.injEq] at hdate
  unfold dateIn at hy
  split_ifs at hy with hv hj
  · have hq := hr.date hv
    have hclock := clock_bounds hp.toSmall
    have hday := dayZero_near q.Y q.M
    have hpv : p.validYMD = true := hdate.1 ▸ hv
    have hpj : ¬ p.validJD = true := fun hj => by simpa [hpv] using hp.alone hj
    rw [h.iJD, julian, if_neg hpj, if_pos hpv, ← hdate.2.1, ← hdate.2.2.1, ← hdate.2.2.2]
    dsimp only at hy
    unfold marchOf at hday
    split_ifs at hday <;> dsimp only at hday <;> omega
  · have hZ := dateOf_recent hy
    rw [tdiv_eq] at hZ
    split_ifs at hZ <;> omega
  · exact absurd h.valid hj

theorem utc_safe {os : ℤ → Option Tm} (hos : Localtime os) {p : DateTime} (hp : Between p) (hf : JDFits p)
    (hc : CalendarFits p) (ht : ∀ t, os 946684800 = some t → CalendarWindow (julian p - zoneOf t)) :
    Safe (utc os p) := by
  obtain ⟨q, hq, hqc, hqr, hqf, hn⟩ := computeJD_ready hp hf hc
  obtain ⟨o, ho, hb⟩ := localtimeOffset_some hos hqr hqc.zone hqf
  unfold Near at hn
  simp only [utc, Option.bind_eq_bind, hq, ho, Option.bind_some]
  cases o with
  | none => exact safe_none
  | some c =>
    obtain ⟨hb, hcase⟩ := hb c rfl
    have hw : CalendarWindow (q.iJD - c) := by
      rcases hcase with ⟨t, hot, rfl⟩ | hy
      · rw [hqc.iJD]
        exact ht t hot
      · have := recent_of_dateIn hp hqc hqr hy
        unfold CalendarWindow
        omega
    have hi : I64 (q.iJD - c) := by unfold I64; omega
    have hclear := between_clear (p := { q with iJD := q.iJD - c }) hi
    obtain ⟨o2, ho2, hb2⟩ := localtimeOffset_some hos (ready_of_between hclear fun _ => hw) rfl nofun
    dsimp only
    rw [i64_bind hi, ho2, Option.bind_some]
    cases o2 with
    | none => exact safe_none
    | some c2 =>
      have hb2 := (hb2 c2 rfl).1
      have hi2 : I64 (q.iJD - c + (c - c2)) := by unfold I64; omega
      dsimp only
      rw [i64_bind (by omega), show (clearYMD_HMS_TZ { q with iJD := q.iJD - c }).iJD = q.iJD - c from rfl,
        i64_bind hi2]
      exact safe_some (between_clear (p := { q with iJD := _ }) hi2)

/-- One step. -/
theorem applyModifier_safe {os : ℤ → Option Tm} (hos : Localtime os) {p : DateTime} {m : Modifier}
    (hp : Between p)
    (h : Fits os p m) : Safe (applyModifier os p m) := by
  cases m with
  | localtime => exact localtime_safe hos hp h.1 h.2
  | utc => exact utc_safe hos hp h.1 h.2.1 h.2.2
  | startOf word => exact startOf_safe word hp h
  | addTime z => exact addTime_safe hp h
  | addUnits r z => exact addUnits_safe hp h.1 h.2
  | unixepoch =>
    cases hj : p.validJD with
    | false => simpa [applyModifier, hj] using safe_none
    | true =>
      obtain ⟨q, hq, hb⟩ := unixepoch_some (hp.julian hj) (h hj)
      simpa [applyModifier, hj, hq] using safe_some hb
  | weekday r =>
    obtain ⟨hi, hw⟩ := h
    unfold I32 at hi
    simp only [applyModifier, Option.bind_eq_bind]
    rw [int_bind hi]
    split_ifs with hr
    · obtain ⟨hf, hc⟩ := hw hr.1 hr.2.1 hr.2.2
      have h7 : trunc r < 7 := by have := hr.2.2; rw [← hr.1] at this; exact_mod_cast this
      obtain ⟨q, hq, hb⟩ := weekday_some hp hf hc ⟨hr.2.1, h7⟩
      rw [hq, Option.bind_some]
      exact safe_some hb
    · exact safe_none

theorem run_safe {os : ℤ → Option Tm} (hos : Localtime os) {zs : List (List UInt8)} {p : DateTime}
    (hp : Between p)
    (h : StepsFit os p zs) : Safe (run os zs p) := by
  induction zs generalizing p with
  | nil => exact safe_some hp
  | cons zMod zs ih =>
    obtain ⟨hm, hnext⟩ := h
    obtain ⟨r, hr, hb⟩ : Safe (parseModifier os zMod p) := by
      unfold parseModifier
      cases hmod : modifierOf zMod with
      | none => exact safe_none
      | some m => exact applyModifier_safe hos hp (hm m hmod)
    simp only [run, Option.bind_eq_bind, hr, Option.bind_some]
    cases r with
    | none => exact safe_none
    | some q => exact ih (hb q rfl) (hnext q hr)

/-- In a run whose steps all have what they need nothing overflows, and neither does the use of its result. -/
theorem isDate_fits {os : ℤ → Option Tm} (hos : Localtime os) {now : Option ℤ} {z : List UInt8}
    {zs : List (List UInt8)} (hz : StartFits now z)
    (hzs : ∀ p, parseDateOrTime now z {} = some (false, p) → StepsFit os p zs) :
    ∃ r, isDate os now z zs = some r ∧ ∀ q, r = some q →
      (JDFits q → ∃ x, computeJD q = some x) ∧
      (JDFits q → CalendarFits q → ∃ x, computeYMD_HMS q = some x) := by
  obtain ⟨fail, p, hp, hb⟩ := parseDateOrTime_some hz
  have hsafe : Safe (isDate os now z zs) := by
    simp only [isDate, Option.bind_eq_bind, hp, Option.bind_some]
    cases fail with
    | true => exact safe_none
    | false => exact run_safe hos (hb rfl) (hzs p hp)
  obtain ⟨r, hr, hq⟩ := hsafe
  refine ⟨r, hr, fun q hrq => ⟨fun hf => ?_, fun hf hc => ?_⟩⟩
  · obtain ⟨x, hx, -⟩ := computeJD_between (hq q hrq) hf
    exact ⟨x, hx⟩
  · obtain ⟨x, hx, -⟩ := computeYMD_HMS_some (ready_of_between (hq q hrq) hc) hf
    exact ⟨x, hx⟩

/-- `2000-01-31` -/
def januaryText : List UInt8 :=
  [ch '2', ch '0', ch '0', ch '0', ch '-', ch '0', ch '1', ch '-', ch '3', ch '1']

def january : DateTime := { Y := 2000, M := 1, D := 31, validYMD := true }

theorem parse_january : parseDateOrTime none januaryText {} = some (false, january) := by decide +kernel

/-- A zone one hour ahead of UTC, for the times that 32 bits hold. -/
def hourAhead (t : ℤ) : Option Tm :=
  if 0 ≤ t ∧ t < 2 ^ 31 then
    let s := t + 3600
    let d := dateOf (s / 86400 + 2440588)
    some ⟨d.1 - 1900, d.2.1 - 1, d.2.2, s % 86400 / 3600, s % 3600 / 60, s % 60⟩
  else none

/-- The days from 1970 to 2038. -/
theorem dateOf_bounds {Z : ℤ} (hZ : 2440588 ≤ Z ∧ Z ≤ 2465500) :
    (1900 ≤ (dateOf Z).1 ∧ (dateOf Z).1 ≤ 2100) ∧ (1 ≤ (dateOf Z).2.1 ∧ (dateOf Z).2.1 ≤ 12) ∧
      1 ≤ (dateOf Z).2.2 ∧ (dateOf Z).2.2 ≤ 31 := by
  unfold dateOf
  extract_lets A B C D E M
  have hA : 15 ≤ A ∧ A ≤ 16 := by simp only [A, tdiv_eq]; split_ifs <;> omega
  have hA4 : A.tdiv 4 = A / 4 := by rw [tdiv_eq]; split_ifs <;> omega
  have hC : C = (20 * B - 2442) / 7305 := by simp only [C, tdiv_eq]; split_ifs <;> omega
  have hD : D = 36525 * C / 100 := by simp only [D, tdiv_eq]; split_ifs <;> omega
  have hK : 122 ≤ B - D ∧ B - D ≤ 488 := by omega
  have hE : E = 10000 * (B - D) / 306001 := by simp only [E, tdiv_eq]; split_ifs <;> omega
  have hX : (306001 * E).tdiv 10000 = 306001 * E / 10000 := by rw [tdiv_eq]; split_ifs <;> omega
  rw [hX]
  have hM : M = if E < 14 then E - 1 else E - 13 := rfl
  split_ifs at hM ⊢ <;> simp only <;> omega

theorem localtime_hourAhead : Localtime hourAhead where
  fields t x h := by
    unfold hourAhead at h
    split_ifs at h with ht
    cases h
    obtain ⟨-, hM, hD⟩ := @dateOf_bounds ((t + 3600) / 86400 + 2440588) (by omega)
    dsimp only
    omega
  year t x h _ _ := by
    unfold hourAhead at h
    split_ifs at h with ht
    cases h
    obtain ⟨hY, -⟩ := @dateOf_bounds ((t + 3600) / 86400 + 2440588) (by omega)
    dsimp only
    omega

/-- A month behind the 31st of January, in local time. -/
theorem isDate_fits_local :
    ∃ q, isDate hourAhead none januaryText [localtimeWord, modifierText 1 .month] = some (some q) ∧
      (JDFits q → ∃ x, computeJD q = some x) ∧
      (JDFits q → CalendarFits q → ∃ x, computeYMD_HMS q = some x) := by
  have hword : modifierOf localtimeWord = some .localtime := rfl
  have hlocal : parseModifier hourAhead localtimeWord january =
      some (some (clearYMD_HMS_TZ { january with iJD := 211816040400000, validJD := true })) := by
    decide +kernel
  have hfit : StepsFit hourAhead january [localtimeWord, modifierText 1 .month] := by
    refine ⟨fun m hm => ?_, fun q hq => ⟨fun m hm => ?_, fun _ _ => trivial⟩⟩
    · rw [hword] at hm
      cases hm
      exact ⟨fun _ => ⟨by decide, by decide⟩, nofun⟩
    · obtain ⟨z, hz, hu⟩ := modifierText_asks (N := 1) (by decide) .month
      rw [hlocal] at hq
      rw [hz] at hm
      cases hq
      cases hm
      refine ⟨nofun, fun u h => ?_⟩
      rw [hu] at h
      cases h
      rw [UnitFits, trunc_intCast]
      exact ⟨fun _ => ⟨by decide, by decide⟩, by decide +kernel, by decide +kernel⟩
  have hsome : (isDate hourAhead none januaryText [localtimeWord, modifierText 1 .month]).join.isSome := by
    decide +kernel
  have hstart : StartFits none januaryText := by
    refine ⟨nofun, fun r hr => ?_⟩
    rw [show sqlite3AtoF januaryText = none by decide +kernel] at hr
    cases hr
  obtain ⟨r, hr, hq⟩ := isDate_fits localtime_hourAhead hstart fun p hp => by
    rw [parse_january] at hp
    cases hp
    exact hfit
  cases r with
  | none =>
    rw [hr] at hsome
    exact absurd hsome (by decide)
  | some q => exact ⟨q, hr, hq q rfl⟩

/-- Two hundred billion days are more milliseconds than an integer of 64 bits holds. -/
theorem days_overflow : isDate (fun _ => none) none januaryText [modifierText 200000000000 .day] = none := by
  obtain ⟨z, hz, hu⟩ := modifierText_asks (N := 200000000000) (by decide) .day
  have hj : computeJD january = some { january with iJD := 211816036800000, validJD := true } := by
    decide +kernel
  have hi : i64 (trunc (((200000000000 : ℤ) : ℚ) * 86400000 + rounder ((200000000000 : ℤ) : ℚ))) = none := by
    decide +kernel
  simp only [isDate, run, Option.bind_eq_bind, parse_january, Option.bind_some, parseModifier, hz,
    applyModifier, addUnits, hj, hu, addReal, hi, Bool.false_eq_true, if_false, Option.bind_none]

end Sqlite.Date

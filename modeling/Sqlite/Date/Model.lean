import Mathlib.Data.Rat.Floor
import Sqlite.HashTable.Model
import Sqlite.Numeric.Text

/-! Dates and times (`date.c`). Real numbers are exact. A result is `none` where an operation on an
`int` or a 64-bit integer overflows, or a real is converted to a type that does not hold it. -/
namespace Sqlite.Date

open HashTable (sqlite3UpperToLower)
open Numeric (ch digit readSign sqlite3Isdigit sqlite3Isspace)

structure DateTime where
  iJD : ℤ := 0
  Y : ℤ := 0
  M : ℤ := 0
  D : ℤ := 0
  h : ℤ := 0
  m : ℤ := 0
  tz : ℤ := 0
  s : ℚ := 0
  validYMD : Bool := false
  validHMS : Bool := false
  validJD : Bool := false
  validTZ : Bool := false
  deriving DecidableEq

def int (x : ℤ) : Option ℤ := if -2 ^ 31 ≤ x ∧ x < 2 ^ 31 then some x else none

def i64 (x : ℤ) : Option ℤ := if -2 ^ 63 ≤ x ∧ x < 2 ^ 63 then some x else none

/-- A real number without its fraction. -/
def trunc (x : ℚ) : ℤ := if 0 ≤ x then ⌊x⌋ else ⌈x⌉

/-- The year that begins in March, and the month in it from 3 on. -/
def marchYear (Y M : ℤ) : Option (ℤ × ℤ) :=
  if M ≤ 2 then do return (← int (Y - 1), ← int (M + 12)) else some (Y, M)

/-- The part of `computeJD` over the year, the month and the day. -/
def julianDay (Y M D : ℤ) : Option ℤ := do
  let (Y, M) ← marchYear Y M
  let A := Y.tdiv 100
  let B ← int ((← int (2 - A)) + A.tdiv 4)
  let X1 := (← int (36525 * (← int (Y + 4716)))).tdiv 100
  let X2 := (← int (306001 * (← int (M + 1)))).tdiv 10000
  let t ← int ((← int ((← int (X1 + X2)) + D)) + B)
  i64 (trunc (((t : ℚ) - 1524.5) * 86400000))

/-- The part of `computeJD` over the time. -/
def milliseconds (h m : ℤ) (s : ℚ) : Option ℤ := do
  let t ← int ((← int (h * 3600000)) + (← int (m * 60000)))
  i64 (t + (← i64 (trunc (s * 1000))))

/-- The Julian day of the date alone. -/
def dateJD (p : DateTime) : Option ℤ :=
  if p.validYMD then julianDay p.Y p.M p.D else julianDay 2000 1 1

/-- The part of `computeJD` behind the date. -/
def addClock (p : DateTime) : Option DateTime :=
  if p.validHMS then do
    let iJD ← i64 (p.iJD + (← milliseconds p.h p.m p.s))
    if p.validTZ then
      let iJD ← i64 (iJD - (← int (p.tz * 60000)))
      return { p with iJD, validYMD := false, validHMS := false, validTZ := false }
    else return { p with iJD }
  else some p

def computeJD (p : DateTime) : Option DateTime :=
  if p.validJD then some p else do addClock { p with iJD := ← dateJD p, validJD := true }

/-- The year, the month and the day of `computeYMD`. -/
def calendarDay (iJD : ℤ) : Option (ℤ × ℤ × ℤ) := do
  let Z ← int ((← i64 (iJD + 43200000)).tdiv 86400000)
  let A ← int (trunc (((Z : ℚ) - 1867216.25) / 36524.25))
  let A ← int ((← int ((← int (Z + 1)) + A)) - A.tdiv 4)
  let B ← int (A + 1524)
  let C ← int (trunc (((B : ℚ) - 122.1) / 365.25))
  let D := (← int (36525 * C)).tdiv 100
  let E ← int (trunc (((← int (B - D)) : ℚ) / 30.6001))
  let X1 ← int (trunc (30.6001 * (E : ℚ)))
  let D ← int ((← int (B - D)) - X1)
  let M ← int (if E < 14 then E - 1 else E - 13)
  let Y ← int (if M > 2 then C - 4716 else C - 4715)
  return (Y, M, D)

def computeYMD (p : DateTime) : Option DateTime :=
  if p.validYMD then some p
  else if !p.validJD then some { p with Y := 2000, M := 1, D := 1, validYMD := true }
  else do
    let (Y, M, D) ← calendarDay p.iJD
    return { p with Y, M, D, validYMD := true }

/-- The hour, the minute and the second of `computeHMS`. -/
def clockTime (iJD : ℤ) : Option (ℤ × ℤ × ℚ) := do
  let s ← int ((← i64 (iJD + 43200000)).tmod 86400000)
  let r : ℚ := s / 1000
  let s ← int (trunc r)
  let r := r - s
  let h := s.tdiv 3600
  let s ← int (s - (← int (h * 3600)))
  let m := s.tdiv 60
  return (h, m, r + (← int (s - (← int (m * 60)))))

def computeHMS (p : DateTime) : Option DateTime :=
  if p.validHMS then some p
  else do
    let p ← computeJD p
    let (h, m, s) ← clockTime p.iJD
    return { p with h, m, s, validHMS := true }

def computeYMD_HMS (p : DateTime) : Option DateTime := do computeHMS (← computeYMD p)

def clearYMD_HMS_TZ (p : DateTime) : DateTime :=
  { p with validYMD := false, validHMS := false, validTZ := false }

/-! Texts. The list of bytes from a pointer on ends with the text. -/

/-- The integer of exactly `N` digits, and the text behind it. -/
def getInt : ℕ → ℤ → List UInt8 → Option (ℤ × List UInt8)
  | 0, val, z => some (val, z)
  | _ + 1, _, [] => none
  | N + 1, val, b :: z => if sqlite3Isdigit b then getInt N (val * 10 + digit b) z else none

/-- The arguments of `getDigits` for one integer; `nextC` is none for the last. -/
structure Group where
  N : ℕ
  min : ℤ
  max : ℤ
  nextC : Option UInt8

/-- The integers up to the first that fails. -/
def getDigits : List Group → List UInt8 → List ℤ
  | [], _ => []
  | g :: gs, z =>
    match getInt g.N 0 z with
    | none => []
    | some (val, z) =>
      if val < g.min ∨ val > g.max ∨ (g.nextC.isSome ∧ g.nextC ≠ z.head?) then []
      else val :: getDigits gs (z.drop 1)

/-- The offset, or `none` if the text goes on with something else. -/
def parseTimezone (z : List UInt8) : Option ℤ :=
  let z := z.dropWhile sqlite3Isspace
  let zulu := fun (tz : ℤ) (z : List UInt8) => if z.dropWhile sqlite3Isspace = [] then some tz else none
  match z with
  | [] => some 0
  | c :: z =>
    if c = ch '-' ∨ c = ch '+' then
      match getDigits [⟨2, 0, 14, some (ch ':')⟩, ⟨2, 0, 59, none⟩] z with
      | [nHr, nMn] => zulu ((if c = ch '-' then -1 else 1) * (nMn + nHr * 60)) (z.drop 5)
      | _ => none
    else if c = ch 'Z' ∨ c = ch 'z' then zulu 0 z
    else none

/-- The fraction of the seconds that begins behind the point. -/
def fractionOf (z : List UInt8) : ℚ :=
  let ds := z.takeWhile sqlite3Isdigit
  ((ds.foldl (fun v b => v * 10 + digit b) 0 : ℤ) : ℚ) / 10 ^ ds.length

/-- The seconds and the text behind them; `none` if there is a colon with no seconds behind it. -/
def parseSeconds (z : List UInt8) : Option (ℚ × List UInt8) :=
  if z.head? ≠ some (ch ':') then some (0, z)
  else
    match getDigits [⟨2, 0, 59, none⟩] (z.drop 1) with
    | [s] =>
      let z := z.drop 3
      if z.head? = some (ch '.') ∧ ((z.drop 1).head?.map sqlite3Isdigit).getD false then
        some (s + fractionOf (z.drop 1), (z.drop 1).dropWhile sqlite3Isdigit)
      else some (s, z)
    | _ => none

/-- Whether the text is no time, and the variables, some of which are set also when it is none. -/
def parseHhMmSs (z : List UInt8) (p : DateTime) : Bool × DateTime :=
  match getDigits [⟨2, 0, 24, some (ch ':')⟩, ⟨2, 0, 59, none⟩] z with
  | [h, m] =>
    match parseSeconds (z.drop 5) with
    | none => (true, p)
    | some (s, z) =>
      let p := { p with validJD := false, validHMS := true, h, m, s }
      match parseTimezone z with
      | none => (true, { p with tz := 0 })
      | some tz => (false, { p with tz, validTZ := tz ≠ 0 })
  | _ => (true, p)

def parseYyyyMmDd (z : List UInt8) (p : DateTime) : Option (Bool × DateTime) :=
  let neg := z.head? = some (ch '-')
  let z := if neg then z.drop 1 else z
  match getDigits [⟨4, 0, 9999, some (ch '-')⟩, ⟨2, 1, 12, some (ch '-')⟩, ⟨2, 1, 31, none⟩] z with
  | [Y, M, D] =>
    let z := (z.drop 10).dropWhile fun b => sqlite3Isspace b ∨ b = ch 'T'
    let (fail, p) := parseHhMmSs z p
    if fail ∧ z ≠ [] then some (true, p)
    else
      let p := if fail then { p with validHMS := false } else p
      let p := { p with validJD := false, validYMD := true, Y := if neg then -Y else Y, M, D }
      if p.validTZ then (computeJD p).map fun p => (false, p) else some (false, p)
  | _ => some (true, p)

/-- The exact number that a text is; `none` if `sqlite3AtoF` finds that it is no number. -/
def sqlite3AtoF (z : List UInt8) : Option ℚ :=
  let (neg, z) := readSign 1 (z.dropWhile sqlite3Isspace)
  let ds := z.takeWhile sqlite3Isdigit
  let z := z.dropWhile sqlite3Isdigit
  let point := z.head? = some (ch '.')
  let fs := if point then z.tail.takeWhile sqlite3Isdigit else []
  let z := if point then z.tail.dropWhile sqlite3Isdigit else z
  let x := z.head? = some (ch 'e') ∨ z.head? = some (ch 'E')
  let (eneg, z) := if x then readSign 1 z.tail else (false, z)
  let es := if x then z.takeWhile sqlite3Isdigit else []
  let z := if x then z.dropWhile sqlite3Isdigit else z
  let number := fun ds : List UInt8 => ds.foldl (fun v b => v * 10 + digit b) (0 : ℤ)
  if ds ++ fs ≠ [] ∧ (x → es ≠ []) ∧ z.dropWhile sqlite3Isspace = [] then
    some ((if neg then -1 else 1) * (number (ds ++ fs) : ℚ) *
      10 ^ ((if eneg then -1 else 1) * number es - fs.length))
  else none

/-- `sqlite3StrICmp(z, word)==0`, for a word in lower case. -/
def isWord (word z : List UInt8) : Bool := z.map sqlite3UpperToLower = word

/-- `now` is what the operating system reports, if it does. -/
def parseDateOrTime (now : Option ℤ) (z : List UInt8) (p : DateTime) : Option (Bool × DateTime) := do
  let (fail, p) ← parseYyyyMmDd z p
  if !fail then return (false, p)
  else
    let (fail, p) := parseHhMmSs z p
    if !fail then return (false, p)
    else if isWord [ch 'n', ch 'o', ch 'w'] z then
      match now with
      | some iJD => return (false, { p with iJD, validJD := true })
      | none => return (true, p)
    else
      match sqlite3AtoF z with
      | some r => return (false, { p with iJD := ← i64 (trunc (r * 86400000 + 0.5)), validJD := true })
      | none => return (true, p)

/-! Modifiers. -/

/-- A time as `localtime` gives it. -/
structure Tm where
  tm_year : ℤ
  tm_mon : ℤ
  tm_mday : ℤ
  tm_hour : ℤ
  tm_min : ℤ
  tm_sec : ℤ

/-- The offset, or `none` inside if the operating system fails. -/
def localtimeOffset (osLocaltime : ℤ → Option Tm) (p : DateTime) : Option (Option ℤ) := do
  let x ← computeYMD_HMS p
  let x ← (if x.Y < 1971 ∨ x.Y ≥ 2038 then
      some { x with Y := 2000, M := 1, D := 1, h := 0, m := 0, s := 0 }
    else (int (trunc (x.s + 0.5))).map fun s => { x with s })
  let x ← computeJD { x with tz := 0, validJD := false }
  match osLocaltime (← i64 (x.iJD.tdiv 1000 - 210866760000)) with
  | none => return none
  | some sLocal =>
    let y ← computeJD {
      Y := ← int (sLocal.tm_year + 1900), M := ← int (sLocal.tm_mon + 1), D := sLocal.tm_mday,
      h := sLocal.tm_hour, m := sLocal.tm_min, s := sLocal.tm_sec, validYMD := true, validHMS := true }
    return some (← i64 (y.iJD - x.iJD))

/-- The buffer: the first 29 bytes of the text in lower case. -/
def zBuf (zMod : List UInt8) : List UInt8 := (zMod.take 29).map sqlite3UpperToLower

/-- The real amount of a modifier that begins with a sign or a digit, and what stands behind it. -/
def amount (z : List UInt8) : Option (ℚ × List UInt8) :=
  let n := 1 + ((z.drop 1).takeWhile fun b => b ≠ ch ':' ∧ !sqlite3Isspace b).length
  (sqlite3AtoF (z.take n)).map fun r => (r, z.drop n)

inductive Unit
  | day
  | hour
  | minute
  | second
  | month
  | year
  deriving DecidableEq

def Unit.name : Unit → List UInt8
  | day => [ch 'd', ch 'a', ch 'y']
  | hour => [ch 'h', ch 'o', ch 'u', ch 'r']
  | minute => [ch 'm', ch 'i', ch 'n', ch 'u', ch 't', ch 'e']
  | second => [ch 's', ch 'e', ch 'c', ch 'o', ch 'n', ch 'd']
  | month => [ch 'm', ch 'o', ch 'n', ch 't', ch 'h']
  | year => [ch 'y', ch 'e', ch 'a', ch 'r']

/-- The unit of a name. -/
def unitOf (z : List UInt8) : Option Unit :=
  [Unit.day, .hour, .minute, .second, .month, .year].find? fun u => u.name = z

/-- What stands for the unit behind the amount, without the `s` at its end. -/
def unitText (z : List UInt8) : Option (List UInt8) :=
  let z := z.dropWhile sqlite3Isspace
  if z.length > 10 ∨ z.length < 3 then none
  else some (if z.getLast? = some (ch 's') then z.dropLast else z)

def rounder (r : ℚ) : ℚ := if r < 0 then -0.5 else 0.5

/-- `p->iJD += (sqlite3_int64)(x + rRounder)`, where the amount is `r`. -/
def addReal (p : DateTime) (r x : ℚ) : Option DateTime := do
  return { p with iJD := ← i64 (p.iJD + (← i64 (trunc (x + rounder r)))) }

def addMonths (p : DateTime) (r : ℚ) : Option DateTime := do
  let p ← computeYMD_HMS p
  let y ← int (trunc r)
  let M ← int (p.M + y)
  let x := (← int (if M > 0 then M - 1 else M - 12)).tdiv 12
  let Y ← int (p.Y + x)
  let M ← int (M - (← int (x * 12)))
  let p ← computeJD { p with Y, M, validJD := false }
  if (y : ℚ) ≠ r then addReal p r ((r - y) * 30 * 86400000) else return p

def addYears (p : DateTime) (r : ℚ) : Option DateTime := do
  let y ← int (trunc r)
  let p ← computeYMD_HMS p
  let p ← computeJD { p with Y := ← int (p.Y + y), validJD := false }
  if (y : ℚ) ≠ r then addReal p r ((r - y) * 365 * 86400000) else return p

/-- A modifier `NNN units`. -/
def addUnits (p : DateTime) (r : ℚ) (z : List UInt8) : Option (Option DateTime) := do
  let p ← computeJD p
  match unitOf z with
  | none => return none
  | some u =>
    let p ← match u with
      | .day => addReal p r (r * 86400000)
      | .hour => addReal p r (r * (86400000 / 24))
      | .minute => addReal p r (r * (86400000 / (24 * 60)))
      | .second => addReal p r (r * (86400000 / (24 * 60 * 60)))
      | .month => addMonths p r
      | .year => addYears p r
    return some (clearYMD_HMS_TZ p)

/-- A modifier `HH:MM:SS`, with a sign or none. -/
def addTime (p : DateTime) (z : List UInt8) : Option (Option DateTime) :=
  let neg := z.head? = some (ch '-')
  let z2 := if (z.head?.map sqlite3Isdigit).getD false then z else z.drop 1
  match parseHhMmSs z2 {} with
  | (true, _) => some none
  | (false, tx) => do
    let tx ← computeJD tx
    let iJD ← i64 (tx.iJD - 43200000)
    let iJD ← i64 (iJD - (← i64 (iJD.tdiv 86400000 * 86400000)))
    let iJD := if neg then -iJD else iJD
    let p := clearYMD_HMS_TZ (← computeJD p)
    return some { p with iJD := ← i64 (p.iJD + iJD) }

def weekday (p : DateTime) (n : ℤ) : Option DateTime := do
  let p ← computeYMD_HMS p
  let p ← computeJD { p with validTZ := false, validJD := false }
  let Z := ((← i64 (p.iJD + 129600000)).tdiv 86400000).tmod 7
  let Z ← i64 (if Z > n then Z - 7 else Z)
  let iJD ← i64 (p.iJD + (← i64 ((← i64 (n - Z)) * 86400000)))
  return clearYMD_HMS_TZ { p with iJD }

def startOf (p : DateTime) (word : List UInt8) : Option (Option DateTime) := do
  let p ← computeYMD p
  let p := { p with validHMS := true, h := 0, m := 0, s := 0, validTZ := false, validJD := false }
  if word = Unit.name .month then return some { p with D := 1 }
  else if word = Unit.name .year then return some { p with M := 1, D := 1 }
  else if word = Unit.name .day then return some p
  else return none

def unixepoch (p : DateTime) : Option DateTime := do
  let iJD ← i64 ((← i64 (p.iJD + 43200)).tdiv 86400 + 210866760000000)
  return clearYMD_HMS_TZ { p with iJD }

def localtime (osLocaltime : ℤ → Option Tm) (p : DateTime) : Option (Option DateTime) := do
  let p ← computeJD p
  match ← localtimeOffset osLocaltime p with
  | none => return none
  | some c => return some (clearYMD_HMS_TZ { p with iJD := ← i64 (p.iJD + c) })

def utc (osLocaltime : ℤ → Option Tm) (p : DateTime) : Option (Option DateTime) := do
  let p ← computeJD p
  match ← localtimeOffset osLocaltime p with
  | none => return none
  | some c1 =>
    let p := clearYMD_HMS_TZ { p with iJD := ← i64 (p.iJD - c1) }
    match ← localtimeOffset osLocaltime p with
    | none => return none
    | some c2 => return some { p with iJD := ← i64 (p.iJD + (← i64 (c1 - c2))) }

/-- What a text asks for. -/
inductive Modifier
  | localtime
  | unixepoch
  | utc
  | weekday (r : ℚ)
  | startOf (word : List UInt8)
  | addTime (z : List UInt8)
  | addUnits (r : ℚ) (z : List UInt8)

def localtimeWord : List UInt8 :=
  [ch 'l', ch 'o', ch 'c', ch 'a', ch 'l', ch 't', ch 'i', ch 'm', ch 'e']

def unixepochWord : List UInt8 :=
  [ch 'u', ch 'n', ch 'i', ch 'x', ch 'e', ch 'p', ch 'o', ch 'c', ch 'h']

def utcWord : List UInt8 := [ch 'u', ch 't', ch 'c']

def weekdayWord : List UInt8 := [ch 'w', ch 'e', ch 'e', ch 'k', ch 'd', ch 'a', ch 'y', ch ' ']

def startOfWord : List UInt8 :=
  [ch 's', ch 't', ch 'a', ch 'r', ch 't', ch ' ', ch 'o', ch 'f', ch ' ']

/-- The case of `parseModifier` that the text leads to; `none` if it is none. -/
def modifierOf (zMod : List UInt8) : Option Modifier :=
  let z := zBuf zMod
  if z = localtimeWord then some .localtime
  else if z = unixepochWord then some .unixepoch
  else if z = utcWord then some .utc
  else if z.take 8 = weekdayWord then (sqlite3AtoF (z.drop 8)).map .weekday
  else if z.take 9 = startOfWord then some (.startOf (z.drop 9))
  else
    match z with
    | [] => none
    | c :: _ =>
      if c = ch '+' ∨ c = ch '-' ∨ sqlite3Isdigit c then
        (amount z).bind fun (r, rest) =>
          if rest.head? = some (ch ':') then some (.addTime z) else (unitText rest).map (.addUnits r)
      else none

/-- The outer result is `none` where an operation overflows, the inner one if the modifier is not
accepted. -/
def applyModifier (osLocaltime : ℤ → Option Tm) (p : DateTime) : Modifier → Option (Option DateTime)
  | .localtime => localtime osLocaltime p
  | .unixepoch => if p.validJD then (unixepoch p).map some else some none
  | .utc => utc osLocaltime p
  | .weekday r => do
    let n ← int (trunc r)
    if (n : ℚ) = r ∧ n ≥ 0 ∧ r < 7 then return some (← weekday p n) else return none
  | .startOf word => startOf p word
  | .addTime z => addTime p z
  | .addUnits r z => addUnits p r z

def parseModifier (osLocaltime : ℤ → Option Tm) (zMod : List UInt8) (p : DateTime) :
    Option (Option DateTime) :=
  match modifierOf zMod with
  | none => some none
  | some m => applyModifier osLocaltime p m

end Sqlite.Date

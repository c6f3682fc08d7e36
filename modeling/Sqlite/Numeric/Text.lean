import Sqlite.Foundation.Scan
import Sqlite.Numeric.Int64
import Sqlite.Utf.Model

/-! Numbers as text (`util.c`). A pointer is the list of the bytes from it to the end of the text,
and steps by one byte, or by two in UTF-16. -/
namespace Sqlite.Numeric

open Foundation Utf

def ch (c : Char) : UInt8 := .ofNat c.toNat

def sqlite3CtypeMap : List ℕ := [
  0x00, 0x00, 0x00, 0x00, 0x00, 0x00, 0x00, 0x00,
  0x00, 0x01, 0x01, 0x01, 0x01, 0x01, 0x00, 0x00,
  0x00, 0x00, 0x00, 0x00, 0x00, 0x00, 0x00, 0x00,
  0x00, 0x00, 0x00, 0x00, 0x00, 0x00, 0x00, 0x00,
  0x01, 0x00, 0x00, 0x00, 0x40, 0x00, 0x00, 0x00,
  0x00, 0x00, 0x00, 0x00, 0x00, 0x00, 0x00, 0x00,
  0x0c, 0x0c, 0x0c, 0x0c, 0x0c, 0x0c, 0x0c, 0x0c,
  0x0c, 0x0c, 0x00, 0x00, 0x00, 0x00, 0x00, 0x00,
  0x00, 0x0a, 0x0a, 0x0a, 0x0a, 0x0a, 0x0a, 0x02,
  0x02, 0x02, 0x02, 0x02, 0x02, 0x02, 0x02, 0x02,
  0x02, 0x02, 0x02, 0x02, 0x02, 0x02, 0x02, 0x02,
  0x02, 0x02, 0x02, 0x00, 0x00, 0x00, 0x00, 0x40,
  0x00, 0x2a, 0x2a, 0x2a, 0x2a, 0x2a, 0x2a, 0x22,
  0x22, 0x22, 0x22, 0x22, 0x22, 0x22, 0x22, 0x22,
  0x22, 0x22, 0x22, 0x22, 0x22, 0x22, 0x22, 0x22,
  0x22, 0x22, 0x22, 0x00, 0x00, 0x00, 0x00, 0x00] ++ List.replicate 128 0x40

def sqlite3Isspace (x : UInt8) : Bool := sqlite3CtypeMap.getD x.toNat 0 &&& 0x01 ≠ 0

def sqlite3Isdigit (x : UInt8) : Bool := sqlite3CtypeMap.getD x.toNat 0 &&& 0x04 ≠ 0

def incrOf (enc : Enc) : ℕ := if enc = .SQLITE_UTF8 then 1 else 2

def startOf (z : List UInt8) (enc : Enc) : List UInt8 := if enc = .SQLITE_UTF16BE then z.drop 1 else z

/-- `while( z<zEnd && p(*z) ) z+=incr`. -/
def skip (p : UInt8 → Bool) (incr : ℕ) (z : List UInt8) : List UInt8 :=
  (scan (fun (_ : Unit) b => p b) (fun _ _ => ()) incr z ()).1

/-- The sign, and the pointer behind it. -/
def readSign (incr : ℕ) : List UInt8 → Bool × List UInt8
  | [] => (false, [])
  | b :: t =>
    if b = ch '-' then (true, t.drop (incr - 1))
    else if b = ch '+' then (false, t.drop (incr - 1))
    else (false, b :: t)

/-! Integers. -/

def pow63 : List UInt8 := [ch '9', ch '2', ch '2', ch '3', ch '3', ch '7', ch '2', ch '0', ch '3',
  ch '6', ch '8', ch '5', ch '4', ch '7', ch '7', ch '5', ch '8', ch '0']

/-- The loop from `i` on, with `n` characters to go. -/
def compareLoop (zNum : List UInt8) (incr : ℕ) : ℕ → ℕ → ℤ
  | 0, _ => 0
  | n + 1, i =>
    let c : ℤ := ((zNum.getD (i * incr) 0).toNat - (pow63.getD i 0).toNat) * 10
    if c = 0 then compareLoop zNum incr n (i + 1) else c

def compare2pow63 (zNum : List UInt8) (incr : ℕ) : ℤ :=
  let c := compareLoop zNum incr 18 0
  if c = 0 then (zNum.getD (18 * incr) 0).toNat - (ch '8').toNat else c

/-- The value of 64 bits and the offset in the loop over the digits. -/
def digitsLoop (incr : ℕ) (zNum : List UInt8) : List UInt8 × ℕ × ℕ :=
  scan (fun _ c => ch '0' ≤ c ∧ c ≤ ch '9')
    (fun r c => ((r.1 * 10 + c.toNat - (ch '0').toNat) % 2 ^ 64, r.2 + incr)) incr zNum (0, 0)

/-- `c!=0 && &zNum[i]<zEnd`, where `c` is the character the loop ends at. -/
def extraneous : List UInt8 → Bool
  | [] => false
  | c :: _ => c ≠ 0

/-- The return code and `*pNum`. -/
def atoi64 (incr : ℕ) (z : List UInt8) : ℕ × ℤ :=
  let sign := readSign incr (skip sqlite3Isspace incr z)
  let zNum := skip (fun b => b = ch '0') incr sign.2
  let r := digitsLoop incr zNum
  let u := r.2.1
  let i := r.2.2
  let pNum : ℤ := if (u : ℤ) > LARGEST_INT64 then SMALLEST_INT64 else if sign.1 then -u else u
  if extraneous r.1 ∨ (i = 0 ∧ sign.2 = zNum) ∨ i > 19 * incr then (1, pNum)
  else if i < 19 * incr then (0, pNum)
  else
    let c := compare2pow63 zNum incr
    if c < 0 then (0, pNum) else if c > 0 then (1, pNum) else (if sign.1 then 0 else 2, pNum)

def sqlite3Atoi64 (zNum : List UInt8) (enc : Enc) : ℕ × ℤ := atoi64 (incrOf enc) (startOf zNum enc)

/-! Real numbers. The computation in floating point is left out: the result is `s` and `e` as it
begins and as its loops end. -/

/-- An operation on an `int`. -/
def int (x : ℤ) : Arith ℤ := ⟨Int.bmod x (2 ^ 32), decide (-2 ^ 31 ≤ x ∧ x < 2 ^ 31)⟩

structure Parsed where
  s : ℤ
  d : ℤ
  e : ℤ
  eValid : Bool
  nDigits : ℤ
  deriving DecidableEq

def loop (cond : Parsed → UInt8 → Bool) (body : Parsed → UInt8 → Arith Parsed) (incr : ℕ)
    (z : List UInt8) (m : Arith Parsed) : List UInt8 × Arith Parsed :=
  scan (fun m b => cond m.value b) (fun m b => m >>= fun p => body p b) incr z m

def digit (b : UInt8) : ℤ := b.toNat - (ch '0').toNat

def countDigit (p : Parsed) (_ : UInt8) : Arith Parsed := do
  return { p with nDigits := ← int (p.nDigits + 1) }

/-- `s = s*10 + (*z - '0')`. -/
def addDigit (p : Parsed) (b : UInt8) : Arith Parsed := do
  let t ← i64 (p.s * 10)
  return { p with s := ← i64 (t + digit b) }

def shift (k : ℤ) (p : Parsed) : Arith Parsed := do
  return { p with d := ← int (p.d + k) }

def addExponent (p : Parsed) (b : UInt8) : Arith Parsed :=
  if p.e < 10000 then do
    let t ← int (p.e * 10)
    return { p with e := ← int (t + digit b), eValid := true }
  else return { p with e := 10000, eValid := true }

def hasRoom (p : Parsed) (b : UInt8) : Bool := sqlite3Isdigit b ∧ p.s < (LARGEST_INT64 - 9) / 10

def isDigit (_ : Parsed) (b : UInt8) : Bool := sqlite3Isdigit b

/-- The digits in front of the decimal point. -/
def integerPart (incr : ℕ) (z : List UInt8) (m : Arith Parsed) : List UInt8 × Arith Parsed :=
  let r := loop (fun _ b => b = ch '0') countDigit incr z m
  let r := loop hasRoom (fun p b => addDigit p b >>= fun p => countDigit p b) incr r.1 r.2
  loop isDigit (fun p b => countDigit p b >>= shift 1) incr r.1 r.2

/-- The decimal point and the digits behind it. At the end of the text this does nothing, nor do the
parts below: the function jumps over them. -/
def fractionPart (incr : ℕ) (z : List UInt8) (m : Arith Parsed) : List UInt8 × Arith Parsed :=
  match z with
  | [] => ([], m)
  | b :: t =>
    if b = ch '.' then
      let r := loop hasRoom (fun p b => addDigit p b >>= fun p => countDigit p b >>= shift (-1)) incr
        (t.drop (incr - 1)) m
      loop isDigit countDigit incr r.1 r.2
    else (b :: t, m)

/-- The exponent; the first result says that it is negative. -/
def exponentPart (incr : ℕ) (z : List UInt8) (m : Arith Parsed) :
    Bool × List UInt8 × Arith Parsed :=
  match z with
  | [] => (false, [], m)
  | b :: t =>
    if b = ch 'e' ∨ b = ch 'E' then
      let sign := readSign incr (t.drop (incr - 1))
      (sign.1, loop isDigit addExponent incr sign.2
        (m >>= fun p => return { p with eValid := false }))
    else (false, b :: t, m)

/-- The loops that make the exponent small: `s` and `e`. -/
def reduceLoop (n : ℕ) (esign : ℤ) (m : Arith (ℤ × ℤ)) : Option (Arith (ℤ × ℤ)) :=
  if esign > 0 then
    whileLoop (fun m => m.value.1 < LARGEST_INT64 / 10 ∧ m.value.2 > 0)
      (fun m => do return (← i64 ((← m).1 * 10), ← int ((← m).2 - 1))) n m
  else
    whileLoop (fun m => m.value.1.tmod 10 = 0 ∧ m.value.2 > 0)
      (fun m => do return (← i64 ((← m).1.tdiv 10), ← int ((← m).2 - 1))) n m

/-- `while( e%k ){ scale *= 1.0e+1; e -= 1; }` -/
def stepLoop (n : ℕ) (k : ℤ) (m : Arith ℤ) : Option (Arith ℤ) :=
  whileLoop (fun m => m.value.tmod k ≠ 0) (fun m => do int ((← m) - 1)) n m

/-- The loops over `e` that multiply the scale: `e` behind them. -/
def scaleLoops (n : ℕ) (m : Arith ℤ) : Option (Arith ℤ) :=
  if m.value = 0 then some m
  else if 307 < m.value ∧ m.value < 342 then stepLoop n 308 m
  else if m.value ≥ 342 then some m
  else (stepLoop n 22 m).bind fun m =>
    whileLoop (fun m => m.value > 0) (fun m => do int ((← m) - 22)) n m

structure Scaled where
  s : ℤ
  e : ℤ
  /-- `e` after the loops over it. -/
  rest : ℤ
  deriving DecidableEq

/-- `e = (e*esign) + d`, made positive: `esign` and `e`. -/
def adjust (eneg : Bool) (m : Arith Parsed) : ℤ × Arith ℤ :=
  let e : Arith ℤ := do
    let p ← m
    let t ← int (p.e * if eneg then -1 else 1)
    int (t + p.d)
  if e.value < 0 then (-1, e >>= fun e => int (e * -1)) else (1, e)

/-- From `do_atof_calc` on. -/
def atofCalc (n : ℕ) (neg eneg : Bool) (m : Arith Parsed) : Option (Arith Scaled) :=
  let e := adjust eneg m
  if m.value.s = 0 then some (e.2 >>= fun e => return ⟨0, e, e⟩)
  else
    (reduceLoop n e.1 (e.2 >>= fun e => return (m.value.s, e))).bind fun r =>
      let r : Arith (ℤ × ℤ) := r >>= fun p =>
        if neg then do return (← i64 (-p.1), p.2) else return p
      (scaleLoops n (r >>= fun p => return p.2)).map fun rest =>
        r >>= fun p => rest >>= fun rest => return ⟨p.1, p.2, rest⟩

/-- What the function returns, and the number that it computes with. -/
structure Atof where
  ret : Bool
  number : Scaled
  deriving DecidableEq

/-- The pointer, the variables and the two signs at `do_atof_calc`. -/
def atofScan (incr : ℕ) (z : List UInt8) : List UInt8 × Arith Parsed × Bool × Bool :=
  let sign := readSign incr z
  let r := integerPart incr sign.2 (pure ⟨0, 0, 0, true, 0⟩)
  let r := fractionPart incr r.1 r.2
  let x := exponentPart incr r.1 r.2
  let z := if x.2.2.value.nDigits ≠ 0 ∧ x.2.2.value.eValid = true then
    skip sqlite3Isspace incr x.2.1 else x.2.1
  (z, x.2.2, sign.1, x.1)

/-- The loops of the computation take at most `n` tests each. -/
def atof (n incr : ℕ) (z : List UInt8) : Option (Arith Atof) :=
  let z := skip sqlite3Isspace incr z
  if z = [] then some (pure ⟨false, ⟨0, 0, 0⟩⟩)
  else
    let r := atofScan incr z
    (atofCalc n r.2.2.1 r.2.2.2 r.2.1).map fun m =>
      m >>= fun x => r.2.1 >>= fun p => return ⟨r.1 = [] ∧ p.nDigits > 0 ∧ p.eValid, x⟩

def sqlite3AtoF (n : ℕ) (z : List UInt8) (enc : Enc) : Option (Arith Atof) :=
  atof n (incrOf enc) (startOf z enc)

end Sqlite.Numeric

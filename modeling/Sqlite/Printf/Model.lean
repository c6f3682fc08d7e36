import Mathlib.Data.Nat.Digits.Defs
import Sqlite.Numeric.Text
import Sqlite.Foundation.Buffer

/-! The conversions of numbers in `sqlite3VXPrintf` (`printf.c`), on a machine with `long` and pointers of 64 bits.
Arguments are read as long as they are of the types that the conversions ask for. Of a real only what the
normalization to one digit before the decimal point gives is modelled. -/
namespace Sqlite.Printf

open Foundation (Pointer slice)
open Numeric (ch)

/-- What ends the function before its end: an `int` that overflows, an access outside of a block, or a `return`. -/
inductive Stop
  | overflow
  | outside
  | returned
  deriving DecidableEq

def int (x : ℤ) : Except Stop ℤ := if -2 ^ 31 ≤ x ∧ x < 2 ^ 31 then .ok x else .error .overflow

def inside {α : Type} (o : Option α) : Except Stop α := o.elim (.error .outside) .ok

/-! The table of conversions, without those of texts. -/

inductive Xtype
  | etRADIX
  | etFLOAT
  | etEXP
  | etGENERIC
  | etPOINTER
  | etORDINAL
  deriving DecidableEq

def FLAG_SIGNED : ℕ := 1

structure Info where
  fmttype : UInt8
  base : ℕ
  flags : ℕ
  type : Xtype
  charset : ℕ
  pre : ℕ

def aDigits : List UInt8 := "0123456789ABCDEF0123456789abcdef".toList.map ch

def aPrefix : List UInt8 := [ch '-', ch 'x', ch '0', 0, ch 'X', ch '0', 0]

def fmtinfo : List Info := [
  ⟨ch 'd', 10, 1, .etRADIX, 0, 0⟩,
  ⟨ch 'g', 0, 1, .etGENERIC, 30, 0⟩,
  ⟨ch 'o', 8, 0, .etRADIX, 0, 2⟩,
  ⟨ch 'u', 10, 0, .etRADIX, 0, 0⟩,
  ⟨ch 'x', 16, 0, .etRADIX, 16, 1⟩,
  ⟨ch 'X', 16, 0, .etRADIX, 0, 4⟩,
  ⟨ch 'f', 0, 1, .etFLOAT, 0, 0⟩,
  ⟨ch 'e', 0, 1, .etEXP, 30, 0⟩,
  ⟨ch 'E', 0, 1, .etEXP, 14, 0⟩,
  ⟨ch 'G', 0, 1, .etGENERIC, 14, 0⟩,
  ⟨ch 'i', 10, 1, .etRADIX, 0, 0⟩,
  ⟨ch 'p', 16, 0, .etPOINTER, 0, 1⟩,
  ⟨ch 'r', 10, 3, .etORDINAL, 0, 0⟩]

/-! Arguments. -/

/-- A number with one digit before the decimal point. The numbers that `%e` and `%g` convert are then rounded,
which may carry to ten; those of `%f` have been rounded before. -/
structure Real where
  negative : Bool
  exp : ℤ
  carry : Bool
  digit : ℕ → Fin 10
  range : -5000 ≤ exp ∧ exp ≤ 5000

/-- An argument; a real is `none` if it is no number. -/
inductive Arg
  | int (v : BitVec 32)
  | int64 (v : BitVec 64)
  | real (v : Option Real)

/-- The next argument, as what `get` makes of it. -/
def va {α : Type} (get : Arg → Option α) : List Arg → Except Stop (α × List Arg)
  | [] => .error .returned
  | a :: args => (get a).elim (.error .returned) fun x => .ok (x, args)

/-- An integer, as a signed and as an unsigned number. -/
def Arg.asInteger (long : Bool) : Arg → Option (ℤ × ℕ)
  | int v => if long then none else some (v.toInt, v.toNat)
  | int64 v => if long then some (v.toInt, v.toNat) else none
  | _ => none

def Arg.asReal : Arg → Option (Option Real)
  | real v => some v
  | _ => none

/-! Blocks. -/

def etBUFSIZE : ℕ := 70

/-- What is in a new block does not matter. -/
def newBlock (n : ℕ) : List UInt8 := List.replicate n 0

def buf : List UInt8 := newBlock etBUFSIZE

/-- A block of the heap; the function returns if there is none. -/
def sqlite3Malloc (grants : ℤ → Bool) (n : ℤ) : Except Stop (List UInt8) :=
  if n ≤ 0 ∨ n ≥ 0x7fffff00 ∨ grants n = false then .error .returned else .ok (newBlock n.toNat)

/-- The block of a conversion: `buf`, unless it needs one of `n` bytes. -/
def allocate (grants : ℤ → Bool) (big : Bool) (n : ℤ) : Except Stop (List UInt8) :=
  if big then do sqlite3Malloc grants (← int n) else .ok buf

/-- The text that is handed to the code behind the `switch`, in a block from `bufpt` on. -/
structure Item where
  block : List UInt8
  bufpt : ℤ
  length : ℤ
  width : ℤ

structure Flags where
  leftjustify : Bool := false
  plussign : Bool := false
  blanksign : Bool := false
  alternateform : Bool := false
  altform2 : Bool := false
  zeropad : Bool := false

/-- The variables in front of the `switch`. -/
structure Spec where
  flags : Flags
  width : ℤ
  precision : ℤ
  long : Bool
  info : Info

/-! Integers. -/

/-- The characters of the loop that converts an integer, the last digit first. -/
def radixDigits (cset : List UInt8) (base n : ℕ) : List UInt8 :=
  if n = 0 then [cset.getD 0 0] else (Nat.digits base n).map fun d => cset.getD d 0

/-- The two letters behind an ordinal number, the last first. -/
def ordinalSuffix (n : ℕ) : List UInt8 :=
  let zOrd := "thstndrd".toList.map ch
  let x := n % 10
  let x := if x ≥ 4 ∨ n / 10 % 10 = 1 then 0 else x
  [zOrd.getD (x * 2 + 1) 0, zOrd.getD (x * 2) 0]

/-- The prefix character, if there is one. -/
def signPrefix (flags : Flags) (negative : Bool) : List UInt8 :=
  if negative then [ch '-']
  else if flags.plussign then [ch '+']
  else if flags.blanksign then [ch ' ']
  else []

def radixCase (grants : ℤ → Bool) (s : Spec) (args : List Arg) : Except Stop (Item × List Arg) := do
  let ((v, u), args) ← va (Arg.asInteger (s.long || s.info.type = .etPOINTER)) args
  let signed : Prop := s.info.flags &&& FLAG_SIGNED ≠ 0
  let longvalue := if signed then v.natAbs else u
  let pre := if signed then signPrefix s.flags (v < 0) else []
  let alternateform := s.flags.alternateform && longvalue ≠ 0
  let room ← int (s.width - pre.length)
  let precision := if s.flags.zeropad ∧ s.precision < room then room else s.precision
  let zOut ← allocate grants (precision ≥ etBUFSIZE - 10) (precision + 10)
  let bufpt : Pointer UInt8 := ⟨zOut, zOut.length - 1⟩
  let bufpt ← inside (bufpt.pushBack (if s.info.type = .etORDINAL then ordinalSuffix longvalue else []))
  let bufpt ← inside (bufpt.pushBack (radixDigits (aDigits.drop s.info.charset) s.info.base longvalue))
  let length := zOut.length - 1 - bufpt.pos
  let bufpt ← inside (bufpt.pushBack (List.replicate (precision - length).toNat (ch '0')))
  let bufpt ← inside (bufpt.pushBack pre)
  let bufpt ← inside (bufpt.pushBack (if alternateform ∧ s.info.pre ≠ 0 then
    (aPrefix.drop s.info.pre).takeWhile (· ≠ 0) else []))
  return (⟨bufpt.block, bufpt.pos, zOut.length - 1 - bufpt.pos, s.width⟩, args)

/-! Reals. -/

/-- The `k`-th call of `et_getdigit`. -/
def et_getdigit (v : Real) (nsd k : ℕ) : UInt8 := if k < nsd then ch '0' + .ofNat (v.digit k) else ch '0'

/-- The digits behind the decimal point. -/
def decimals (v : Real) (nsd : ℕ) (e2 precision : ℤ) : List UInt8 :=
  let zeros := (-(e2 + 1)).toNat
  List.replicate zeros (ch '0') ++
    (List.range (precision - zeros).toNat).map fun k => et_getdigit v nsd ((e2 + 1).toNat + k)

/-- The character at `i`. -/
def read (z : List UInt8) (i : ℤ) : Except Stop UInt8 :=
  inside (if 0 ≤ i then z[i.toNat]? else none)

/-- `while( bufpt[-1]=='0' ) *(--bufpt) = 0`, for at most as many characters as there are in front. -/
def stripLoop : ℕ → Pointer UInt8 → Except Stop (Pointer UInt8)
  | 0, _ => .error .outside
  | n + 1, p => do
    if (← read p.block (p.pos - 1)) = ch '0' then stripLoop n (← inside (p.back 0)) else return p

/-- Trailing zeros and the decimal point. -/
def removeZeros (altform2 : Bool) (p : Pointer UInt8) : Except Stop (Pointer UInt8) := do
  let p ← stripLoop (p.pos.toNat + 1) p
  if (← read p.block (p.pos - 1)) = ch '.' then inside (if altform2 then p.forth (ch '0') else p.back 0)
  else return p

/-- The suffix of an exponent. -/
def expSuffix (letter : UInt8) (exp : ℤ) : List UInt8 :=
  let e := exp.natAbs
  [letter, if exp < 0 then ch '-' else ch '+'] ++
    (if e ≥ 100 then [ch '0' + .ofNat (e / 100)] else []) ++
    [ch '0' + .ofNat (e % 100 / 10), ch '0' + .ofNat (e % 100 % 10)]

/-- The loop that moves a number `nPad` to the right, for the `k` first of its characters. -/
def shiftLoop (nPad : ℤ) : ℕ → List UInt8 → Except Stop (List UInt8)
  | 0, z => .ok z
  | k + 1, z => do
    let p ← inside (Pointer.write ⟨z, 0⟩ (nPad + k) (← read z k))
    shiftLoop nPad k p.block

/-- The zero byte, and zeros in front of the digits if they fill the width. -/
def padZeros (s : Spec) (pre : List UInt8) (bufpt : Pointer UInt8) : Except Stop Item := do
  let length := bufpt.pos
  let bufpt ← inside (bufpt.forth 0)
  if s.flags.zeropad ∧ ¬s.flags.leftjustify ∧ length < s.width then
    let nPad := s.width - length
    let z ← shiftLoop nPad (length.toNat + 1) bufpt.block
    let bufpt ← inside (Pointer.push ⟨z, pre.length⟩ (List.replicate nPad.toNat (ch '0')))
    return ⟨bufpt.block, 0, s.width, s.width⟩
  else return ⟨bufpt.block, 0, length, s.width⟩

/-- The digits in front of the decimal point. -/
def wholeDigits (v : Real) (nsd : ℕ) (e2 : ℤ) : List UInt8 :=
  if e2 < 0 then [ch '0'] else (List.range (e2 + 1).toNat).map (et_getdigit v nsd)

/-- The number of significant digits. -/
def nsdOf (s : Spec) : ℕ := 16 + if s.flags.altform2 then 10 else 0

def flag_dp (s : Spec) (precision : ℤ) : Bool := precision > 0 || s.flags.alternateform || s.flags.altform2

/-- The characters of a number up to its exponent. -/
def realText (s : Spec) (v : Real) (precision e2 : ℤ) : List UInt8 :=
  signPrefix s.flags v.negative ++ wholeDigits v (nsdOf s) e2 ++ (if flag_dp s precision then [ch '.'] else []) ++
    decimals v (nsdOf s) e2 precision

/-- Writes the number into its block. -/
def writeReal (s : Spec) (v : Real) (xtype : Xtype) (precision exp e2 : ℤ) (flag_rtz : Bool)
    (zOut : List UInt8) :
    Except Stop Item := do
  let bufpt ← inside (Pointer.push ⟨zOut, 0⟩ (realText s v precision e2))
  let bufpt ← (if flag_rtz ∧ flag_dp s precision then removeZeros s.flags.altform2 bufpt else .ok bufpt)
  let bufpt ← inside (bufpt.push (if xtype = .etEXP then expSuffix (aDigits.getD s.info.charset 0) exp else []))
  padZeros s (signPrefix s.flags v.negative) bufpt

/-- A zero-terminated text that is in no block of its own. -/
def constant (z : List UInt8) (width : ℤ) : Item := ⟨z ++ [0], 0, z.length, width⟩

def floatCase (grants : ℤ → Bool) (s : Spec) (v : Real) : Except Stop Item := do
  let precision := if s.precision < 0 then 6 else s.precision
  let precision := if s.info.type = .etGENERIC ∧ precision > 0 then precision - 1 else precision
  if v.exp > 350 then
    return constant ((signPrefix s.flags v.negative).filter (· ≠ ch ' ') ++ [ch 'I', ch 'n', ch 'f']) s.width
  else
    let exp := if s.info.type ≠ .etFLOAT ∧ v.carry then v.exp + 1 else v.exp
    let xtype := if s.info.type = .etGENERIC then if exp < -4 ∨ exp > precision then .etEXP else .etFLOAT
      else s.info.type
    let precision ← (if s.info.type = .etGENERIC ∧
      xtype = .etFLOAT then int (precision - exp) else .ok precision)
    let flag_rtz := if s.info.type = .etGENERIC then !s.flags.alternateform else s.flags.altform2
    let e2 := if xtype = .etEXP then 0 else exp
    let size ← int ((← int (e2 + precision)) + s.width)
    let zOut ← allocate grants (size > etBUFSIZE - 15) (size + 15)
    writeReal s v xtype precision exp e2 flag_rtz zOut

def sqlite3Strlen30 (z : List UInt8) : ℤ := (z.takeWhile (· ≠ 0)).length % 0x40000000

/-- The bytes that `sqlite3StrAccumAppend(p, z, N)` copies, for a `z` with the block behind it. -/
def append (z : List UInt8) (i N : ℤ) : Except Stop (List UInt8) :=
  if N < 0 then
    if 0 ∈ z.drop i.toNat then inside (slice z i (sqlite3Strlen30 (z.drop i.toNat))) else .error .outside
  else inside (slice z i N)

def zSpaces : List UInt8 := List.replicate 29 (ch ' ')

def sqlite3AppendSpace (N : ℤ) : Except Stop (List UInt8) := do
  if N > 0 then
    let whole ← append (zSpaces ++ [0]) 0 29
    let rest ← append (zSpaces ++ [0]) 0 (N % 29)
    return (List.replicate (N / 29).toNat whole).flatten ++ rest
  else return []

/-- The code behind the `switch`. -/
def output (flags : Flags) (item : Item) : Except Stop (List UInt8) := do
  let spaces ← sqlite3AppendSpace (← int (item.width - item.length))
  let text ← (if item.length > 0 then append item.block item.bufpt item.length else .ok [])
  return if flags.leftjustify then text ++ spaces else spaces ++ text

/-- The `switch`: what the code behind it gets. -/
def convert (grants : ℤ → Bool) (s : Spec) (args : List Arg) : Except Stop (Item × List Arg) :=
  match s.info.type with
  | .etPOINTER | .etORDINAL | .etRADIX => radixCase grants s args
  | .etFLOAT | .etEXP | .etGENERIC => do
    let (v, args) ← va Arg.asReal args
    return (← v.elim (.ok (constant [ch 'N', ch 'a', ch 'N'] s.width)) (floatCase grants s), args)

/-- The body of the loop from the `switch` on: what it appends, and the arguments behind. -/
def conversion (grants : ℤ → Bool) (s : Spec) (args : List Arg) : Except Stop (List UInt8 × List Arg) := do
  let (item, args) ← convert grants s args
  return (← output s.flags item, args)

end Sqlite.Printf

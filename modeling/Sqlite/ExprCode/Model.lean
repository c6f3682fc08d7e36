import Mathlib
import Sqlite.Foundation.Program

/-! The code generator for expressions (`expr.c`): registers, the column cache and the jumps of boolean
expressions; and what the instructions do that it generates (`vdbe.c`). Subqueries, `IN`, aggregates, casts
and the columns of triggers and of `CHECK` constraints are left out. -/
namespace Sqlite.ExprCode

open Foundation (Dest Program)

/-! Values. -/

inductive Cmp
  | lt
  | le
  | gt
  | ge
  | ne
  | eq
  deriving DecidableEq

/-- The `switch` over the opcodes of comparisons. -/
def Cmp.res : Cmp → ℤ → Bool
  | eq, res => res = 0
  | ne, res => res ≠ 0
  | lt, res => res < 0
  | le, res => res ≤ 0
  | gt, res => res > 0
  | ge, res => res ≥ 0

/-- `((pExpr->op+(TK_ISNULL&1))^1)-(TK_ISNULL&1)` -/
def Cmp.opposite : Cmp → Cmp
  | ne => eq
  | eq => ne
  | gt => le
  | le => gt
  | ge => lt
  | lt => ge

inductive Binary
  | plus
  | star
  | minus
  | rem
  | bitAnd
  | bitOr
  | slash
  | lShift
  | rShift
  | concat
  deriving DecidableEq

/-- The opcodes that give both operands numeric affinity: `OP_Add`, `OP_Subtract`, `OP_Multiply`, `OP_Divide` and
`OP_Remainder`. -/
def Binary.arithmetic : Binary → Bool
  | plus | minus | star | slash | rem => true
  | _ => false

/-- Values and what is computed from them. `C` are the affinities and collating sequences of comparisons, `F` the
functions. -/
structure Scalars (V C F : Type) where
  null : V
  int : ℤ → V
  isNull : V → Bool
  /-- `sqlite3VdbeIntValue` -/
  intValue : V → ℤ
  /-- `sqlite3VdbeRealValue(pMem)!=0.0` -/
  isTrue : V → Bool
  /-- `sqlite3MemCompare` behind `applyAffinity` -/
  compare : C → V → V → ℤ
  /-- `applyNumericAffinity` -/
  numeric : V → V
  /-- Of operands that have numeric affinity, where the opcode gives it. -/
  binary : Binary → V → V → V
  bitNot : V → V
  realAffinity : V → V
  function : F → List V → V
  isNull_null : isNull null = true
  isNull_int (n : ℤ) : isNull (int n) = false
  intValue_int (n : ℤ) : intValue (int n) = n
  isTrue_int (n : ℤ) : isTrue (int n) = decide (n ≠ 0)

/-! Expressions. -/

/-- A comparison with a register gets the affinity and the collating sequence from the expression `of` whose value
is in it. A number comes with its negative. -/
inductive Expr (V F : Type)
  | null
  | integer (iValue : ℤ)
  | number (v neg : V)
  | literal (v : V)
  | variable (iColumn : ℕ)
  | column (iTable : ℕ) (iColumn : ℤ)
  | register (iTable : ℕ) (of : Expr V F)
  | compare (op : Cmp) (pLeft pRight : Expr V F)
  | is (pLeft pRight : Expr V F)
  | isNot (pLeft pRight : Expr V F)
  | and (pLeft pRight : Expr V F)
  | or (pLeft pRight : Expr V F)
  | binary (op : Binary) (pLeft pRight : Expr V F)
  | uminus (pLeft : Expr V F)
  | uplus (pLeft : Expr V F)
  | bitNot (pLeft : Expr V F)
  | not (pLeft : Expr V F)
  | isNull (pLeft : Expr V F)
  | notNull (pLeft : Expr V F)
  | between (pLeft pLow pHigh : Expr V F)
  | coalesce (pFirst : Expr V F) (pFarg : List (Expr V F))
  | function (pDef : F) (pFarg : List (Expr V F))
  | case (pLeft : Option (Expr V F)) (pEList : List (Expr V F × Expr V F)) (pRight : Option (Expr V F))

structure Table where
  iPKey : ℤ
  /-- Whether the affinity of a column is `SQLITE_AFF_REAL`. -/
  isReal : ℤ → Bool

/-- What the generator knows: the tables of the cursors, and what `sqlite3BinaryCompareCollSeq` and
`binaryCompareP5` make of the operands of a comparison, for which the number of a register does not matter. -/
structure Schema (V C F : Type) where
  pTab : ℕ → Table
  compareInfo : Expr V F → Expr V F → C
  info_register (i j : ℕ) (x e : Expr V F) : compareInfo (.register i x) e = compareInfo (.register j x) e
  /-- `pDef->flags & (SQLITE_FUNC_LENGTH|SQLITE_FUNC_TYPEOF)` -/
  op2 : F → Bool

/-! Instructions. -/

/-- `P2` of a comparison: a register, with `SQLITE_STOREP2`, or a target, with or without `SQLITE_JUMPIFNULL`. -/
inductive P2
  | store (r : ℕ)
  | jump (d : Dest) (jumpIfNull : Bool)

inductive Op (V C F : Type)
  | goto (p2 : Dest)
  | integer (p1 : ℤ) (p2 : ℕ)
  /-- `OP_Int64`, `OP_Real`, `OP_String8` and `OP_Blob` -/
  | constant (p2 : ℕ) (p4 : V)
  | null (p2 : ℕ)
  | variable (p1 p2 : ℕ)
  /-- `P5` is given by the function that it comes from. -/
  | column (p1 : ℕ) (p2 : ℤ) (p3 : ℕ) (p5 : Option F)
  | rowid (p1 p2 : ℕ)
  | realAffinity (p1 : ℕ)
  | copy (p1 p2 : ℕ)
  | sCopy (p1 p2 : ℕ)
  | compare (op : Cmp) (p1 : ℕ) (p2 : P2) (p3 : ℕ) (p4 : C) (nullEq : Bool)
  | and (p1 p2 p3 : ℕ)
  | or (p1 p2 p3 : ℕ)
  | binary (op : Binary) (p1 p2 p3 : ℕ)
  | not (p1 p2 : ℕ)
  | bitNot (p1 p2 : ℕ)
  | if (p1 : ℕ) (p2 : Dest) (p3 : Bool)
  | ifNot (p1 : ℕ) (p2 : Dest) (p3 : Bool)
  | isNull (p1 : ℕ) (p2 : Dest)
  | notNull (p1 : ℕ) (p2 : Dest)
  | addImm (p1 : ℕ) (p2 : ℤ)
  | function (p2 p3 : ℕ) (p4 : F) (p5 : ℕ)

/-- The rows of the cursors, and the bound parameters. -/
structure Row {V C F : Type} (M : Scalars V C F) where
  column : ℕ → ℤ → V
  rowid : ℕ → V
  aVar : ℕ → V
  /-- A column with `OPFLAG_LENGTHARG` or `OPFLAG_TYPEOFARG`, whose content need not be loaded. What is read for a
  real must then be no NaN, which would be null for `typeof()`. -/
  header : F → ℕ → ℤ → V
  function_header (pDef : F) (i : ℕ) (j : ℤ) : M.function pDef [header pDef i j] = M.function pDef [column i j]

def and_logic : List ℕ := [0, 0, 0, 0, 1, 2, 0, 2, 2]

def or_logic : List ℕ := [0, 1, 2, 1, 1, 1, 2, 1, 2]

namespace Scalars

variable {V C F : Type} (M : Scalars V C F)

/-- 0 is false, 1 true and 2 unknown. -/
def logic (v : V) : ℕ := if M.isNull v then 2 else if M.intValue v ≠ 0 then 1 else 0

def ofLogic (v : ℕ) : V := if v = 2 then M.null else M.int v

def not (v : V) : V := if M.isNull v then M.null else M.int (if M.intValue v = 0 then 1 else 0)

/-- The result of a comparison of the third with the first operand, `none` for unknown. -/
def comparison (op : Cmp) (c : C) (nullEq : Bool) (v3 v1 : V) : Option Bool :=
  if M.isNull v1 ∨ M.isNull v3 then
    if nullEq then some (op.res (if M.isNull v1 ∧ M.isNull v3 then 0 else 1)) else none
  else some (op.res (M.compare c v3 v1))

def ofTruth : Option Bool → V
  | none => M.null
  | some b => M.int (if b then 1 else 0)

def operand (op : Binary) (v : V) : V := if op.arithmetic then M.numeric v else v

/-- What an instruction does with the registers, and where it goes. Numeric affinity stays in the registers of the
operands; the affinity of a comparison is undone, and the text that `OP_Concat` adds to a number is no other value. -/
def exec (row : Row M) (op : Op V C F) (aMem : ℕ → V) : Option Dest × (ℕ → V) :=
  match op with
  | .goto p2 => (some p2, aMem)
  | .integer p1 p2 => (none, Function.update aMem p2 (M.int p1))
  | .constant p2 p4 => (none, Function.update aMem p2 p4)
  | .null p2 => (none, Function.update aMem p2 M.null)
  | .variable p1 p2 => (none, Function.update aMem p2 (row.aVar p1))
  | .column p1 p2 p3 none => (none, Function.update aMem p3 (row.column p1 p2))
  | .column p1 p2 p3 (some pDef) => (none, Function.update aMem p3 (row.header pDef p1 p2))
  | .rowid p1 p2 => (none, Function.update aMem p2 (row.rowid p1))
  | .realAffinity p1 => (none, Function.update aMem p1 (M.realAffinity (aMem p1)))
  | .copy p1 p2 | .sCopy p1 p2 => (none, Function.update aMem p2 (aMem p1))
  | .compare op p1 p2 p3 p4 nullEq =>
    let res := M.comparison op p4 nullEq (aMem p3) (aMem p1)
    match p2 with
    | .store r => (none, Function.update aMem r (M.ofTruth res))
    | .jump d jumpIfNull => (if res.getD jumpIfNull then some d else none, aMem)
  | .and p1 p2 p3 => (none, Function.update aMem p3
      (M.ofLogic (and_logic.getD (M.logic (aMem p1) * 3 + M.logic (aMem p2)) 0)))
  | .or p1 p2 p3 => (none, Function.update aMem p3
      (M.ofLogic (or_logic.getD (M.logic (aMem p1) * 3 + M.logic (aMem p2)) 0)))
  | .binary op p1 p2 p3 =>
    let aMem := Function.update aMem p1 (M.operand op (aMem p1))
    let aMem := Function.update aMem p2 (M.operand op (aMem p2))
    (none, Function.update aMem p3 (M.binary op (aMem p2) (aMem p1)))
  | .not p1 p2 => (none, Function.update aMem p2 (M.not (aMem p1)))
  | .bitNot p1 p2 => (none, Function.update aMem p2 (M.bitNot (aMem p1)))
  | .if p1 p2 p3 => (if (if M.isNull (aMem p1) then p3 else M.isTrue (aMem p1)) then some p2 else none, aMem)
  | .ifNot p1 p2 p3 => (if (if M.isNull (aMem p1) then p3 else !M.isTrue (aMem p1)) then some p2 else none, aMem)
  | .isNull p1 p2 => (if M.isNull (aMem p1) then some p2 else none, aMem)
  | .notNull p1 p2 => (if M.isNull (aMem p1) then none else some p2, aMem)
  | .addImm p1 p2 => (none, Function.update aMem p1 (M.int (M.intValue (aMem p1) + p2)))
  | .function p2 p3 p4 p5 =>
    (none, Function.update aMem p3 (M.function p4 ((List.range p5).map fun i => aMem (p2 + i))))

end Scalars

/-! Registers and the column cache. -/

/-- An entry of the cache; the register 0 stands for none. -/
structure ColCache where
  iTable : ℕ
  iColumn : ℤ
  tempReg : Bool
  iLevel : ℕ
  iReg : ℕ
  lru : ℕ

/-- The registers of `aTempReg` stand the last first. -/
structure Parse (V C F : Type) where
  pVdbe : Program (Op V C F)
  nMem : ℕ
  aTempReg : List ℕ
  iRangeReg : ℕ
  nRangeReg : ℕ
  aColCache : List ColCache
  iCacheLevel : ℕ
  iCacheCnt : ℕ
  /-- `db->flags & SQLITE_ColumnCache`, which switches the cache off. -/
  cacheOff : Bool

def nTempRegMax : ℕ := 8

/-- Entries without those that `q` holds of, with the registers that become free. -/
def clearEntries (q : ColCache → Bool) : List ColCache → List ℕ → List ColCache × List ℕ
  | [], temps => ([], temps)
  | p :: ps, temps =>
    if q p then
      let temps := if p.tempReg ∧ temps.length < nTempRegMax then p.iReg :: temps else temps
      let rest := clearEntries q ps temps
      ({ p with tempReg := false, iReg := 0 } :: rest.1, rest.2)
    else
      let rest := clearEntries q ps temps
      (p :: rest.1, rest.2)

/-- The entry of a register becomes one of a temporary register, if there is any. -/
def markTemp (iReg : ℕ) : List ColCache → Option (List ColCache)
  | [] => none
  | p :: ps =>
    if p.iReg = iReg then some ({ p with tempReg := true } :: ps) else (markTemp iReg ps).map (p :: ·)

/-- The first empty entry is replaced by `e`. -/
def fillEmpty (e : ColCache) : List ColCache → Option (List ColCache)
  | [] => none
  | p :: ps => if p.iReg = 0 then some (e :: ps) else (fillEmpty e ps).map (p :: ·)

/-- The least recently used entry, if that is below the bound. -/
def idxLru : List ColCache → ℕ → ℕ → Option ℕ
  | [], _, _ => none
  | p :: ps, minLru, i =>
    if p.lru < minLru then some ((idxLru ps p.lru (i + 1)).getD i) else idxLru ps minLru (i + 1)

namespace Parse

variable {V C F : Type} (p : Parse V C F)

def addOp (op : Op V C F) : Parse V C F := { p with pVdbe := p.pVdbe.addOp op }

def makeLabel : Parse V C F := { p with pVdbe := p.pVdbe.makeLabel }

def resolveLabel (j : ℕ) : Parse V C F := { p with pVdbe := p.pVdbe.resolve j }

def sqlite3GetTempReg : Parse V C F × ℕ :=
  match p.aTempReg with
  | [] => ({ p with nMem := p.nMem + 1 }, p.nMem + 1)
  | r :: rs => ({ p with aTempReg := rs }, r)

def sqlite3ReleaseTempReg (iReg : ℕ) : Parse V C F :=
  if iReg ≠ 0 ∧ p.aTempReg.length < nTempRegMax then
    match markTemp iReg p.aColCache with
    | some aColCache => { p with aColCache }
    | none => { p with aTempReg := iReg :: p.aTempReg }
  else p

def clearWhere (q : ColCache → Bool) : Parse V C F :=
  let cleared := clearEntries q p.aColCache p.aTempReg
  { p with aColCache := cleared.1, aTempReg := cleared.2 }

def sqlite3ExprCacheRemove (iReg nReg : ℕ) : Parse V C F :=
  p.clearWhere fun e => iReg ≤ e.iReg ∧ e.iReg < iReg + nReg

def sqlite3ExprCachePush : Parse V C F := { p with iCacheLevel := p.iCacheLevel + 1 }

def sqlite3ExprCachePop (n : ℕ) : Parse V C F :=
  { p with iCacheLevel := p.iCacheLevel - n }.clearWhere fun e => e.iReg ≠ 0 ∧ p.iCacheLevel - n < e.iLevel

def sqlite3GetTempRange (nReg : ℕ) : Parse V C F × ℕ :=
  if nReg ≤ p.nRangeReg then
    ({ p with iRangeReg := p.iRangeReg + nReg, nRangeReg := p.nRangeReg - nReg }, p.iRangeReg)
  else ({ p with nMem := p.nMem + nReg }, p.nMem + 1)

def sqlite3ReleaseTempRange (iReg nReg : ℕ) : Parse V C F :=
  let p := p.sqlite3ExprCacheRemove iReg nReg
  if nReg > p.nRangeReg then { p with nRangeReg := nReg, iRangeReg := iReg } else p

def sqlite3ExprCacheStore (iTab : ℕ) (iCol : ℤ) (iReg : ℕ) : Parse V C F :=
  let e : ColCache := ⟨iTab, iCol, false, p.iCacheLevel, iReg, p.iCacheCnt⟩
  if p.cacheOff then p
  else
    match fillEmpty e p.aColCache with
    | some aColCache => { p with aColCache, iCacheCnt := p.iCacheCnt + 1 }
    | none =>
      match idxLru p.aColCache 0x7fffffff 0 with
      | some i => { p with aColCache := p.aColCache.set i e, iCacheCnt := p.iCacheCnt + 1 }
      | none => p

/-- The first entry that `q` holds of is used: its time is set, and all entries of its register are pinned. -/
def useEntry (q : ColCache → Bool) : Option (Parse V C F × ℕ) :=
  match p.aColCache.findIdx? q with
  | none => none
  | some i =>
    (p.aColCache[i]?).map fun e =>
      ({ p with
        aColCache := (p.aColCache.set i { e with lru := p.iCacheCnt }).map fun e' =>
          if e'.iReg = e.iReg then { e' with tempReg := false } else e'
        iCacheCnt := p.iCacheCnt + 1 }, e.iReg)

/-! Columns. -/

def readColumn (pTab : Table) (iTabCur : ℕ) (iCol : ℤ) (regOut : ℕ) (p5 : Option F) : Parse V C F :=
  if iCol < 0 ∨ iCol = pTab.iPKey then p.addOp (.rowid iTabCur regOut) else p.addOp (.column iTabCur iCol regOut p5)

/-- `sqlite3VdbeChangeP5` sets `P5` of the last instruction; `OP_Rowid` and `OP_RealAffinity` do not look at it. -/
def sqlite3ExprCodeGetColumnOfTable (pTab : Table) (iTabCur : ℕ) (iCol : ℤ) (regOut : ℕ) (p5 : Option F) :
    Parse V C F :=
  -- sqlite3ColumnDefault
  if 0 ≤ iCol ∧ pTab.isReal iCol then (p.readColumn pTab iTabCur iCol regOut none).addOp (.realAffinity regOut)
  else p.readColumn pTab iTabCur iCol regOut p5

/-- A column that is read for a function alone is not put into the cache. -/
def sqlite3ExprCodeGetColumn (pTab : Table) (iColumn : ℤ) (iTable iReg : ℕ) (p5 : Option F) : Parse V C F × ℕ :=
  match p.useEntry fun e => e.iReg ≠ 0 ∧ e.iTable = iTable ∧ e.iColumn = iColumn with
  | some used => used
  | none =>
    let p := p.sqlite3ExprCodeGetColumnOfTable pTab iTable iColumn iReg p5
    (if p5.isSome then p else p.sqlite3ExprCacheStore iTable iColumn iReg, iReg)

end Parse

/-! Sizes of expressions, for the recursion. A `BETWEEN` is larger than the comparisons that it is coded as. -/

section Size

variable {V F : Type}

mutual

@[simp] def Expr.size : Expr V F → ℕ
  | .compare _ l r | .is l r | .isNot l r | .and l r | .or l r | .binary _ l r => l.size + r.size + 1
  | .uminus l | .uplus l | .bitNot l | .not l | .isNull l | .notNull l => l.size + 1
  | .between x l r => x.size + l.size + r.size + 9
  | .coalesce e es => e.size + sizeList es + 1
  | .function _ es => sizeList es + 1
  | .case x es y => sizeOption x + sizePairs es + sizeOption y + 1
  | _ => 1

@[simp] def sizeList : List (Expr V F) → ℕ
  | [] => 0
  | e :: es => e.size + sizeList es + 1

@[simp] def sizePairs : List (Expr V F × Expr V F) → ℕ
  | [] => 0
  | (e, r) :: es => e.size + r.size + sizePairs es + 9

@[simp] def sizeOption : Option (Expr V F) → ℕ
  | none => 0
  | some e => e.size

end

end Size

/-! The generator. -/

section Generator

variable {V C F : Type} (g : Schema V C F)

/-- The operands are in the registers `in1` and `in2`. -/
def codeCompare (p : Parse V C F) (pLeft pRight : Expr V F) (opcode : Cmp) (in1 in2 : ℕ) (p2 : P2)
    (nullEq : Bool) :
    Parse V C F := p.addOp (.compare opcode in2 p2 in1 (g.compareInfo pLeft pRight) nullEq)

mutual

/-- The value need not be in `target`: it is in the register that is returned. -/
def sqlite3ExprCodeTarget (p : Parse V C F) (pExpr : Expr V F) (target : ℕ) : Parse V C F × ℕ :=
  match pExpr with
  | .column iTable iColumn => p.sqlite3ExprCodeGetColumn (g.pTab iTable) iColumn iTable target none
  | .integer iValue => (p.addOp (.integer iValue target), target)
  | .number v _ => (p.addOp (.constant target v), target)
  | .literal v => (p.addOp (.constant target v), target)
  | .null => (p.addOp (.null target), target)
  | .variable iColumn => (p.addOp (.variable iColumn target), target)
  | .register iTable _ => (p, iTable)
  | .compare op pLeft pRight =>
    let (p, r1, regFree1) := sqlite3ExprCodeTemp p pLeft
    let (p, r2, regFree2) := sqlite3ExprCodeTemp p pRight
    let p := codeCompare g p pLeft pRight op r1 r2 (.store target) false
    ((p.sqlite3ReleaseTempReg regFree1).sqlite3ReleaseTempReg regFree2, target)
  | .is pLeft pRight =>
    let (p, r1, regFree1) := sqlite3ExprCodeTemp p pLeft
    let (p, r2, regFree2) := sqlite3ExprCodeTemp p pRight
    let p := codeCompare g p pLeft pRight .eq r1 r2 (.store target) true
    ((p.sqlite3ReleaseTempReg regFree1).sqlite3ReleaseTempReg regFree2, target)
  | .isNot pLeft pRight =>
    let (p, r1, regFree1) := sqlite3ExprCodeTemp p pLeft
    let (p, r2, regFree2) := sqlite3ExprCodeTemp p pRight
    let p := codeCompare g p pLeft pRight .ne r1 r2 (.store target) true
    ((p.sqlite3ReleaseTempReg regFree1).sqlite3ReleaseTempReg regFree2, target)
  | .and pLeft pRight =>
    let (p, r1, regFree1) := sqlite3ExprCodeTemp p pLeft
    let (p, r2, regFree2) := sqlite3ExprCodeTemp p pRight
    let p := p.addOp (.and r2 r1 target)
    ((p.sqlite3ReleaseTempReg regFree1).sqlite3ReleaseTempReg regFree2, target)
  | .or pLeft pRight =>
    let (p, r1, regFree1) := sqlite3ExprCodeTemp p pLeft
    let (p, r2, regFree2) := sqlite3ExprCodeTemp p pRight
    let p := p.addOp (.or r2 r1 target)
    ((p.sqlite3ReleaseTempReg regFree1).sqlite3ReleaseTempReg regFree2, target)
  | .binary op pLeft pRight =>
    let (p, r1, regFree1) := sqlite3ExprCodeTemp p pLeft
    let (p, r2, regFree2) := sqlite3ExprCodeTemp p pRight
    let p := p.addOp (.binary op r2 r1 target)
    ((p.sqlite3ReleaseTempReg regFree1).sqlite3ReleaseTempReg regFree2, target)
  | .uminus (.integer iValue) => (p.addOp (.integer (-iValue) target), target)
  | .uminus (.number _ neg) => (p.addOp (.constant target neg), target)
  | .uminus pLeft =>
    let (p, r1) := p.sqlite3GetTempReg
    let p := p.addOp (.integer 0 r1)
    let (p, r2, regFree2) := sqlite3ExprCodeTemp p pLeft
    let p := p.addOp (.binary .minus r2 r1 target)
    ((p.sqlite3ReleaseTempReg r1).sqlite3ReleaseTempReg regFree2, target)
  | .uplus pLeft => sqlite3ExprCodeTarget p pLeft target
  | .bitNot pLeft =>
    let (p, r1, regFree1) := sqlite3ExprCodeTemp p pLeft
    let p := p.addOp (.bitNot r1 target)
    (p.sqlite3ReleaseTempReg regFree1, target)
  | .not pLeft =>
    let (p, r1, regFree1) := sqlite3ExprCodeTemp p pLeft
    let p := p.addOp (.not r1 target)
    (p.sqlite3ReleaseTempReg regFree1, target)
  | .isNull pLeft =>
    let p := p.addOp (.integer 1 target)
    let (p, r1, regFree1) := sqlite3ExprCodeTemp p pLeft
    -- sqlite3VdbeJumpHere behind the next instruction but one
    let p := p.addOp (.isNull r1 (.addr (p.pVdbe.here + 2)))
    let p := p.addOp (.addImm target (-1))
    (p.sqlite3ReleaseTempReg regFree1, target)
  | .notNull pLeft =>
    let p := p.addOp (.integer 1 target)
    let (p, r1, regFree1) := sqlite3ExprCodeTemp p pLeft
    let p := p.addOp (.notNull r1 (.addr (p.pVdbe.here + 2)))
    let p := p.addOp (.addImm target (-1))
    (p.sqlite3ReleaseTempReg regFree1, target)
  | .between pLeft pLow pHigh =>
    let (p, r1, regFree1) := sqlite3ExprCodeTemp p pLeft
    let (p, r2, regFree2) := sqlite3ExprCodeTemp p pLow
    let (p, r3) := p.sqlite3GetTempReg
    let (p, r4) := p.sqlite3GetTempReg
    let p := codeCompare g p pLeft pLow .ge r1 r2 (.store r3) false
    let p := p.sqlite3ReleaseTempReg regFree2
    let (p, r2, regFree2) := sqlite3ExprCodeTemp p pHigh
    let p := codeCompare g p pLeft pHigh .le r1 r2 (.store r4) false
    let p := p.addOp (.and r3 r4 target)
    let p := (p.sqlite3ReleaseTempReg r3).sqlite3ReleaseTempReg r4
    ((p.sqlite3ReleaseTempReg regFree1).sqlite3ReleaseTempReg regFree2, target)
  | .coalesce pFirst pFarg =>
    let endCoalesce := p.pVdbe.labels
    let p := sqlite3ExprCode p.makeLabel pFirst target
    ((coalesceLoop p pFarg target endCoalesce).resolveLabel endCoalesce, target)
  | .function pDef [] => (p.addOp (.function 0 target pDef 0), target)
  | .function pDef (pArg :: pFarg) =>
    let (p, r1) := p.sqlite3GetTempRange (pFarg.length + 1)
    let p := codeArguments p.sqlite3ExprCachePush pDef (pArg :: pFarg) r1
    let p := p.sqlite3ExprCachePop 1
    let p := p.addOp (.function r1 target pDef (pFarg.length + 1))
    (p.sqlite3ReleaseTempRange r1 (pFarg.length + 1), target)
  | .case none pEList pRight =>
    let endLabel := p.pVdbe.labels
    let p := caseLoop p.makeLabel none pEList target endLabel
    ((codeElse p pRight target).resolveLabel endLabel, target)
  | .case (some pX) pEList pRight =>
    let endLabel := p.pVdbe.labels
    let (p, r, _) := sqlite3ExprCodeTemp p.makeLabel pX
    let p := caseLoop p (some (r, pX)) pEList target endLabel
    ((codeElse p pRight target).resolveLabel endLabel, target)
  termination_by 3 * pExpr.size
  decreasing_by all_goals ((try simp only [Expr.size, sizeList, sizeOption]); omega)

/-- The register of the value, and that register if it can be released, else 0. -/
def sqlite3ExprCodeTemp (p : Parse V C F) (pExpr : Expr V F) : Parse V C F × ℕ × ℕ :=
  let (p, r1) := p.sqlite3GetTempReg
  let (p, r2) := sqlite3ExprCodeTarget p pExpr r1
  if r2 = r1 then (p, r2, r1) else (p.sqlite3ReleaseTempReg r1, r2, 0)
  termination_by 3 * pExpr.size + 1
  decreasing_by all_goals omega

def sqlite3ExprCode (p : Parse V C F) (pExpr : Expr V F) (target : ℕ) : Parse V C F :=
  match pExpr with
  | .register iTable _ => p.addOp (.copy iTable target)
  | pExpr =>
    let (p, inReg) := sqlite3ExprCodeTarget p pExpr target
    if inReg ≠ target then p.addOp (.sCopy inReg target) else p
  termination_by 3 * pExpr.size + 1
  decreasing_by all_goals omega

/-- The arguments of `COALESCE` behind the first. -/
def coalesceLoop (p : Parse V C F) (pFarg : List (Expr V F)) (target endCoalesce : ℕ) : Parse V C F :=
  match pFarg with
  | [] => p
  | pArg :: pFarg =>
    let p := p.addOp (.notNull target (.label endCoalesce))
    let p := (p.sqlite3ExprCacheRemove target 1).sqlite3ExprCachePush
    let p := (sqlite3ExprCode p pArg target).sqlite3ExprCachePop 1
    coalesceLoop p pFarg target endCoalesce
  termination_by 3 * sizeList pFarg
  decreasing_by all_goals (simp only [sizeList]; omega)

/-- The arguments of a function; the one of `length()` and `typeof()` gets `op2` if it is a column. -/
def codeArguments (p : Parse V C F) (pDef : F) (pFarg : List (Expr V F)) (target : ℕ) : Parse V C F :=
  match pFarg with
  | [.column iTable iColumn] =>
    let op2 := if g.op2 pDef then some pDef else none
    let (p, inReg) := p.sqlite3ExprCodeGetColumn (g.pTab iTable) iColumn iTable target op2
    if inReg ≠ target then p.addOp (.copy inReg target) else p
  | pFarg => sqlite3ExprCodeExprList p pFarg target
  termination_by 3 * sizeList pFarg + 1
  decreasing_by all_goals omega

def sqlite3ExprCodeExprList (p : Parse V C F) (pList : List (Expr V F)) (target : ℕ) : Parse V C F :=
  match pList with
  | [] => p
  | pExpr :: pList =>
    let (p, inReg) := sqlite3ExprCodeTarget p pExpr target
    let p := if inReg ≠ target then p.addOp (.copy inReg target) else p
    sqlite3ExprCodeExprList p pList (target + 1)
  termination_by 3 * sizeList pList
  decreasing_by all_goals (simp only [sizeList]; omega)

/-- The `WHEN` terms of a `CASE`, with the register of the expression that they are compared with. -/
def caseLoop (p : Parse V C F) (pX : Option (ℕ × Expr V F)) (pEList : List (Expr V F × Expr V F))
    (target endLabel : ℕ) : Parse V C F :=
  match pEList with
  | [] => p
  | (pWhen, pThen) :: pEList =>
    let p := p.sqlite3ExprCachePush
    let nextCase := p.pVdbe.labels
    let p := match pX with
      | none => sqlite3ExprIfFalse p.makeLabel pWhen nextCase true
      | some (r, x) => sqlite3ExprIfFalse p.makeLabel (.compare .eq (.register r x) pWhen) nextCase true
    let p := sqlite3ExprCode p pThen target
    let p := (p.addOp (.goto (.label endLabel))).sqlite3ExprCachePop 1
    caseLoop (p.resolveLabel nextCase) pX pEList target endLabel
  termination_by 3 * sizePairs pEList
  decreasing_by all_goals (simp only [Expr.size, sizePairs]; omega)

def codeElse (p : Parse V C F) (pRight : Option (Expr V F)) (target : ℕ) : Parse V C F :=
  match pRight with
  | some pRight => (sqlite3ExprCode p.sqlite3ExprCachePush pRight target).sqlite3ExprCachePop 1
  | none => p.addOp (.null target)
  termination_by 3 * sizeOption pRight + 2
  decreasing_by all_goals (simp only [sizeOption]; omega)

/-- `x BETWEEN y AND z` as `x>=y AND x<=z`, with `x` in a register. -/
def exprCodeBetween (p : Parse V C F) (x y z : Expr V F) (dest : ℕ) (jumpIfTrue jumpIfNull : Bool) :
    Parse V C F :=
  let (p, r, regFree1) := sqlite3ExprCodeTemp p x
  let exprAnd : Expr V F := .and (.compare .ge (.register r x) y) (.compare .le (.register r x) z)
  let p := if jumpIfTrue then sqlite3ExprIfTrue p exprAnd dest jumpIfNull
    else sqlite3ExprIfFalse p exprAnd dest jumpIfNull
  p.sqlite3ReleaseTempReg regFree1
  termination_by 3 * (x.size + y.size + z.size + 8)
  decreasing_by all_goals ((try simp only [Expr.size]); omega)

/-- Code that jumps to the label `dest` if the expression is true, and with `jumpIfNull` also if it is unknown. -/
def sqlite3ExprIfTrue (p : Parse V C F) (pExpr : Expr V F) (dest : ℕ) (jumpIfNull : Bool) : Parse V C F :=
  match pExpr with
  | .and pLeft pRight =>
    let d2 := p.pVdbe.labels
    let p := p.makeLabel.sqlite3ExprCachePush
    let p := sqlite3ExprIfFalse p pLeft d2 (!jumpIfNull)
    let p := sqlite3ExprIfTrue p pRight dest jumpIfNull
    (p.resolveLabel d2).sqlite3ExprCachePop 1
  | .or pLeft pRight =>
    let p := sqlite3ExprIfTrue p pLeft dest jumpIfNull
    sqlite3ExprIfTrue p pRight dest jumpIfNull
  | .not pLeft => sqlite3ExprIfFalse p pLeft dest jumpIfNull
  | .compare op pLeft pRight =>
    let (p, r1, regFree1) := sqlite3ExprCodeTemp p pLeft
    let (p, r2, regFree2) := sqlite3ExprCodeTemp p pRight
    let p := codeCompare g p pLeft pRight op r1 r2 (.jump (.label dest) jumpIfNull) false
    (p.sqlite3ReleaseTempReg regFree1).sqlite3ReleaseTempReg regFree2
  | .is pLeft pRight =>
    let (p, r1, regFree1) := sqlite3ExprCodeTemp p pLeft
    let (p, r2, regFree2) := sqlite3ExprCodeTemp p pRight
    let p := codeCompare g p pLeft pRight .eq r1 r2 (.jump (.label dest) false) true
    (p.sqlite3ReleaseTempReg regFree1).sqlite3ReleaseTempReg regFree2
  | .isNot pLeft pRight =>
    let (p, r1, regFree1) := sqlite3ExprCodeTemp p pLeft
    let (p, r2, regFree2) := sqlite3ExprCodeTemp p pRight
    let p := codeCompare g p pLeft pRight .ne r1 r2 (.jump (.label dest) false) true
    (p.sqlite3ReleaseTempReg regFree1).sqlite3ReleaseTempReg regFree2
  | .isNull pLeft =>
    let (p, r1, regFree1) := sqlite3ExprCodeTemp p pLeft
    (p.addOp (.isNull r1 (.label dest))).sqlite3ReleaseTempReg regFree1
  | .notNull pLeft =>
    let (p, r1, regFree1) := sqlite3ExprCodeTemp p pLeft
    (p.addOp (.notNull r1 (.label dest))).sqlite3ReleaseTempReg regFree1
  | .between x y z => exprCodeBetween p x y z dest true jumpIfNull
  | pExpr =>
    let (p, r1, regFree1) := sqlite3ExprCodeTemp p pExpr
    (p.addOp (.if r1 (.label dest) jumpIfNull)).sqlite3ReleaseTempReg regFree1
  termination_by 3 * pExpr.size + 2
  decreasing_by all_goals ((try simp only [Expr.size]); omega)

/-- Code that jumps to the label `dest` if the expression is false, and with `jumpIfNull` also if it is unknown. -/
def sqlite3ExprIfFalse (p : Parse V C F) (pExpr : Expr V F) (dest : ℕ) (jumpIfNull : Bool) : Parse V C F :=
  match pExpr with
  | .and pLeft pRight =>
    let p := sqlite3ExprIfFalse p pLeft dest jumpIfNull
    sqlite3ExprIfFalse p pRight dest jumpIfNull
  | .or pLeft pRight =>
    let d2 := p.pVdbe.labels
    let p := p.makeLabel.sqlite3ExprCachePush
    let p := sqlite3ExprIfTrue p pLeft d2 (!jumpIfNull)
    let p := sqlite3ExprIfFalse p pRight dest jumpIfNull
    (p.resolveLabel d2).sqlite3ExprCachePop 1
  | .not pLeft => sqlite3ExprIfTrue p pLeft dest jumpIfNull
  | .compare op pLeft pRight =>
    let (p, r1, regFree1) := sqlite3ExprCodeTemp p pLeft
    let (p, r2, regFree2) := sqlite3ExprCodeTemp p pRight
    let p := codeCompare g p pLeft pRight op.opposite r1 r2 (.jump (.label dest) jumpIfNull) false
    (p.sqlite3ReleaseTempReg regFree1).sqlite3ReleaseTempReg regFree2
  | .is pLeft pRight =>
    let (p, r1, regFree1) := sqlite3ExprCodeTemp p pLeft
    let (p, r2, regFree2) := sqlite3ExprCodeTemp p pRight
    let p := codeCompare g p pLeft pRight .ne r1 r2 (.jump (.label dest) false) true
    (p.sqlite3ReleaseTempReg regFree1).sqlite3ReleaseTempReg regFree2
  | .isNot pLeft pRight =>
    let (p, r1, regFree1) := sqlite3ExprCodeTemp p pLeft
    let (p, r2, regFree2) := sqlite3ExprCodeTemp p pRight
    let p := codeCompare g p pLeft pRight .eq r1 r2 (.jump (.label dest) false) true
    (p.sqlite3ReleaseTempReg regFree1).sqlite3ReleaseTempReg regFree2
  | .isNull pLeft =>
    let (p, r1, regFree1) := sqlite3ExprCodeTemp p pLeft
    (p.addOp (.notNull r1 (.label dest))).sqlite3ReleaseTempReg regFree1
  | .notNull pLeft =>
    let (p, r1, regFree1) := sqlite3ExprCodeTemp p pLeft
    (p.addOp (.isNull r1 (.label dest))).sqlite3ReleaseTempReg regFree1
  | .between x y z => exprCodeBetween p x y z dest false jumpIfNull
  | pExpr =>
    let (p, r1, regFree1) := sqlite3ExprCodeTemp p pExpr
    (p.addOp (.ifNot r1 (.label dest) jumpIfNull)).sqlite3ReleaseTempReg regFree1
  termination_by 3 * pExpr.size + 2
  decreasing_by all_goals ((try simp only [Expr.size]); omega)

end

end Generator

end Sqlite.ExprCode

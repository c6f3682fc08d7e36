import Mathlib.Data.Int.Notation
import Mathlib.Data.Nat.Notation
import Mathlib.Order.Lattice

/-! A cursor on a b-tree. The ordered type `K` stands for the rowids of a table, or for the records
of an index in its order. Reads of pages and allocations succeed. -/
namespace Sqlite.BtreeCursor

def BTCURSOR_MAX_DEPTH : ℕ := 20

/-- Why a call does not succeed: with a result code, or because an assert fails. -/
inductive Failure
  | code (rc : ℤ)
  | undefined

def SQLITE_CORRUPT : ℤ := 11

structure Cell (K : Type) where
  leftChild : ℕ
  key : K

structure MemPage (K : Type) where
  intKey : Bool
  leaf : Bool
  cells : List (Cell K)
  rightChild : ℕ

def MemPage.nCell {K : Type} (p : MemPage K) : ℕ := p.cells.length

/-- The pages of the file that are b-tree pages. -/
structure BtShared (K : Type) where
  page : ℕ → Option (MemPage K)

inductive CursorState
  | CURSOR_INVALID
  | CURSOR_VALID
  | CURSOR_REQUIRESEEK
  | CURSOR_FAULT
  deriving DecidableEq

open CursorState

/-- `intKey` says that `pKeyInfo` is null, and `parsed` that `info.nSize` is not 0. The stack holds
the numbers of the pages in `apPage` with `aiIdx`, from `iPage` down to 0, and `savedKey` is what
`pKey` and `nKey` hold. -/
structure BtCursor (K : Type) where
  pgnoRoot : ℕ
  intKey : Bool
  eState : CursorState
  stack : List (ℕ × ℕ)
  atLast : Bool
  parsed : Bool
  validNKey : Bool
  nKey : Option K
  savedKey : Option K
  skipNext : ℤ

/-- The key of a search: a rowid, or a function that compares the records of an index with it. -/
inductive SearchKey (K : Type)
  | rowid (intKey : K)
  | record (compare : K → ℤ)

variable {K : Type}

def btreeCursor (iTable : ℕ) (intKey : Bool) : BtCursor K :=
  ⟨iTable, intKey, CURSOR_INVALID, [], false, false, false, none, none, 0⟩

def getAndInitPage (t : BtShared K) (pgno : ℕ) : Except Failure (MemPage K) :=
  match t.page pgno with
  | some p => .ok p
  | none => .error (.code SQLITE_CORRUPT)

/-- The page at `iPage`. -/
def BtCursor.page (t : BtShared K) (c : BtCursor K) : Except Failure (MemPage K) :=
  match c.stack with
  | [] => .error .undefined
  | (pgno, _) :: _ => getAndInitPage t pgno

/-- The index at `iPage`. -/
def BtCursor.idx (c : BtCursor K) : ℕ := (c.stack.head?.map Prod.snd).getD 0

def BtCursor.setIdx (c : BtCursor K) (i : ℕ) : BtCursor K :=
  match c.stack with
  | [] => c
  | (pgno, _) :: parents => { c with stack := (pgno, i) :: parents }

/-- `info.nSize = 0` and `validNKey = 0`. -/
def BtCursor.forget (c : BtCursor K) : BtCursor K := { c with parsed := false, validNKey := false }

def findCell (p : MemPage K) (i : ℕ) : Except Failure (Cell K) :=
  match p.cells[i]? with
  | some cell => .ok cell
  | none => .error .undefined

def getCellInfo (t : BtShared K) (c : BtCursor K) : Except Failure (BtCursor K) :=
  if c.parsed then return c
  else do
    let pPage ← c.page t
    let cell ← findCell pPage c.idx
    return { c with parsed := true, validNKey := true, nKey := some cell.key }

def sqlite3BtreeKeySize (t : BtShared K) (c : BtCursor K) : Except Failure (BtCursor K) :=
  match c.eState with
  | CURSOR_INVALID => return c
  | CURSOR_VALID => getCellInfo t c
  | _ => throw .undefined

def saveCursorPosition (t : BtShared K) (c : BtCursor K) : Except Failure (BtCursor K) := do
  let c ← sqlite3BtreeKeySize t c
  return { c with savedKey := c.nKey, stack := [], eState := CURSOR_REQUIRESEEK }

/-- What `saveAllCursors` does to this cursor before another one writes. -/
def saveAllCursors (t : BtShared K) (c : BtCursor K) : Except Failure (BtCursor K) :=
  if c.eState = CURSOR_VALID then saveCursorPosition t c else return c

def sqlite3BtreeClearCursor (c : BtCursor K) : BtCursor K :=
  { c with savedKey := none, eState := CURSOR_INVALID }

def sqlite3BtreeTripAllCursors (c : BtCursor K) (errCode : ℤ) : BtCursor K :=
  { sqlite3BtreeClearCursor c with eState := CURSOR_FAULT, skipNext := errCode, stack := [] }

def moveToChild (t : BtShared K) (c : BtCursor K) (newPgno : ℕ) : Except Failure (BtCursor K) :=
  if BTCURSOR_MAX_DEPTH ≤ c.stack.length then throw (.code SQLITE_CORRUPT)
  else do
    let pNewPage ← getAndInitPage t newPgno
    let pPage ← c.page t
    if pNewPage.nCell < 1 ∨ pNewPage.intKey ≠ pPage.intKey then throw (.code SQLITE_CORRUPT)
    else return { c.forget with stack := (newPgno, 0) :: c.stack }

def moveToRoot (t : BtShared K) (c : BtCursor K) : Except Failure (BtCursor K) :=
  if c.eState = CURSOR_FAULT then throw (.code c.skipNext)
  else
    let c := if c.eState = CURSOR_REQUIRESEEK then sqlite3BtreeClearCursor c else c
    if c.stack = [] ∧ c.pgnoRoot = 0 then return { c with eState := CURSOR_INVALID }
    else do
      let pRoot ← getAndInitPage t c.pgnoRoot
      if c.stack = [] ∧ c.intKey ≠ pRoot.intKey then throw (.code SQLITE_CORRUPT)
      else
        let c : BtCursor K := { c.forget with stack := [(c.pgnoRoot, 0)], atLast := false }
        if pRoot.nCell = 0 ∧ pRoot.leaf = false then
          if c.pgnoRoot = 1 then moveToChild t { c with eState := CURSOR_VALID } pRoot.rightChild
          else throw (.code SQLITE_CORRUPT)
        else return { c with eState := if pRoot.nCell > 0 then CURSOR_VALID else CURSOR_INVALID }

/-- The loops down the tree end after `BTCURSOR_MAX_DEPTH` turns at most, as `moveToChild` fails
there. The first argument counts the turns. -/
def moveToLeftmost (t : BtShared K) : ℕ → BtCursor K → Except Failure (BtCursor K)
  | 0, _ => throw .undefined
  | n + 1, c => do
    let pPage ← c.page t
    if pPage.leaf then return c
    else do
      let cell ← findCell pPage c.idx
      let c ← moveToChild t c cell.leftChild
      moveToLeftmost t n c

def moveToRightmost (t : BtShared K) : ℕ → BtCursor K → Except Failure (BtCursor K)
  | 0, _ => throw .undefined
  | n + 1, c => do
    let pPage ← c.page t
    if pPage.leaf then return (c.setIdx (pPage.nCell - 1)).forget
    else do
      let c ← moveToChild t (c.setIdx pPage.nCell) pPage.rightChild
      moveToRightmost t n c

/-- The number is `*pRes`. -/
def sqlite3BtreeFirst (t : BtShared K) (c : BtCursor K) : Except Failure (ℤ × BtCursor K) := do
  let c ← moveToRoot t c
  if c.eState = CURSOR_INVALID then return (1, c)
  else do
    let c ← moveToLeftmost t BTCURSOR_MAX_DEPTH c
    return (0, c)

/-- Without a number the call does not set `*pRes`. -/
def sqlite3BtreeLast (t : BtShared K) (c : BtCursor K) :
    Except Failure (Option ℤ × BtCursor K) :=
  if c.eState = CURSOR_VALID ∧ c.atLast = true then return (none, c)
  else do
    let c ← moveToRoot t c
    if c.eState = CURSOR_INVALID then return (some 1, c)
    else do
      let c ← moveToRightmost t BTCURSOR_MAX_DEPTH c
      return (some 0, { c with atLast := true })

section
variable [LinearOrder K]

/-- How a key compares with the one that is searched for. -/
def keyCompare (key : K) (x : K) : ℤ := if x = key then 0 else if x < key then -1 else 1

def SearchKey.compare : SearchKey K → K → ℤ
  | .rowid key, x => keyCompare key x
  | .record f, x => f x

/-- The binary search in a page: the last index that is compared, the result there, and `lwr`. -/
def searchLoop (p : MemPage K) (f : K → ℤ) : ℕ → ℤ → ℤ → ℤ → Except Failure (ℕ × ℤ × ℤ)
  | 0, _, _, _ => throw .undefined
  | n + 1, lwr, upr, idx => do
    let cell ← findCell p idx.toNat
    let c := f cell.key
    if c = 0 then return (idx.toNat, 0, idx)
    else
      let lwr := if c < 0 then idx + 1 else lwr
      let upr := if c < 0 then upr else idx - 1
      if lwr > upr then return (idx.toNat, c, lwr)
      else searchLoop p f n lwr upr ((lwr + upr) / 2)

/-- The cursor at the cell that was compared last. (A record that spills to other pages is parsed
there already; here that is left to `getCellInfo`.) -/
def BtCursor.compared (c : BtCursor K) (p : MemPage K) (i : ℕ) : BtCursor K :=
  let c := { c.setIdx i with parsed := false }
  if p.intKey then { c with validNKey := true, nKey := p.cells[i]?.map Cell.key } else c

def childPgno (p : MemPage K) (i : ℕ) : ℕ := (p.cells[i]?.map Cell.leftChild).getD p.rightChild

def movetoLoop (t : BtShared K) (key : SearchKey K) (biasRight : Bool) :
    ℕ → BtCursor K → Except Failure (ℤ × BtCursor K)
  | 0, _ => throw .undefined
  | n + 1, c => do
    let pPage ← c.page t
    let upr : ℤ := pPage.nCell - 1
    let (idx, res, lwr) ← searchLoop pPage key.compare pPage.nCell 0 upr
      (if biasRight then upr else (upr + 0) / 2)
    let c := c.compared pPage idx
    if res = 0 ∧ ¬ (pPage.intKey = true ∧ pPage.leaf = false) then return (0, c)
    else
      let chldPg := if pPage.leaf then 0 else childPgno pPage lwr.toNat
      if chldPg = 0 then return (res, c)
      else do
        let c ← moveToChild t (c.setIdx lwr.toNat).forget chldPg
        movetoLoop t key biasRight n c

/-- The result without a search, from the key at the cursor. -/
def cachedCompare (c : BtCursor K) : SearchKey K → Option ℤ
  | .record _ => none
  | .rowid intKey =>
    if c.eState = CURSOR_VALID ∧ c.validNKey = true ∧ c.intKey = true then
      match c.nKey with
      | none => none
      | some nKey =>
        if nKey = intKey then some 0 else if c.atLast ∧ nKey < intKey then some (-1) else none
    else none

def sqlite3BtreeMovetoUnpacked (t : BtShared K) (c : BtCursor K) (key : SearchKey K)
    (biasRight : Bool) : Except Failure (ℤ × BtCursor K) :=
  match cachedCompare c key with
  | some res => return (res, c)
  | none => do
    let c ← moveToRoot t c
    if c.eState = CURSOR_INVALID then return (-1, c)
    else movetoLoop t key biasRight BTCURSOR_MAX_DEPTH c

def btreeRestoreCursorPosition (t : BtShared K) (c : BtCursor K) :
    Except Failure (BtCursor K) :=
  if c.eState = CURSOR_FAULT then throw (.code c.skipNext)
  else
    match c.savedKey with
    | none => throw .undefined
    | some key => do
      let (skipNext, c) ← sqlite3BtreeMovetoUnpacked t { c with eState := CURSOR_INVALID }
        (if c.intKey then .rowid key else .record (keyCompare key)) false
      return { c with skipNext := skipNext, savedKey := none }

def restoreCursorPosition (t : BtShared K) (c : BtCursor K) : Except Failure (BtCursor K) :=
  if c.eState = CURSOR_REQUIRESEEK ∨ c.eState = CURSOR_FAULT then btreeRestoreCursorPosition t c
  else return c

/-- The flag is `*pHasMoved`. -/
def sqlite3BtreeCursorHasMoved (t : BtShared K) (c : BtCursor K) :
    Except Failure (Bool × BtCursor K) := do
  let c ← restoreCursorPosition t c
  return (c.eState ≠ CURSOR_VALID ∨ c.skipNext ≠ 0, c)

def sqlite3BtreeData (t : BtShared K) (c : BtCursor K) : Except Failure (BtCursor K) := do
  let c ← restoreCursorPosition t c
  if c.eState = CURSOR_VALID then getCellInfo t c else throw .undefined

/-- The loop of `sqlite3BtreeNext` that climbs: the stack after it, and whether it got past the
last entry. -/
def nextLoop (t : BtShared K) : List (ℕ × ℕ) → Except Failure (Bool × List (ℕ × ℕ))
  | [] => throw .undefined
  | [root] => return (true, [root])
  | _ :: (pgno, i) :: parents => do
    let pPage ← getAndInitPage t pgno
    if i ≥ pPage.nCell then nextLoop t ((pgno, i) :: parents) else return (false, (pgno, i) :: parents)

/-- For an interior cell of a table, which is no entry, the function calls itself once more. The
first argument counts the calls. -/
def sqlite3BtreeNext (t : BtShared K) : ℕ → BtCursor K → Except Failure (ℤ × BtCursor K)
  | 0, _ => throw .undefined
  | n + 1, c => do
    let c ← restoreCursorPosition t c
    if c.eState = CURSOR_INVALID then return (1, c)
    else if c.skipNext > 0 then return (0, { c with skipNext := 0 })
    else do
      let pPage ← c.page t
      let idx := c.idx + 1
      let c := ({ c with skipNext := 0 }.setIdx idx).forget
      if idx ≥ pPage.nCell then
        if pPage.leaf = false then do
          let c ← moveToChild t c pPage.rightChild
          let c ← moveToLeftmost t BTCURSOR_MAX_DEPTH c
          return (0, c)
        else do
          let (eof, stack) ← nextLoop t c.stack
          let c := { c with stack := stack }
          -- `info` and `validNKey` are not read again before they are set
          if eof then return (1, { c with eState := CURSOR_INVALID })
          else do
            let pPage ← c.page t
            if pPage.intKey then sqlite3BtreeNext t n c else return (0, c)
      else if pPage.leaf then return (0, c)
      else do
        let c ← moveToLeftmost t BTCURSOR_MAX_DEPTH c
        return (0, c)

/-- The loop of `sqlite3BtreePrevious` that climbs. -/
def previousLoop : List (ℕ × ℕ) → Except Failure (Bool × List (ℕ × ℕ))
  | [] => throw .undefined
  | (pgno, i + 1) :: parents => return (false, (pgno, i + 1) :: parents)
  | [(pgno, 0)] => return (true, [(pgno, 0)])
  | (_, 0) :: parent :: parents => previousLoop (parent :: parents)

def sqlite3BtreePrevious (t : BtShared K) : ℕ → BtCursor K → Except Failure (ℤ × BtCursor K)
  | 0, _ => throw .undefined
  | n + 1, c => do
    let c ← restoreCursorPosition t c
    let c := { c with atLast := false }
    if c.eState = CURSOR_INVALID then return (1, c)
    else if c.skipNext < 0 then return (0, { c with skipNext := 0 })
    else do
      let c := { c with skipNext := 0 }
      let pPage ← c.page t
      if pPage.leaf = false then do
        let cell ← findCell pPage c.idx
        let c ← moveToChild t c cell.leftChild
        let c ← moveToRightmost t BTCURSOR_MAX_DEPTH c
        return (0, c)
      else do
        let (eof, stack) ← previousLoop c.stack
        let c := { c with stack := stack }
        if eof then return (1, { c with eState := CURSOR_INVALID })
        else do
          let c := (c.setIdx (c.idx - 1)).forget
          let pPage ← c.page t
          if pPage.intKey = true ∧ pPage.leaf = false then do
            let (_, c) ← sqlite3BtreePrevious t n c
            return (0, c)
          else return (0, c)

end

end Sqlite.BtreeCursor

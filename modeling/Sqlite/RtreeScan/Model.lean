import Mathlib.Data.Int.Notation
import Mathlib.Data.Nat.Notation
import Mathlib.Order.Lattice

/-! A query of an r-tree. Coordinates are of an ordered type `D`, which stands for the numbers that
`DCOORD` gives. A call that fails is `none`; `MATCH` constraints and reference counts are left out. -/
namespace Sqlite.RtreeScan

def RTREE_MAX_DEPTH : ℕ := 40

inductive Op
  | RTREE_EQ
  | RTREE_LE
  | RTREE_LT
  | RTREE_GE
  | RTREE_GT
  deriving DecidableEq

structure RtreeConstraint (D : Type) where
  iCoord : ℕ
  op : Op
  rValue : D

/-- The minimum of dimension `d` is coordinate `2 * d`, and the maximum is the next one. -/
structure RtreeCell (D : Type) where
  iRowid : ℤ
  aCoord : ℕ → D

/-- What a row of the `%_node` table holds. -/
structure NodeData (D : Type) where
  iDepth : ℕ
  cells : List (RtreeCell D)

structure Rtree (D : Type) where
  nDim : ℕ
  iNodeSize : ℕ
  node : ℤ → Option (NodeData D)

def Rtree.nBytesPerCell {D : Type} (t : Rtree D) : ℕ := 8 + t.nDim * 2 * 4

/-- A node in memory. The list of a node and its parents stands for `pNode` with the pointers
`pParent`, and the empty list for a null pointer. -/
structure RtreeNode (D : Type) where
  iNode : ℤ
  cells : List (RtreeCell D)

structure RtreeCursor (D : Type) where
  pNode : List (RtreeNode D)
  iCell : ℕ

variable {D : Type} [LinearOrder D] (t : Rtree D) (cons : List (RtreeConstraint D))

/-- The number of cells that a node has room for. -/
def Rtree.maxCells (t : Rtree D) : ℕ := (t.iNodeSize - 4) / t.nBytesPerCell

def nodeAcquire (iNode : ℤ) (pParent : List (RtreeNode D)) : Option (List (RtreeNode D)) := do
  let z ← t.node iNode
  if iNode = 1 ∧ RTREE_MAX_DEPTH < z.iDepth then none
  else if t.maxCells < z.cells.length then none
  else return ⟨iNode, z.cells⟩ :: pParent

def nodeGetCell (c : RtreeCursor D) : Option (RtreeCell D) := do
  let n ← c.pNode.head?
  n.cells[c.iCell]?

/-- Whether a constraint excludes all that is in the box of a cell. -/
def RtreeConstraint.excludes (p : RtreeConstraint D) (cell : RtreeCell D) : Bool :=
  let cell_min := cell.aCoord ((p.iCoord >>> 1) * 2)
  let cell_max := cell.aCoord ((p.iCoord >>> 1) * 2 + 1)
  match p.op with
  | .RTREE_LE | .RTREE_LT => p.rValue < cell_min
  | .RTREE_GE | .RTREE_GT => p.rValue > cell_max
  | .RTREE_EQ => p.rValue > cell_max || p.rValue < cell_min

/-- Whether an entry meets a constraint. -/
def RtreeConstraint.admits (p : RtreeConstraint D) (cell : RtreeCell D) : Bool :=
  let coord := cell.aCoord p.iCoord
  match p.op with
  | .RTREE_LE => coord ≤ p.rValue
  | .RTREE_LT => coord < p.rValue
  | .RTREE_GE => coord ≥ p.rValue
  | .RTREE_GT => coord > p.rValue
  | .RTREE_EQ => coord = p.rValue

def testRtreeCell (c : RtreeCursor D) : Option Bool := do
  let cell ← nodeGetCell c
  return cons.any (·.excludes cell)

def testRtreeEntry (c : RtreeCursor D) : Option Bool := do
  let cell ← nodeGetCell c
  return !cons.all (·.admits cell)

/-- The loop over cells `ii` and up of the first node, of which there are `n`, until `descend` gets
to an entry. With `true` it got to none. -/
def cellLoop (descend : RtreeCursor D → Option (Bool × RtreeCursor D)) (pNode : List (RtreeNode D)) :
    ℕ → ℕ → Option (Bool × RtreeCursor D)
  | 0, ii => some (true, ⟨pNode, ii⟩)
  | n + 1, ii => do
    let (isEof, c) ← descend ⟨pNode, ii⟩
    if isEof then cellLoop descend pNode n (ii + 1) else return (false, c)

def nCell (pNode : List (RtreeNode D)) : ℕ := (pNode.head?.map fun n => n.cells.length).getD 0

def descendToCell : ℕ → RtreeCursor D → Option (Bool × RtreeCursor D)
  | 0, c => do
    let isEof ← testRtreeEntry cons c
    return (isEof, c)
  | iHeight + 1, c => do
    let isEof ← testRtreeCell cons c
    if isEof then return (true, c)
    else do
      let cell ← nodeGetCell c
      let pChild ← nodeAcquire t cell.iRowid c.pNode
      let (isEof, c') ← cellLoop (descendToCell iHeight) pChild (nCell pChild) 0
      -- the cursor goes back to where it was
      if isEof then return (true, c) else return (false, c')

def nodeRowidIndex (pNode : RtreeNode D) (iRowid : ℤ) : Option ℕ :=
  pNode.cells.findIdx? fun cell => cell.iRowid = iRowid

/-- The index is not used when there is no parent. -/
def nodeParentIndex (pNode : RtreeNode D) : List (RtreeNode D) → Option ℕ
  | [] => some 0
  | pParent :: _ => nodeRowidIndex pParent pNode.iNode

/-- The loop of `rtreeNext` that climbs to the root. -/
def nextLoop : ℕ → List (RtreeNode D) → ℕ → Option (RtreeCursor D)
  | _, [], iCell => some ⟨[], iCell⟩
  | iHeight, pNode :: parents, iCell => do
    let (isEof, c) ← cellLoop (descendToCell t cons iHeight) (pNode :: parents)
      (pNode.cells.length - (iCell + 1)) (iCell + 1)
    if isEof then do
      let iCell ← nodeParentIndex pNode parents
      nextLoop (iHeight + 1) parents iCell
    else return c

def rtreeNext (c : RtreeCursor D) : Option (RtreeCursor D) := nextLoop t cons 0 c.pNode c.iCell

def rtreeFilter : Option (RtreeCursor D) := do
  let z ← t.node 1
  let pRoot ← nodeAcquire t 1 []
  let (isEof, c) ← cellLoop (descendToCell t cons z.iDepth) pRoot (nCell pRoot) 0
  if isEof then return ⟨[], c.iCell⟩ else return c

def rtreeEof (c : RtreeCursor D) : Bool := c.pNode.isEmpty

/-- The cursors of a query from `c` on, up to the end. -/
inductive Scan : RtreeCursor D → List (RtreeCursor D) → Prop
  | eof {c : RtreeCursor D} : rtreeEof c = true → Scan c []
  | next {c c' : RtreeCursor D} {l : List (RtreeCursor D)} : rtreeEof c = false →
      rtreeNext t cons c = some c' → Scan c' l → Scan c (c :: l)

/-- The box of a cell, within that of another one. -/
def Within (nDim : ℕ) (inner outer : RtreeCell D) : Prop :=
  ∀ d < nDim, outer.aCoord (2 * d) ≤ inner.aCoord (2 * d) ∧
    inner.aCoord (2 * d + 1) ≤ outer.aCoord (2 * d + 1)

def IsBox (nDim : ℕ) (cell : RtreeCell D) : Prop :=
  ∀ d < nDim, cell.aCoord (2 * d) ≤ cell.aCoord (2 * d + 1)

/-- A node that heads a tree of height `h`: entries are boxes, and a cell above them has the boxes
of its child in its own. -/
def IsTree (t : Rtree D) : ℕ → ℤ → Prop
  | 0, i => ∃ z, t.node i = some z ∧ z.cells.length ≤ t.maxCells ∧
      ∀ cell ∈ z.cells, IsBox t.nDim cell
  | h + 1, i => ∃ z, t.node i = some z ∧ z.cells.length ≤ t.maxCells ∧
      ∀ cell ∈ z.cells, IsTree t h cell.iRowid ∧ ∃ z', t.node cell.iRowid = some z' ∧
        ∀ cell' ∈ z'.cells, Within t.nDim cell' cell

def cellsOf (t : Rtree D) (i : ℤ) : List (RtreeCell D) := ((t.node i).map NodeData.cells).getD []

/-- The numbers of the nodes of a tree, from the top on. -/
def nodesOf (t : Rtree D) : ℕ → ℤ → List ℤ
  | 0, i => [i]
  | h + 1, i => i :: (cellsOf t i).flatMap fun cell => nodesOf t h cell.iRowid

/-- The entries of a tree, as a linear scan reads them. -/
def leafCells (t : Rtree D) : ℕ → ℤ → List (RtreeCell D)
  | 0, i => cellsOf t i
  | h + 1, i => (cellsOf t i).flatMap fun cell => leafCells t h cell.iRowid

/-- An r-tree of some depth. No node is in it twice. -/
structure WellFormed (t : Rtree D) (depth : ℕ) : Prop where
  root : ∃ z, t.node 1 = some z ∧ z.iDepth = depth
  bounded : depth ≤ RTREE_MAX_DEPTH
  tree : IsTree t depth 1
  once : (nodesOf t depth 1).Nodup

end Sqlite.RtreeScan

import Mathlib.Data.Prod.Lex
import Mathlib.Order.WithBot
import Sqlite.Foundation.MergeSort
import Sqlite.RtreeScan.Model

/-! The split of a full node of an r-tree: `SplitNode` with `splitNodeStartree`, and the sorts of `rtree.c`.
A node is the list of its cells, of which it holds at most `maxCells`. -/
namespace Sqlite.RtreeSplit

open Foundation RtreeScan

/-- The numbers that are computed from coordinates (`RtreeDValue`). Of their arithmetic nothing is known but
what holds of the comparisons in floating point, NaN included. -/
structure Arith (D V : Type) where
  zero : V
  one : V
  add : V → V → V
  mul : V → V → V
  sub : D → D → V
  lt : V → V → Bool
  eq : V → V → Bool
  lt_irrefl : ∀ a, lt a a = false
  lt_trans : ∀ a b c, lt a b = true → lt b c = true → lt a c = true
  lt_eq : ∀ a b c, lt a b = true → eq b c = true → lt a c = true
  eq_lt : ∀ a b c, eq a b = true → lt b c = true → lt a c = true
  eq_trans : ∀ a b c, eq a b = true → eq b c = true → eq a c = true

variable {D V K : Type} [LinearOrder D] [LinearOrder K]

/-- A step of `SortByDistance`. It reads the head of the right half where the left one is used up. -/
def distanceStep (aDistance : List K) (leftDone rightDone : Bool) (l r : Option ℕ) : MergeStep :=
  if leftDone then ⟨false, r.isSome⟩
  else if rightDone then ⟨true, l.isSome⟩
  else
    match l.bind (aDistance[·]?), r.bind (aDistance[·]?) with
    | some fLeft, some fRight => ⟨fLeft < fRight, true⟩
    | _, _ => ⟨false, false⟩

/-- What becomes of `aIdx` and `aSpare`, and whether all indexes were inside of the arrays. -/
def SortByDistance (aIdx : List ℕ) (aDistance : List K) (aSpare : List ℕ) : List ℕ × List ℕ × Bool :=
  spareSort (distanceStep aDistance) aIdx aSpare

/-- A step of `SortByDimension`. It reads both heads at once. -/
def dimensionStep (iDim : ℕ) (aCell : List (RtreeCell D)) (leftDone rightDone : Bool) (l r : Option ℕ) :
    MergeStep :=
  match l.bind (aCell[·]?), r.bind (aCell[·]?) with
  | some left, some right =>
    let xleft1 := left.aCoord (iDim * 2)
    let xleft2 := left.aCoord (iDim * 2 + 1)
    let xright1 := right.aCoord (iDim * 2)
    let xright2 := right.aCoord (iDim * 2 + 1)
    ⟨!leftDone && (rightDone || xleft1 < xright1 || (xleft1 = xright1 && xleft2 < xright2)), true⟩
  | _, _ => ⟨!leftDone && rightDone, false⟩

def SortByDimension (aIdx : List ℕ) (iDim : ℕ) (aCell : List (RtreeCell D)) (aSpare : List ℕ) :
    List ℕ × List ℕ × Bool :=
  spareSort (dimensionStep iDim aCell) aIdx aSpare

def cellUnion (nDim : ℕ) (p1 p2 : RtreeCell D) : RtreeCell D :=
  { p1 with aCoord := fun ii =>
      if ii < nDim * 2 then
        if ii % 2 = 0 then min (p1.aCoord ii) (p2.aCoord ii) else max (p1.aCoord ii) (p2.aCoord ii)
      else p1.aCoord ii }

variable (ar : Arith D V)

def cellArea (nDim : ℕ) (p : RtreeCell D) : V :=
  (List.range nDim).foldl
    (fun area ii => ar.mul area (ar.sub (p.aCoord (ii * 2 + 1)) (p.aCoord (ii * 2)))) ar.one

def cellMargin (nDim : ℕ) (p : RtreeCell D) : V :=
  (List.range nDim).foldl
    (fun margin ii => ar.add margin (ar.sub (p.aCoord (ii * 2 + 1)) (p.aCoord (ii * 2)))) ar.zero

/-- The loop of `cellOverlap` over the dimensions. -/
def overlapLoop (p q : RtreeCell D) : List ℕ → V → V
  | [], o => o
  | jj :: l, o =>
    let x1 := max (p.aCoord (jj * 2)) (q.aCoord (jj * 2))
    let x2 := min (p.aCoord (jj * 2 + 1)) (q.aCoord (jj * 2 + 1))
    if x2 < x1 then ar.zero else overlapLoop p q l (ar.mul o (ar.sub x2 x1))

def cellOverlap (nDim : ℕ) (p : RtreeCell D) (aCell : List (RtreeCell D)) : V :=
  aCell.foldl (fun overlap q => ar.add overlap (overlapLoop ar p q (List.range nDim) ar.one)) ar.zero

def RTREE_MINCELLS (t : Rtree D) : ℕ := t.maxCells / 3

def nodeInsertCell (t : Rtree D) (pNode : List (RtreeCell D)) (pCell : RtreeCell D) : List (RtreeCell D) :=
  if pNode.length < t.maxCells then pNode ++ [pCell] else pNode

/-- The loop over `kk`, which starts at the second cell and leaves out the last one. -/
def unionLoop (nDim nLeft : ℕ) : List (RtreeCell D) → ℕ → RtreeCell D → RtreeCell D →
    RtreeCell D × RtreeCell D
  | [], _, left, right => (left, right)
  | c :: l, kk, left, right =>
    if kk < nLeft then unionLoop nDim nLeft l (kk + 1) (cellUnion nDim left c) right
    else unionLoop nDim nLeft l (kk + 1) left (cellUnion nDim right c)

/-- What the loop over `nLeft` keeps. -/
structure Best (V : Type) where
  margin : V
  fBestOverlap : V
  fBestArea : V
  iBestLeft : ℕ

/-- The split after `nLeft` of the sorted cells. -/
def splitAt (t : Rtree D) (cells : List (RtreeCell D)) (first last : RtreeCell D) (b : Best V) (nLeft : ℕ) :
    Best V :=
  let (left, right) := unionLoop t.nDim nLeft (cells.drop 1).dropLast 1 first last
  let margin := ar.add (ar.add b.margin (cellMargin ar t.nDim left)) (cellMargin ar t.nDim right)
  let overlap := cellOverlap ar t.nDim left [right]
  let area := ar.add (cellArea ar t.nDim left) (cellArea ar t.nDim right)
  if nLeft = RTREE_MINCELLS t ∨ ar.lt overlap b.fBestOverlap ∨
      (ar.eq overlap b.fBestOverlap ∧ ar.lt area b.fBestArea) then
    ⟨margin, overlap, area, nLeft⟩
  else { b with margin := margin }

/-- The loop over `nLeft` in a dimension. -/
def dimensionLoop (t : Rtree D) (cells : List (RtreeCell D)) : Option (Best V) := do
  let first ← cells.head?
  let last ← cells.getLast?
  return (List.range' (RTREE_MINCELLS t) (cells.length - RTREE_MINCELLS t + 1 - RTREE_MINCELLS t)).foldl
    (splitAt ar t cells first last) ⟨ar.zero, ar.zero, ar.zero, 0⟩

/-- The cells in the order of `aIdx`. -/
def cellsOf (aCell : List (RtreeCell D)) (aIdx : List ℕ) : List (RtreeCell D) := aIdx.filterMap (aCell[·]?)

/-- The sorts in the dimensions `ii` and up, of which there are `n`. -/
def sortLoop (aCell : List (RtreeCell D)) : ℕ → ℕ → List ℕ → List (List ℕ) × Bool
  | 0, _, _ => ([], true)
  | n + 1, ii, aSpare =>
    let (sorted, aSpare, inside) := SortByDimension (List.range aCell.length) ii aCell aSpare
    let (aaSorted, rest) := sortLoop aCell n (ii + 1) aSpare
    (sorted :: aaSorted, inside && rest)

/-- The loop over the dimensions: the order in the best one, its margin and the split. -/
def bestLoop (t : Rtree D) (aCell : List (RtreeCell D)) :
    List (List ℕ) → Option (List ℕ × V × ℕ) → Option (List ℕ × V × ℕ)
  | [], best => best
  | sorted :: l, best => do
    let b ← dimensionLoop ar t (cellsOf aCell sorted)
    match best with
    | none => bestLoop t aCell l (some (sorted, b.margin, b.iBestLeft))
    | some (_, fBestMargin, _) =>
      if ar.lt b.margin fBestMargin then bestLoop t aCell l (some (sorted, b.margin, b.iBestLeft))
      else bestLoop t aCell l best

/-- The two nodes and their boxes, and whether the sorts stayed inside of their arrays. -/
structure Split (D : Type) where
  pLeft : List (RtreeCell D)
  pRight : List (RtreeCell D)
  pBboxLeft : RtreeCell D
  pBboxRight : RtreeCell D
  inside : Bool

/-- The loop that puts the cells into the nodes. -/
def assignLoop (t : Rtree D) (iBestSplit : ℕ) : List (RtreeCell D) → ℕ → Split D → Split D
  | [], _, s => s
  | pCell :: l, ii, s =>
    if ii < iBestSplit then assignLoop t iBestSplit l (ii + 1)
      { s with pLeft := nodeInsertCell t s.pLeft pCell, pBboxLeft := cellUnion t.nDim s.pBboxLeft pCell }
    else assignLoop t iBestSplit l (ii + 1)
      { s with pRight := nodeInsertCell t s.pRight pCell, pBboxRight := cellUnion t.nDim s.pBboxRight pCell }

/-- The spare array has zeros at first, like the whole of the allocation. The nodes are empty. -/
def splitNodeStartree (t : Rtree D) (aCell : List (RtreeCell D)) : Option (Split D) := do
  let (aaSorted, inside) := sortLoop aCell t.nDim 0 (List.replicate aCell.length 0)
  let (sorted, _, iBestSplit) ← bestLoop ar t aCell aaSorted none
  let cells := cellsOf aCell sorted
  let pBboxLeft ← cells[0]?
  let pBboxRight ← cells[iBestSplit]?
  return assignLoop t iBestSplit cells 0 ⟨[], [], pBboxLeft, pBboxRight, inside⟩

/-- How `SplitNode` divides the cells of a full node and one more. What it writes into the tables, and the
parent, are left out. -/
def SplitNode (t : Rtree D) (pNode : RtreeNode D) (pCell : RtreeCell D) : Option (Split D) :=
  splitNodeStartree ar t (pNode.cells ++ [pCell])

/-- The size of the nodes of a new table. -/
def getNodeSize (iPageSize nBytesPerCell : ℕ) : ℕ :=
  if 4 + nBytesPerCell * 51 < iPageSize - 64 then 4 + nBytesPerCell * 51 else iPageSize - 64

end Sqlite.RtreeSplit

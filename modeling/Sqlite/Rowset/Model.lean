import Mathlib.Data.Int.Notation
import Mathlib.Data.Nat.Notation
import Mathlib.Logic.Function.Basic

/-! Row sets (`rowset.c`): entries in memory, linked to the list of pending entries and to the
search trees of the forest, as `sqlite3RowSetInsert` and `sqlite3RowSetTest` use them. -/
namespace Sqlite.Rowset

structure RowSetEntry where
  v : ℤ
  pRight : Option ℕ
  pLeft : Option ℕ

/-- Entries are numbered from 1 in the order `rowSetEntryAlloc` hands them out, whatever chunk they
come from. Number 0 is the local `head` of `rowSetEntryMerge`. -/
abbrev Heap := ℕ → RowSetEntry

def Heap.setRight (m : Heap) (p : ℕ) (q : Option ℕ) : Heap :=
  Function.update m p { m p with pRight := q }

def Heap.setLeft (m : Heap) (p : ℕ) (q : Option ℕ) : Heap :=
  Function.update m p { m p with pLeft := q }

/-- The assertion on the lists that are merged. -/
def inOrder (m : Heap) (p : ℕ) : Bool :=
  match (m p).pRight with
  | none => true
  | some q => (m p).v ≤ (m q).v

/-- The loop of `rowSetEntryMerge` and what follows it. The first argument of a loop bounds its
rounds here and below; the result is `none` where it does not suffice or an assertion fails. -/
def mergeLoop : ℕ → Heap → ℕ → Option ℕ → Option ℕ → Option Heap
  | 0, _, _, _, _ => none
  | n + 1, m, pTail, some pA, some pB =>
    if inOrder m pA ∧ inOrder m pB then
      if (m pA).v < (m pB).v then
        let m := m.setRight pTail (some pA)
        mergeLoop n m pA (m pA).pRight (some pB)
      else if (m pB).v < (m pA).v then
        let m := m.setRight pTail (some pB)
        mergeLoop n m pB (some pA) (m pB).pRight
      else mergeLoop n m pTail (m pA).pRight (some pB)
    else none
  | _ + 1, m, pTail, some pA, none =>
    if inOrder m pA then some (m.setRight pTail (some pA)) else none
  | _ + 1, m, pTail, none, pB =>
    if pB.all (inOrder m) then some (m.setRight pTail pB) else none

def rowSetEntryMerge (n : ℕ) (m : Heap) (pA pB : Option ℕ) : Option (Heap × Option ℕ) :=
  (mergeLoop n m 0 pA pB).map fun m => (m, (m 0).pRight)

/-- The size of `aBucket`. -/
def nBucket : ℕ := 40

/-- The inner loop of `rowSetEntrySort` from `i` on, with `k` buckets left, and the assignment
behind it. It fails where it would leave `aBucket`. -/
def bucketLoop (n : ℕ) : ℕ → Heap → (ℕ → Option ℕ) → ℕ → Option ℕ → Option (Heap × (ℕ → Option ℕ))
  | 0, _, _, _, _ => none
  | k + 1, m, aBucket, i, pIn =>
    match aBucket i with
    | none => some (m, Function.update aBucket i pIn)
    | some p =>
      (rowSetEntryMerge n m (some p) pIn).bind fun r =>
        bucketLoop n k r.1 (Function.update aBucket i none) (i + 1) r.2

def sortLoop (n : ℕ) : ℕ → Heap → (ℕ → Option ℕ) → Option ℕ → Option (Heap × (ℕ → Option ℕ))
  | 0, _, _, _ => none
  | _ + 1, m, aBucket, none => some (m, aBucket)
  | k + 1, m, aBucket, some pIn =>
    (bucketLoop n nBucket (m.setRight pIn none) aBucket 0 (some pIn)).bind fun r =>
      sortLoop n k r.1 r.2 (m pIn).pRight

/-- The last loop of `rowSetEntrySort`, over `k` buckets from `i` on. -/
def collectLoop (n : ℕ) : ℕ → Heap → (ℕ → Option ℕ) → ℕ → Option ℕ → Option (Heap × Option ℕ)
  | 0, m, _, _, pIn => some (m, pIn)
  | k + 1, m, aBucket, i, pIn =>
    (rowSetEntryMerge n m pIn (aBucket i)).bind fun r => collectLoop n k r.1 aBucket (i + 1) r.2

def rowSetEntrySort (n : ℕ) (m : Heap) (pIn : Option ℕ) : Option (Heap × Option ℕ) :=
  (sortLoop n n m (fun _ => none) pIn).bind fun r => collectLoop n nBucket r.1 r.2 0 none

/-- The left half of `rowSetTreeToList`, where `f` is the function itself: `*ppFirst`. -/
def leftToList (f : Heap → ℕ → Option (Heap × ℕ × ℕ)) (m : Heap) (pIn : ℕ) : Option (Heap × ℕ) :=
  match (m pIn).pLeft with
  | none => some (m, pIn)
  | some pLeft => (f m pLeft).map fun r => (r.1.setRight r.2.2 (some pIn), r.2.1)

/-- The right half: `*ppLast`. -/
def rightToList (f : Heap → ℕ → Option (Heap × ℕ × ℕ)) (m : Heap) (pIn : ℕ) : Option (Heap × ℕ) :=
  match (m pIn).pRight with
  | none => some (m, pIn)
  | some pRight => (f m pRight).map fun r => (r.1.setRight pIn (some r.2.1), r.2.2)

/-- The result is `*ppFirst` and `*ppLast`. -/
def rowSetTreeToList : ℕ → Heap → ℕ → Option (Heap × ℕ × ℕ)
  | 0, _, _ => none
  | n + 1, m, pIn =>
    (leftToList (rowSetTreeToList n) m pIn).bind fun l =>
      (rightToList (rowSetTreeToList n) l.1 pIn).bind fun r =>
        if (r.1 r.2).pRight = none then some (r.1, l.2, r.2) else none

/-- The result is the tree and `*ppList`. -/
def rowSetNDeepTree : ℕ → Heap → Option ℕ → Option (Heap × Option ℕ × Option ℕ)
  | _, m, none => some (m, none, none)
  | 0, _, some _ => none
  | 1, m, some p =>
    some (Function.update m p { m p with pLeft := none, pRight := none }, some p, (m p).pRight)
  | iDepth + 2, m, some pList =>
    (rowSetNDeepTree (iDepth + 1) m (some pList)).bind fun l =>
      match l.2.2 with
      | none => some (l.1, l.2.1, none)
      | some p =>
        (rowSetNDeepTree (iDepth + 1) (l.1.setLeft p l.2.1) (l.1 p).pRight).map fun r =>
          (r.1.setRight p r.2.1, some p, r.2.2)

/-- The loop of `rowSetListToTree`. -/
def listToTreeLoop : ℕ → Heap → ℕ → ℕ → Option ℕ → Option (Heap × ℕ)
  | 0, _, _, _, _ => none
  | _ + 1, m, _, p, none => some (m, p)
  | n + 1, m, iDepth, pLeft, some p =>
    (rowSetNDeepTree iDepth (m.setLeft p (some pLeft)) (m p).pRight).bind fun r =>
      listToTreeLoop n (r.1.setRight p r.2.1) (iDepth + 1) p r.2.2

def rowSetListToTree (n : ℕ) (m : Heap) : Option ℕ → Option (Heap × ℕ)
  | none => none
  | some p =>
    listToTreeLoop n (Function.update m p { m p with pLeft := none, pRight := none }) 1 p (m p).pRight

structure RowSet where
  mem : Heap
  /-- The number of entries handed out so far. -/
  nEntry : ℕ := 0
  pEntry : Option ℕ := none
  pLast : Option ℕ := none
  pForest : Option ℕ := none
  /-- `ROWSET_SORTED` of `rsFlags`. -/
  sorted : Bool := true
  iBatch : ℕ := 0

/-- The memory of the entries is not initialised. -/
def sqlite3RowSetInit (mem : Heap) : RowSet := { mem }

def sqlite3RowSetInsert (p : RowSet) (rowid : ℤ) : RowSet :=
  let pEntry := p.nEntry + 1
  let mem : Heap := Function.update p.mem pEntry { p.mem pEntry with v := rowid, pRight := none }
  match p.pLast with
  | none =>
    { p with mem, nEntry := pEntry, pEntry := some pEntry, pLast := some pEntry }
  | some pLast =>
    { p with
      mem := mem.setRight pLast (some pEntry)
      nEntry := pEntry
      pLast := some pEntry
      sorted := p.sorted && !(rowid ≤ (mem pLast).v) }

/-- The loop of `sqlite3RowSetTest` over the forest, from the entry behind `ppPrevTree` (`none` for
`&pRowSet->pForest`). When no tree has room, `ppPrevTree` and the list are left. -/
def forestLoop (n : ℕ) :
    ℕ → Heap → Option ℕ → Option ℕ → Option ℕ → Option (Heap × Option (Option ℕ × Option ℕ))
  | 0, _, _, _, _ => none
  | _ + 1, m, ppPrevTree, none, p => some (m, some (ppPrevTree, p))
  | k + 1, m, _, some pTree, p =>
    match (m pTree).pLeft with
    | none => (rowSetListToTree n m p).map fun r => (r.1.setLeft pTree (some r.2), none)
    | some root =>
      (rowSetTreeToList n m root).bind fun r =>
        (rowSetEntryMerge n (r.1.setLeft pTree none) (some r.2.1) p).bind fun r =>
          forestLoop n k r.1 (some pTree) (r.1 pTree).pRight r.2

/-- The assignment to `*ppPrevTree` where it is in an entry. -/
def setPrevTree (m : Heap) (ppPrevTree : Option ℕ) (pTree : ℕ) : Heap :=
  match ppPrevTree with
  | none => m
  | some p => m.setRight p (some pTree)

/-- A new entry of the forest for the list `p`. -/
def addTree (s : RowSet) (m : Heap) (ppPrevTree p : Option ℕ) : Option RowSet :=
  let pTree := s.nEntry + 1
  let m := setPrevTree m ppPrevTree pTree
  let m : Heap := Function.update m pTree { m pTree with v := 0, pRight := none }
  (rowSetListToTree (s.nEntry + 1) m p).map fun r =>
    { s with
      mem := r.1.setLeft pTree (some r.2)
      nEntry := pTree
      pForest := if ppPrevTree = none then some pTree else s.pForest }

/-- The list `p` goes into the forest. -/
def addList (s : RowSet) (m : Heap) (p : Option ℕ) : Option RowSet :=
  (forestLoop (s.nEntry + 1) (s.nEntry + 1) m none s.pForest p).bind fun r =>
    match r.2 with
    | none => some { s with mem := r.1 }
    | some (ppPrevTree, p) => addTree s r.1 ppPrevTree p

/-- The part of `sqlite3RowSetTest` that moves the pending entries into the forest. -/
def flush (s : RowSet) : Option RowSet :=
  if s.pEntry = none then some s
  else
    (if s.sorted then some (s.mem, s.pEntry) else rowSetEntrySort (s.nEntry + 1) s.mem s.pEntry).bind
    fun r => (addList s r.1 r.2).map fun s => { s with pEntry := none, pLast := none, sorted := true }

/-- The search in one tree. -/
def treeSearch : ℕ → Heap → ℤ → Option ℕ → Option Bool
  | 0, _, _, _ => none
  | _ + 1, _, _, none => some false
  | n + 1, m, iRowid, some p =>
    if (m p).v < iRowid then treeSearch n m iRowid (m p).pRight
    else if iRowid < (m p).v then treeSearch n m iRowid (m p).pLeft
    else some true

def forestSearch (n : ℕ) : ℕ → Heap → ℤ → Option ℕ → Option Bool
  | 0, _, _, _ => none
  | _ + 1, _, _, none => some false
  | k + 1, m, iRowid, some pTree =>
    (treeSearch n m iRowid (m pTree).pLeft).bind fun found =>
      if found then some true else forestSearch n k m iRowid (m pTree).pRight

def sqlite3RowSetTest (s : RowSet) (iBatch : ℕ) (iRowid : ℤ) : Option (RowSet × Bool) :=
  (if iBatch ≠ s.iBatch then (flush s).map fun s => { s with iBatch } else some s).bind fun s =>
    (forestSearch (s.nEntry + 1) (s.nEntry + 1) s.mem iRowid s.pForest).map fun found => (s, found)

end Sqlite.Rowset

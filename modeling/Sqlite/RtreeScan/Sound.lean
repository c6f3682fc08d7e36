import Mathlib.Data.Nat.Basic
import Sqlite.RtreeScan.Descend

/-! The way on: from an entry to the next one that meets the constraints, and with it a query
is a linear scan. -/
namespace Sqlite.RtreeScan

variable {D : Type} [LinearOrder D] {t : Rtree D} {cons : List (RtreeConstraint D)} {depth h : ℕ}

/-- The cursors that a query gets to after it is done with cell `i` of a node at height `h`. -/
def after (t : Rtree D) (cons : List (RtreeConstraint D)) :
    ℕ → List (RtreeNode D) → ℕ → List (RtreeCursor D)
  | _, [], _ => []
  | h, n :: parents, i =>
    (List.range' (i + 1) (n.cells.length - (i + 1))).flatMap (hits t cons h (n :: parents)) ++
      match nodeParentIndex n parents with
      | some j => after t cons (h + 1) parents j
      | none => []

/-- A cursor at the first of some cursors, or at the end when there are none. -/
def IsFirst (c : RtreeCursor D) : List (RtreeCursor D) → Prop
  | [] => rtreeEof c = true
  | a :: _ => c = a

/-- The child of cell `i` finds its own number in that cell, and in no other. -/
theorem Path.parentIndex (hw : WellFormed t depth) {n : RtreeNode D} {parents : List (RtreeNode D)}
    (hp : Path t depth (h + 1) (n :: parents)) {i : ℕ} {cell : RtreeCell D}
    (hc : n.cells[i]? = some cell) : nodeRowidIndex n cell.iRowid = some i := by
  obtain ⟨n', parents', heq, hcells, -, hnodup⟩ := hp.facts hw
  cases heq
  rw [nodesOf, ← hcells, List.nodup_cons] at hnodup
  have hdisj := (List.nodup_flatMap.mp hnodup.2).2
  obtain ⟨hi, hget⟩ := List.getElem?_eq_some_iff.mp hc
  rw [nodeRowidIndex, List.findIdx?_eq_some_iff_getElem]
  refine ⟨hi, by simp [hget], fun j hj => ?_⟩
  have hij := List.pairwise_iff_getElem.mp hdisj j i (by omega) hi hj
  have hself (k : ℕ) (i : ℤ) : i ∈ nodesOf t k i := by cases k <;> simp [nodesOf]
  rw [decide_eq_true_iff]
  intro hsame
  refine hij (hself h _) ?_
  rw [hsame, hget]
  exact hself h _

/-- A step of the cursor: the rest of a node, and then the rest of its parents. -/
theorem nextLoop_isFirst (hw : WellFormed t depth) (hcons : ∀ p ∈ cons, p.iCoord < 2 * t.nDim)
    {pNode : List (RtreeNode D)} (hp : Path t depth h pNode) (i : ℕ) :
    ∃ c, nextLoop t cons h pNode i = some c ∧ IsFirst c (after t cons h pNode i) := by
  induction hp generalizing i with
  | root =>
    have hloop := cellLoop_eq (f := hits t cons depth [⟨1, cellsOf t 1⟩])
      (g := descendToCell t cons depth) ((cellsOf t 1).length - (i + 1)) (i + 1)
      fun k _ hk => descendToCell_eq hw hcons Path.root (by dsimp only; omega)
    simp only [nextLoop, after, nodeParentIndex, hloop, Option.bind_eq_bind, Option.bind_some,
      List.append_nil]
    cases (List.range' (i + 1) _).flatMap _ <;> simp [firstOf, IsFirst, rtreeEof]
  | @child h n parents k cell hpar hcell ih =>
    have hloop := cellLoop_eq (f := hits t cons h (childNode t cell (n :: parents)))
      (g := descendToCell t cons h) ((cellsOf t cell.iRowid).length - (i + 1)) (i + 1)
      fun k _ hk => descendToCell_eq hw hcons (hpar.child hcell) (by dsimp only; omega)
    have hindex : nodeParentIndex ⟨cell.iRowid, cellsOf t cell.iRowid⟩ (n :: parents) = some k :=
      hpar.parentIndex hw hcell
    rw [childNode] at hloop ⊢
    rw [nextLoop, after, hindex]
    simp only [hloop, Option.bind_eq_bind, Option.bind_some]
    cases (List.range' (i + 1) _).flatMap _ with
    | nil => simpa [firstOf] using ih k
    | cons a l => simp [firstOf, IsFirst]

omit [LinearOrder D] in
/-- Where a member of a list of lists stands. -/
theorem flatMap_range'_split {f : ℕ → List (RtreeCursor D)} {c : RtreeCursor D}
    {l₁ l₂ : List (RtreeCursor D)} (s n : ℕ)
    (heq : (List.range' s n).flatMap f = l₁ ++ c :: l₂) : ∃ k m₁ m₂, k < s + n ∧
      f k = m₁ ++ c :: m₂ ∧ l₂ = m₂ ++ (List.range' (k + 1) (s + n - (k + 1))).flatMap f := by
  induction n generalizing s l₁ with
  | zero => simp at heq
  | succ n ih =>
    rw [List.range'_succ, List.flatMap_cons] at heq
    rcases List.append_eq_append_iff.mp heq with ⟨m, hl₁, hrest⟩ | ⟨m, hf, hrest⟩
    · -- it is in a later list
      obtain ⟨k, m₁, m₂, hk, hfk, hl₂⟩ := ih (s + 1) hrest
      have hsum : s + 1 + n = s + (n + 1) := by omega
      rw [hsum] at hk hl₂
      exact ⟨k, m₁, m₂, hk, hfk, hl₂⟩
    · cases m with
      | nil =>
        obtain ⟨k, m₁, m₂, hk, hfk, hl₂⟩ := ih (s + 1) (hrest.symm.trans (List.nil_append _).symm)
        have hsum : s + 1 + n = s + (n + 1) := by omega
        rw [hsum] at hk hl₂
        exact ⟨k, m₁, m₂, hk, hfk, hl₂⟩
      | cons a m =>
        rw [List.cons_append, List.cons.injEq] at hrest
        obtain ⟨rfl, rfl⟩ := hrest
        have hlen : s + (n + 1) - (s + 1) = n := by omega
        exact ⟨s, l₁, m, by omega, hf, by rw [hlen]⟩

/-- After a hit come the later ones below the same cell, and then what comes after the cell. -/
theorem after_hit (hw : WellFormed t depth) {n : RtreeNode D} {parents : List (RtreeNode D)}
    (hp : Path t depth h (n :: parents)) {i : ℕ} (hi : i < n.cells.length) {c : RtreeCursor D}
    {l₁ l₂ : List (RtreeCursor D)} (heq : hits t cons h (n :: parents) i = l₁ ++ c :: l₂) :
    after t cons 0 c.pNode c.iCell = l₂ ++ after t cons h (n :: parents) i := by
  induction h generalizing n parents i l₁ l₂ with
  | zero =>
    rw [hits, entries, List.filter_singleton] at heq
    cases hit : decide (testRtreeEntry cons ⟨n :: parents, i⟩ = some false) with
    | false => simp [hit] at heq
    | true =>
      rw [hit, cond_true, List.singleton_eq_append_iff] at heq
      obtain ⟨-, heq⟩ | ⟨-, heq⟩ := heq
      · cases heq
        rfl
      · simp at heq
  | succ h ih =>
    have hc : n.cells[i]? = some n.cells[i] := List.getElem?_eq_getElem hi
    have hchild : childAt t (n :: parents) i = childNode t n.cells[i] (n :: parents) := by
      simp [childAt, nodeGetCell, hc]
    rw [hits_succ, hchild] at heq
    obtain ⟨k, m₁, m₂, hk, hfk, hl₂⟩ := flatMap_range'_split _ _ heq
    have hk' : k < (cellsOf t n.cells[i].iRowid).length := by simpa [nCell, childNode] using hk
    have hindex : nodeParentIndex ⟨n.cells[i].iRowid, cellsOf t n.cells[i].iRowid⟩ (n :: parents) =
      some i := hp.parentIndex hw hc
    rw [ih (hp.child hc) hk' hfk, hl₂, after, hindex, List.append_assoc]
    simp [nCell, childNode]

/-- All the cursors of a query, in their order. -/
def allHits (t : Rtree D) (cons : List (RtreeConstraint D)) (depth : ℕ) : List (RtreeCursor D) :=
  (List.range' 0 (cellsOf t 1).length).flatMap (hits t cons depth [⟨1, cellsOf t 1⟩])

theorem Path.of_hit (hw : WellFormed t depth) {c : RtreeCursor D} (hin : c ∈ allHits t cons depth) :
    Path t depth 0 c.pNode := by
  obtain ⟨k, hk, hin⟩ := List.mem_flatMap.mp hin
  have hk' : k < (cellsOf t 1).length := by simpa using hk
  obtain ⟨leaf, -, hpath, -, -⟩ := entries_within hw Path.root (List.getElem?_eq_getElem hk')
    (List.mem_of_mem_filter hin)
  exact hpath

theorem after_allHits (hw : WellFormed t depth) {c : RtreeCursor D} {l₁ l₂ : List (RtreeCursor D)}
    (heq : allHits t cons depth = l₁ ++ c :: l₂) : after t cons 0 c.pNode c.iCell = l₂ := by
  obtain ⟨k, m₁, m₂, hk, hfk, hl₂⟩ := flatMap_range'_split _ _ heq
  rw [after_hit hw Path.root (by simpa using hk) hfk, hl₂]
  simp [after, nodeParentIndex]

theorem scan_from (hw : WellFormed t depth) (hcons : ∀ p ∈ cons, p.iCoord < 2 * t.nDim)
    {c : RtreeCursor D} {l₁ l₂ : List (RtreeCursor D)}
    (heq : allHits t cons depth = l₁ ++ c :: l₂) : Scan t cons c (c :: l₂) := by
  induction l₂ generalizing c l₁ with
  | nil =>
    have hin : c ∈ allHits t cons depth := by simp [heq]
    have hpath : Path t depth 0 c.pNode := .of_hit hw hin
    obtain ⟨c', hnext, hfirst⟩ := nextLoop_isFirst hw hcons hpath c.iCell
    rw [after_allHits hw heq] at hfirst
    obtain ⟨n, parents, hcons', -⟩ := hpath.facts hw
    exact .next (by simp [rtreeEof, hcons']) hnext (.eof hfirst)
  | cons c₂ l₂ ih =>
    have hin : c ∈ allHits t cons depth := by simp [heq]
    have hpath : Path t depth 0 c.pNode := .of_hit hw hin
    obtain ⟨c', hnext, hfirst⟩ := nextLoop_isFirst hw hcons hpath c.iCell
    rw [after_allHits hw heq] at hfirst
    obtain ⟨n, parents, hcons', -⟩ := hpath.facts hw
    have hrest : allHits t cons depth = (l₁ ++ [c]) ++ c₂ :: l₂ := by simp [heq]
    cases hfirst
    exact .next (by simp [rtreeEof, hcons']) hnext (ih hrest)

/-- Positions of a list, in their order. -/
theorem flatMap_range'_eq {α β : Type} {f : ℕ → List β} {g : α → List β} {l : List α} (s : ℕ)
    (hfg : ∀ i (hi : i < l.length), f (s + i) = g l[i]) :
    (List.range' s l.length).flatMap f = l.flatMap g := by
  induction l generalizing s with
  | nil => rfl
  | cons a l ih =>
    have htail := ih (s + 1) fun i hi => by
      have h1 := hfg (i + 1) (by simpa using hi)
      rwa [← Nat.add_assoc, Nat.add_right_comm] at h1
    have hhead : f s = g a := hfg 0 (Nat.succ_pos _)
    simp [List.range'_succ, htail, hhead]

/-- The entries below a node, as a scan of its leaves gives them. -/
theorem entries_cells (hw : WellFormed t depth) {n : RtreeNode D} {parents : List (RtreeNode D)}
    (hp : Path t depth h (n :: parents)) :
    ((List.range' 0 n.cells.length).flatMap (entries t h (n :: parents))).map nodeGetCell =
      (leafCells t h n.iNode).map some := by
  induction h generalizing n parents with
  | zero =>
    obtain ⟨n', parents', heq, hcells, -, -⟩ := hp.facts hw
    cases heq
    rw [List.map_flatMap, leafCells, ← hcells, List.map_eq_flatMap]
    refine flatMap_range'_eq 0 fun i hi => ?_
    simp [entries, nodeGetCell, hi]
  | succ h ih =>
    obtain ⟨n', parents', heq, hcells, -, -⟩ := hp.facts hw
    cases heq
    rw [List.map_flatMap, leafCells, ← hcells, List.map_flatMap]
    refine flatMap_range'_eq 0 fun i hi => ?_
    have hc : n.cells[i]? = some n.cells[i] := List.getElem?_eq_getElem hi
    have hchild : childAt t (n :: parents) i = childNode t n.cells[i] (n :: parents) := by
      simp [childAt, nodeGetCell, hc]
    rw [Nat.zero_add, entries, hchild]
    exact ih (hp.child hc)

theorem allHits_cells (hw : WellFormed t depth) : (allHits t cons depth).map nodeGetCell =
    ((leafCells t depth 1).filter fun cell => cons.all (·.admits cell)).map some := by
  have hall := entries_cells hw Path.root
  have htest (c : RtreeCursor D) : decide (testRtreeEntry cons c = some false) =
      (nodeGetCell c).any fun cell => cons.all (·.admits cell) := by
    rw [Bool.eq_iff_iff]
    cases hget : nodeGetCell c <;> simp [testRtreeEntry, hget]
  have hfilter : allHits t cons depth = ((List.range' 0 (cellsOf t 1).length).flatMap
      (entries t depth [⟨1, cellsOf t 1⟩])).filter
        ((fun o : Option (RtreeCell D) => o.any fun cell => cons.all (·.admits cell)) ∘
          nodeGetCell) := by
    rw [List.filter_flatMap, allHits]
    congr 1
    funext i
    rw [hits]
    congr 1
    funext c
    exact htest c
  rw [hfilter, ← List.filter_map, hall, List.filter_map]
  rfl

/-- A query gets to the entries that a linear scan finds, to each once, and then to its end. -/
theorem rtree_query_sound (hw : WellFormed t depth)
    (hcons : ∀ p ∈ cons, p.iCoord < 2 * t.nDim) : ∃ c l, rtreeFilter t cons = some c ∧
      Scan t cons c l ∧ l.map nodeGetCell =
        ((leafCells t depth 1).filter fun cell => cons.all (·.admits cell)).map some := by
  obtain ⟨z, hz, hdepth⟩ := hw.root
  have hroot : nodeAcquire t 1 [] = some [⟨1, cellsOf t 1⟩] := hw.tree.acquire hw []
  have hloop := cellLoop_eq (f := hits t cons depth [⟨1, cellsOf t 1⟩])
    (g := descendToCell t cons depth) (nCell [⟨1, cellsOf t 1⟩]) 0
    fun k _ hk => descendToCell_eq hw hcons Path.root (by simpa [nCell] using hk)
  have hfilter : ∃ c, rtreeFilter t cons = some c ∧ IsFirst c (allHits t cons depth) := by
    simp only [rtreeFilter, hz, hdepth, hroot, hloop, Option.bind_eq_bind, Option.bind_some]
    change ∃ c, _ ∧ IsFirst c ((List.range' 0 (nCell [⟨1, cellsOf t 1⟩])).flatMap _)
    cases (List.range' 0 _).flatMap _ <;> simp [firstOf, IsFirst, rtreeEof]
  obtain ⟨c, hc, hfirst⟩ := hfilter
  refine ⟨c, allHits t cons depth, hc, ?_, allHits_cells hw⟩
  cases hall : allHits t cons depth with
  | nil =>
    rw [hall] at hfirst
    exact .eof hfirst
  | cons a l =>
    rw [hall] at hfirst
    cases hfirst
    exact scan_from hw hcons (hall.trans (List.nil_append _).symm)

/-- A root above one leaf with the intervals from 1 to 3 and from 4 to 6. -/
def twoIntervals : Rtree ℕ :=
  ⟨1, 100, fun i =>
    if i = 1 then some ⟨1, [⟨2, fun k => if k = 0 then 1 else 6⟩]⟩
    else if i = 2 then
      some ⟨0, [⟨10, fun k => if k = 0 then 1 else 3⟩, ⟨11, fun k => if k = 0 then 4 else 6⟩]⟩
    else none⟩

theorem rtree_query_sound_two : ∃ c l,
    rtreeFilter twoIntervals [⟨0, .RTREE_GE, 2⟩] = some c ∧
      Scan twoIntervals [⟨0, .RTREE_GE, 2⟩] c l ∧ l.map nodeGetCell =
        ((leafCells twoIntervals 1 1).filter fun cell =>
          [(⟨0, .RTREE_GE, 2⟩ : RtreeConstraint ℕ)].all (·.admits cell)).map some := by
  refine rtree_query_sound ⟨?_, by decide, ?_, by decide⟩ (by simp [twoIntervals])
  · simp [twoIntervals]
  · simp [IsTree, twoIntervals, Rtree.maxCells, Rtree.nBytesPerCell, IsBox, Within]

end Sqlite.RtreeScan

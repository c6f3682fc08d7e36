import Mathlib.Data.List.Nodup
import Sqlite.RtreeScan.Model

/-! The way down: from a cell to the first entry below it that meets the constraints. -/
namespace Sqlite.RtreeScan

variable {D : Type} [LinearOrder D] {t : Rtree D} {cons : List (RtreeConstraint D)} {depth h : ℕ}

/-- The child of a cell, with its parents. -/
def childNode (t : Rtree D) (cell : RtreeCell D) (pNode : List (RtreeNode D)) : List (RtreeNode D) :=
  ⟨cell.iRowid, cellsOf t cell.iRowid⟩ :: pNode

def childAt (t : Rtree D) (pNode : List (RtreeNode D)) (i : ℕ) : List (RtreeNode D) :=
  match nodeGetCell ⟨pNode, i⟩ with
  | some cell => childNode t cell pNode
  | none => []

/-- The entries below cell `i` of a node, each as a cursor that points at it. -/
def entries (t : Rtree D) : ℕ → List (RtreeNode D) → ℕ → List (RtreeCursor D)
  | 0, pNode, i => [⟨pNode, i⟩]
  | h + 1, pNode, i =>
    (List.range' 0 (nCell (childAt t pNode i))).flatMap (entries t h (childAt t pNode i))

/-- Those that meet the constraints. -/
def hits (t : Rtree D) (cons : List (RtreeConstraint D)) (h : ℕ) (pNode : List (RtreeNode D))
    (i : ℕ) : List (RtreeCursor D) :=
  (entries t h pNode i).filter fun c => testRtreeEntry cons c = some false

/-- The first of some cursors, or `c` at the end. -/
def firstOf (c : RtreeCursor D) : List (RtreeCursor D) → Bool × RtreeCursor D
  | [] => (true, c)
  | a :: _ => (false, a)

theorem hits_succ (pNode : List (RtreeNode D)) (i : ℕ) : hits t cons (h + 1) pNode i =
    (List.range' 0 (nCell (childAt t pNode i))).flatMap (hits t cons h (childAt t pNode i)) := by
  rw [hits, entries, List.filter_flatMap]
  rfl

/-- A node and its parents, in a tree of some depth. -/
inductive Path (t : Rtree D) (depth : ℕ) : ℕ → List (RtreeNode D) → Prop
  | root : Path t depth depth [⟨1, cellsOf t 1⟩]
  | child {h : ℕ} {n : RtreeNode D} {parents : List (RtreeNode D)} {i : ℕ} {cell : RtreeCell D} :
      Path t depth (h + 1) (n :: parents) → n.cells[i]? = some cell →
      Path t depth h (childNode t cell (n :: parents))

theorem IsTree.node {i : ℤ} (ht : IsTree t h i) :
    ∃ z, t.node i = some z ∧ cellsOf t i = z.cells ∧ z.cells.length ≤ t.maxCells := by
  cases h with
  | zero =>
    obtain ⟨z, hz, hlen, -⟩ := ht
    exact ⟨z, hz, by simp [cellsOf, hz], hlen⟩
  | succ h =>
    obtain ⟨z, hz, hlen, -⟩ := ht
    exact ⟨z, hz, by simp [cellsOf, hz], hlen⟩

theorem IsTree.below {i : ℤ} (ht : IsTree t (h + 1) i) {cell : RtreeCell D}
    (hc : cell ∈ cellsOf t i) : IsTree t h cell.iRowid ∧
      ∀ cell' ∈ cellsOf t cell.iRowid, Within t.nDim cell' cell := by
  obtain ⟨z, hz, -, hall⟩ := ht
  have hcells : cellsOf t i = z.cells := by simp [cellsOf, hz]
  rw [hcells] at hc
  obtain ⟨hsub, z', hz', hin⟩ := hall cell hc
  have hcells' : cellsOf t cell.iRowid = z'.cells := by simp [cellsOf, hz']
  rw [hcells']
  exact ⟨hsub, hin⟩

theorem IsTree.box {i : ℤ} (ht : IsTree t 0 i) {cell : RtreeCell D} (hc : cell ∈ cellsOf t i) :
    IsBox t.nDim cell := by
  obtain ⟨z, hz, -, hall⟩ := ht
  have hcells : cellsOf t i = z.cells := by simp [cellsOf, hz]
  rw [hcells] at hc
  exact hall cell hc

/-- What a node on a path is. -/
theorem Path.facts (hw : WellFormed t depth) {pNode : List (RtreeNode D)} (hp : Path t depth h pNode) :
    ∃ n parents, pNode = n :: parents ∧ n.cells = cellsOf t n.iNode ∧ IsTree t h n.iNode ∧
      (nodesOf t h n.iNode).Nodup := by
  induction hp with
  | root => exact ⟨_, _, rfl, rfl, hw.tree, hw.once⟩
  | @child h n parents i cell _ hcell ih =>
    obtain ⟨n', parents', heq, hcells, htree, hnodup⟩ := ih
    cases heq
    have hmem : cell ∈ cellsOf t n.iNode := by
      rw [← hcells]
      exact List.mem_of_getElem? hcell
    refine ⟨_, _, rfl, rfl, (htree.below hmem).1, ?_⟩
    rw [nodesOf, List.nodup_cons] at hnodup
    exact (List.nodup_flatMap.mp hnodup.2).1 cell hmem

theorem IsTree.acquire (hw : WellFormed t depth) {i : ℤ} (ht : IsTree t h i)
    (pParent : List (RtreeNode D)) :
    nodeAcquire t i pParent = some (⟨i, cellsOf t i⟩ :: pParent) := by
  obtain ⟨z, hz, hcells, hlen⟩ := ht.node
  have hdepth : ¬ (i = 1 ∧ RTREE_MAX_DEPTH < z.iDepth) := by
    rintro ⟨rfl, h2⟩
    obtain ⟨z₁, hz₁, hd⟩ := hw.root
    rw [hz₁] at hz
    cases hz
    rw [hd] at h2
    exact absurd hw.bounded (Nat.not_le.mpr h2)
  simp [nodeAcquire, hz, hdepth, Nat.not_lt.mpr hlen, hcells]

theorem Path.acquire (hw : WellFormed t depth) {pNode : List (RtreeNode D)} {cell : RtreeCell D}
    (hp : Path t depth h (childNode t cell pNode)) :
    nodeAcquire t cell.iRowid pNode = some (childNode t cell pNode) := by
  obtain ⟨n, parents, heq, -, htree, -⟩ := hp.facts hw
  cases heq
  exact htree.acquire hw pNode

/-- Entries are within the boxes of the cells above them. -/
theorem entries_within (hw : WellFormed t depth) {n : RtreeNode D} {parents : List (RtreeNode D)}
    (hp : Path t depth h (n :: parents)) {i : ℕ} {cell : RtreeCell D} (hc : n.cells[i]? = some cell)
    {c : RtreeCursor D} (hin : c ∈ entries t h (n :: parents) i) :
    ∃ leaf, nodeGetCell c = some leaf ∧ Path t depth 0 c.pNode ∧ IsBox t.nDim leaf ∧
      Within t.nDim leaf cell := by
  induction h generalizing n parents i cell with
  | zero =>
    rw [entries, List.mem_singleton] at hin
    subst hin
    obtain ⟨n', parents', heq, hcells, htree, -⟩ := hp.facts hw
    cases heq
    refine ⟨cell, by simp [nodeGetCell, hc], hp, ?_, fun d _ => ⟨le_rfl, le_rfl⟩⟩
    refine htree.box ?_
    rw [← hcells]
    exact List.mem_of_getElem? hc
  | succ h ih =>
    have hchild : childAt t (n :: parents) i = childNode t cell (n :: parents) := by
      simp [childAt, nodeGetCell, hc]
    rw [entries, hchild, List.mem_flatMap] at hin
    obtain ⟨k, hk, hin⟩ := hin
    have hk' : k < (cellsOf t cell.iRowid).length := by
      simpa [nCell, childNode] using hk
    obtain ⟨leaf, hleaf, hpath, hbox, hwithin⟩ :=
      ih (hp.child hc) (List.getElem?_eq_getElem hk') hin
    refine ⟨leaf, hleaf, hpath, hbox, fun d hd => ?_⟩
    obtain ⟨n', parents', heq, hcells, htree, -⟩ := hp.facts hw
    cases heq
    have hmem : cell ∈ cellsOf t n.iNode := by
      rw [← hcells]
      exact List.mem_of_getElem? hc
    have hup := (htree.below hmem).2 _ (List.getElem_mem hk') d hd
    have hlow := hwithin d hd
    exact ⟨le_trans hup.1 hlow.1, le_trans hlow.2 hup.2⟩

/-- A constraint that a cell's box rules out is met by no entry below it. -/
theorem not_admits_of_excludes {p : RtreeConstraint D} {cell leaf : RtreeCell D}
    (hp : p.iCoord < 2 * t.nDim) (hbox : IsBox t.nDim leaf) (hin : Within t.nDim leaf cell)
    (hx : p.excludes cell = true) : p.admits leaf = false := by
  obtain ⟨d, hd⟩ : ∃ d, p.iCoord = 2 * d ∨ p.iCoord = 2 * d + 1 :=
    ⟨p.iCoord / 2, by omega⟩
  have hshift : p.iCoord >>> 1 = d := by
    rw [Nat.shiftRight_eq_div_pow]
    omega
  have hdim : d < t.nDim := by omega
  obtain ⟨hmin, hmax⟩ := hin d hdim
  have hlr := hbox d hdim
  -- the coordinate that is tested lies between the two of the leaf
  have hlow : cell.aCoord (2 * d) ≤ leaf.aCoord p.iCoord := by
    rcases hd with hd | hd <;> rw [hd]
    · exact hmin
    · exact le_trans hmin hlr
  have hhigh : leaf.aCoord p.iCoord ≤ cell.aCoord (2 * d + 1) := by
    rcases hd with hd | hd <;> rw [hd]
    · exact le_trans hlr hmax
    · exact hmax
  rw [RtreeConstraint.excludes, hshift, Nat.mul_comm d 2] at hx
  rw [RtreeConstraint.admits]
  cases hop : p.op <;> simp only [hop] at hx ⊢
  case RTREE_LE => simpa using lt_of_lt_of_le (of_decide_eq_true hx) hlow
  case RTREE_LT => simpa using le_of_lt (lt_of_lt_of_le (of_decide_eq_true hx) hlow)
  case RTREE_GE => simpa using lt_of_le_of_lt hhigh (of_decide_eq_true hx)
  case RTREE_GT => simpa using le_of_lt (lt_of_le_of_lt hhigh (of_decide_eq_true hx))
  case RTREE_EQ =>
    rw [Bool.or_eq_true, decide_eq_true_iff, decide_eq_true_iff] at hx
    rw [decide_eq_false_iff_not]
    intro heq
    rcases hx with hx | hx
    · exact absurd (heq ▸ hhigh) (not_le.mpr hx)
    · exact absurd (heq ▸ hlow) (not_le.mpr hx)

theorem hits_pruned (hw : WellFormed t depth) (hcons : ∀ p ∈ cons, p.iCoord < 2 * t.nDim)
    {n : RtreeNode D} {parents : List (RtreeNode D)} (hp : Path t depth h (n :: parents)) {i : ℕ}
    {cell : RtreeCell D} (hc : n.cells[i]? = some cell)
    (hx : cons.any (·.excludes cell) = true) : hits t cons h (n :: parents) i = [] := by
  rw [hits, List.filter_eq_nil_iff]
  intro c hin
  obtain ⟨leaf, hleaf, -, hbox, hwithin⟩ := entries_within hw hp hc hin
  obtain ⟨p, hpc, hpx⟩ := List.any_eq_true.mp hx
  have hno := not_admits_of_excludes (hcons p hpc) hbox hwithin hpx
  have hall : cons.all (·.admits leaf) = false := by
    rw [List.all_eq_false]
    exact ⟨p, hpc, by simp [hno]⟩
  simp [testRtreeEntry, hleaf, hall]

omit [LinearOrder D] in
/-- A loop over cells goes to the first entry that is found below them. -/
theorem cellLoop_eq {g : RtreeCursor D → Option (Bool × RtreeCursor D)}
    {pNode : List (RtreeNode D)} {f : ℕ → List (RtreeCursor D)} (n ii : ℕ)
    (hd : ∀ k, ii ≤ k → k < ii + n → g ⟨pNode, k⟩ = some (firstOf ⟨pNode, k⟩ (f k))) :
    cellLoop g pNode n ii =
      some (firstOf ⟨pNode, ii + n⟩ ((List.range' ii n).flatMap f)) := by
  induction n generalizing ii with
  | zero => rfl
  | succ n ih =>
    have hone := hd ii (Nat.le_refl ii) (by omega)
    have hrest := ih (ii + 1) fun k h1 h2 => hd k (by omega) (by omega)
    rw [cellLoop, hone, List.range'_succ, List.flatMap_cons]
    cases hf : f ii with
    | nil =>
      rw [List.nil_append]
      have hsum : ii + (n + 1) = ii + 1 + n := by omega
      rw [hsum, ← hrest]
      rfl
    | cons a l => rfl

theorem descendToCell_eq (hw : WellFormed t depth) (hcons : ∀ p ∈ cons, p.iCoord < 2 * t.nDim)
    {n : RtreeNode D} {parents : List (RtreeNode D)} (hp : Path t depth h (n :: parents)) {i : ℕ}
    (hi : i < n.cells.length) : descendToCell t cons h ⟨n :: parents, i⟩ =
      some (firstOf ⟨n :: parents, i⟩ (hits t cons h (n :: parents) i)) := by
  induction h generalizing n parents i with
  | zero =>
    have hget : nodeGetCell ⟨n :: parents, i⟩ = some n.cells[i] := by simp [nodeGetCell, hi]
    cases hall : cons.all (·.admits n.cells[i]) <;>
      simp [descendToCell, hits, entries, testRtreeEntry, hget, hall, firstOf]
  | succ h ih =>
    have hget : nodeGetCell ⟨n :: parents, i⟩ = some n.cells[i] := by simp [nodeGetCell, hi]
    have hc : n.cells[i]? = some n.cells[i] := List.getElem?_eq_getElem hi
    cases hx : cons.any (·.excludes n.cells[i]) with
    | true =>
      rw [hits_pruned hw hcons hp hc hx]
      simp [descendToCell, testRtreeCell, hget, hx, firstOf]
    | false =>
      have hchild : childAt t (n :: parents) i = childNode t n.cells[i] (n :: parents) := by
        simp [childAt, hget]
      have hpath := hp.child hc
      have hloop := cellLoop_eq (f := hits t cons h (childNode t n.cells[i] (n :: parents)))
        (g := descendToCell t cons h) (nCell (childNode t n.cells[i] (n :: parents))) 0
        fun k _ hk => ih hpath (by simpa [nCell, childNode] using hk)
      rw [hits_succ, hchild]
      generalize (List.range' 0 _).flatMap _ = l at hloop ⊢
      change cellLoop _ (childNode t n.cells[i] (n :: parents)) _ _ = _ at hloop
      simp only [descendToCell, testRtreeCell, hget, hx, hpath.acquire hw, hloop, pure_bind,
        Option.bind_eq_bind, Option.bind_some, Bool.false_eq_true, if_false]
      cases l <;> rfl

end Sqlite.RtreeScan

import Mathlib.Data.List.Pairwise
import Sqlite.BtreeCursor.Model

/-! B-trees and their entries, and the places in them at which a cursor may be. -/
namespace Sqlite.BtreeCursor

variable {K : Type}

def pageAt (t : BtShared K) (pgno : ℕ) : MemPage K := (t.page pgno).getD ⟨false, true, [], 0⟩

def keysOf (p : MemPage K) : List K := p.cells.map Cell.key

/-- The entry that an interior cell is, which it is not in a table. -/
def separator (p : MemPage K) (i : ℕ) : List K := if p.intKey then [] else (keysOf p)[i]?.toList

/-- The entries of child `i`, which `f` gives, and of the cell after it. -/
def block (f : ℕ → List K) (p : MemPage K) (i : ℕ) : List K := f (childPgno p i) ++ separator p i

/-- The entries below a page that come before its child `i`. -/
def before (f : ℕ → List K) (p : MemPage K) (i : ℕ) : List K := (List.range' 0 i).flatMap (block f p)

/-- Those that come after it. -/
def behind (f : ℕ → List K) (p : MemPage K) (i : ℕ) : List K :=
  separator p i ++ (List.range' (i + 1) (p.nCell - i)).flatMap (block f p)

/-- The entries of a tree of some height, in their order. -/
def entries (t : BtShared K) : ℕ → ℕ → List K
  | 0, pgno => keysOf (pageAt t pgno)
  | h + 1, pgno => before (entries t h) (pageAt t pgno) ((pageAt t pgno).nCell + 1)

theorem keysOf_length (p : MemPage K) : (keysOf p).length = p.nCell := List.length_map ..

theorem before_succ (f : ℕ → List K) (p : MemPage K) (i : ℕ) :
    before f p (i + 1) = before f p i ++ (f (childPgno p i) ++ separator p i) := by
  simp [before, List.range'_concat, block]

theorem behind_of_lt (f : ℕ → List K) {p : MemPage K} {i : ℕ} (hi : i < p.nCell) :
    behind f p i = separator p i ++ (f (childPgno p (i + 1)) ++ behind f p (i + 1)) := by
  have hlen : p.nCell - i = p.nCell - (i + 1) + 1 := by omega
  rw [behind, behind, hlen, List.range'_succ, List.flatMap_cons, block, List.append_assoc]

theorem separator_nCell (p : MemPage K) : separator p p.nCell = [] := by
  have hnone : (keysOf p)[p.nCell]? = none := by simp [keysOf_length]
  simp [separator, hnone]

theorem behind_nCell (f : ℕ → List K) (p : MemPage K) : behind f p p.nCell = [] := by
  simp [behind, separator_nCell]

theorem childPgno_nCell (p : MemPage K) : childPgno p p.nCell = p.rightChild := by
  simp [childPgno, MemPage.nCell]

theorem before_split (f : ℕ → List K) {p : MemPage K} {i : ℕ} (hi : i ≤ p.nCell) :
    before f p (p.nCell + 1) = before f p i ++ (f (childPgno p i) ++ behind f p i) := by
  have hlen : p.nCell + 1 = i + (p.nCell - i + 1) := by omega
  have hrange : List.range' 0 (p.nCell + 1) =
      List.range' 0 i ++ i :: List.range' (i + 1) (p.nCell - i) := by
    rw [hlen, List.range'_append_1.symm, Nat.zero_add, List.range'_succ]
  rw [before, hrange, List.flatMap_append, List.flatMap_cons, block, behind, List.append_assoc]
  rfl

section
variable [LinearOrder K]

/-- A tree of height `h`, whose pages below the first one have cells, and whose cells separate their
children. In a table a cell may have the key of the last entry before it. -/
def IsTree (t : BtShared K) (intKey : Bool) : ℕ → ℕ → Prop
  | 0, pgno => ∃ p, t.page pgno = some p ∧ p.intKey = intKey ∧ p.leaf = true ∧
      (keysOf p).Pairwise (· < ·)
  | h + 1, pgno => ∃ p, t.page pgno = some p ∧ p.intKey = intKey ∧ p.leaf = false ∧
      (keysOf p).Pairwise (· < ·) ∧ ∀ i ≤ p.nCell, IsTree t intKey h (childPgno p i) ∧
        0 < (pageAt t (childPgno p i)).nCell ∧ ∀ x ∈ entries t h (childPgno p i),
          ∀ j key, (keysOf p)[j]? = some key →
            (i ≤ j → x ≤ key ∧ (intKey = false → x ≠ key)) ∧ (j < i → key < x)

/-- A b-tree at a root page, which is 0 while the file has no pages. Only page 1 may be the root
without a cell above another page. -/
structure WellFormed (t : BtShared K) (root : ℕ) (intKey : Bool) (depth : ℕ) : Prop where
  zero : t.page 0 = none
  tree : root ≠ 0 → IsTree t intKey depth root
  single : root ≠ 0 → (pageAt t root).nCell = 0 → (pageAt t root).leaf = false → root = 1
  bounded : depth < BTCURSOR_MAX_DEPTH

variable {t : BtShared K} {intKey : Bool} {root depth h pgno : ℕ}

theorem IsTree.page (ht : IsTree t intKey h pgno) : t.page pgno = some (pageAt t pgno) ∧
    (pageAt t pgno).intKey = intKey ∧ (pageAt t pgno).leaf = decide (h = 0) ∧
    (keysOf (pageAt t pgno)).Pairwise (· < ·) := by
  cases h with
  | zero =>
    obtain ⟨p, hp, hkey, hleaf, hsort⟩ := ht
    have hat : pageAt t pgno = p := by simp [pageAt, hp]
    simp [hat, hp, hkey, hleaf, hsort]
  | succ h =>
    obtain ⟨p, hp, hkey, hleaf, hsort, -⟩ := ht
    have hat : pageAt t pgno = p := by simp [pageAt, hp]
    simp [hat, hp, hkey, hleaf, hsort]

theorem IsTree.child (ht : IsTree t intKey (h + 1) pgno) {i : ℕ} (hi : i ≤ (pageAt t pgno).nCell) :
    IsTree t intKey h (childPgno (pageAt t pgno) i) ∧
      0 < (pageAt t (childPgno (pageAt t pgno) i)).nCell := by
  obtain ⟨p, hp, -, -, -, hall⟩ := ht
  have hat : pageAt t pgno = p := by simp [pageAt, hp]
  rw [hat] at hi ⊢
  exact ⟨(hall i hi).1, (hall i hi).2.1⟩

/-- Where the entries of child `i` lie between the cells. -/
theorem IsTree.between (ht : IsTree t intKey (h + 1) pgno) {i : ℕ}
    (hi : i ≤ (pageAt t pgno).nCell) {x : K}
    (hx : x ∈ entries t h (childPgno (pageAt t pgno) i)) {j : ℕ} {key : K}
    (hj : (keysOf (pageAt t pgno))[j]? = some key) :
    (i ≤ j → x ≤ key ∧ (intKey = false → x ≠ key)) ∧ (j < i → key < x) := by
  obtain ⟨p, hp, -, -, -, hall⟩ := ht
  have hat : pageAt t pgno = p := by simp [pageAt, hp]
  rw [hat] at hi hx hj
  exact (hall i hi).2.2 x hx j key hj

omit [LinearOrder K] in
theorem mem_separator {p : MemPage K} {i : ℕ} {x : K} (hx : x ∈ separator p i) :
    p.intKey = false ∧ (keysOf p)[i]? = some x := by
  cases hkey : p.intKey with
  | true => simp [separator, hkey] at hx
  | false => simpa [separator, hkey] using hx

theorem IsTree.sorted (ht : IsTree t intKey h pgno) : (entries t h pgno).Pairwise (· < ·) := by
  induction h generalizing pgno with
  | zero => exact ht.page.2.2.2
  | succ h ih =>
    obtain ⟨-, hkey, -, hsort⟩ := ht.page
    rw [entries, before, List.pairwise_flatMap]
    constructor
    · intro i hi
      have hi' : i ≤ (pageAt t pgno).nCell := by simpa [Nat.lt_succ_iff] using hi
      rw [block, List.pairwise_append]
      refine ⟨ih (ht.child hi').1, ?_, ?_⟩
      · rw [separator]
        split
        · exact .nil
        · cases (keysOf (pageAt t pgno))[i]? <;> simp
      · intro x hx y hy
        obtain ⟨hidx, hy⟩ := mem_separator hy
        obtain ⟨hle, hne⟩ := (ht.between hi' hx hy).1 (Nat.le_refl i)
        exact lt_of_le_of_ne hle (hne (hkey ▸ hidx))
    · rw [List.pairwise_iff_getElem]
      intro i j hi hj hij x hx y hy
      rw [List.getElem_range', Nat.one_mul, Nat.zero_add] at hx hy
      rw [List.length_range'] at hi hj
      rw [block, List.mem_append] at hx hy
      have hi' : i < (keysOf (pageAt t pgno)).length := by
        rw [keysOf_length]
        omega
      have hcell : (keysOf (pageAt t pgno))[i]? = some (keysOf (pageAt t pgno))[i] :=
        List.getElem?_eq_getElem hi'
      -- cell `i` is between the two blocks
      have hx' : x ≤ (keysOf (pageAt t pgno))[i] := by
        rcases hx with hx | hx
        · exact ((ht.between (by omega) hx hcell).1 (Nat.le_refl i)).1
        · obtain ⟨-, hx⟩ := mem_separator hx
          exact le_of_eq (Option.some_inj.mp (hx.symm.trans hcell))
      have hy' : (keysOf (pageAt t pgno))[i] < y := by
        rcases hy with hy | hy
        · exact (ht.between (by omega) hy hcell).2 hij
        · obtain ⟨-, hy⟩ := mem_separator hy
          obtain ⟨hj', hy⟩ := List.getElem?_eq_some_iff.mp hy
          rw [← hy]
          exact List.pairwise_iff_getElem.mp hsort i j hi' hj' hij
      exact lt_of_le_of_lt hx' hy'

/-- The entries of the tree at `root`. -/
def allEntries (t : BtShared K) (root depth : ℕ) : List K :=
  if root = 0 then [] else entries t depth root

theorem WellFormed.sorted (hw : WellFormed t root intKey depth) :
    (allEntries t root depth).Pairwise (· < ·) := by
  rw [allEntries]
  split
  · exact .nil
  · exact (hw.tree ‹_›).sorted

/-- The way from the root to a page, with the entries before and after those of the page. -/
inductive Above (t : BtShared K) (root depth : ℕ) :
    ℕ → ℕ → List (ℕ × ℕ) → List K → List K → Prop
  | root : root ≠ 0 → Above t root depth depth root [] [] []
  | child {h pgno : ℕ} {parents : List (ℕ × ℕ)} {pre post : List K} {i : ℕ} :
      Above t root depth (h + 1) pgno parents pre post → i ≤ (pageAt t pgno).nCell →
      Above t root depth h (childPgno (pageAt t pgno) i) ((pgno, i) :: parents)
        (pre ++ before (entries t h) (pageAt t pgno) i)
        (behind (entries t h) (pageAt t pgno) i ++ post)

/-- A cursor at an entry, with those before and after it. -/
inductive At (t : BtShared K) (root depth : ℕ) : List (ℕ × ℕ) → List K → K → List K → Prop
  | leaf {pgno : ℕ} {parents : List (ℕ × ℕ)} {pre post l₁ l₂ : List K} {x : K} :
      Above t root depth 0 pgno parents pre post → keysOf (pageAt t pgno) = l₁ ++ x :: l₂ →
      At t root depth ((pgno, l₁.length) :: parents) (pre ++ l₁) x (l₂ ++ post)
  | interior {h pgno : ℕ} {parents : List (ℕ × ℕ)} {pre post : List K} {i : ℕ} {x : K} :
      Above t root depth (h + 1) pgno parents pre post → (pageAt t pgno).intKey = false →
      (keysOf (pageAt t pgno))[i]? = some x →
      At t root depth ((pgno, i) :: parents)
        (pre ++ before (entries t h) (pageAt t pgno) i ++ entries t h (childPgno (pageAt t pgno) i)) x
        (entries t h (childPgno (pageAt t pgno) (i + 1)) ++
          behind (entries t h) (pageAt t pgno) (i + 1) ++ post)

variable {parents : List (ℕ × ℕ)} {pre post : List K}

theorem Above.facts (hw : WellFormed t root intKey depth)
    (ha : Above t root depth h pgno parents pre post) : root ≠ 0 ∧ IsTree t intKey h pgno ∧
      parents.length + h = depth ∧ entries t depth root = pre ++ (entries t h pgno ++ post) := by
  induction ha with
  | root hne => exact ⟨hne, hw.tree hne, by simp, by simp⟩
  | @child h pgno parents pre post i _ hi ih =>
    obtain ⟨hne, htree, hlen, heq⟩ := ih
    refine ⟨hne, (htree.child hi).1, by simp; omega, ?_⟩
    rw [heq, entries, before_split _ hi]
    simp

theorem At.split (hw : WellFormed t root intKey depth) {stack : List (ℕ × ℕ)} {x : K}
    (ha : At t root depth stack pre x post) : allEntries t root depth = pre ++ x :: post := by
  cases ha with
  | @leaf pgno parents pre post l₁ l₂ x hup hkeys =>
    obtain ⟨hne, -, -, heq⟩ := hup.facts hw
    rw [allEntries, if_neg hne, heq, entries, hkeys]
    simp
  | @interior h pgno parents pre post i x hup hidx hx =>
    obtain ⟨hne, htree, -, heq⟩ := hup.facts hw
    have hi : i < (pageAt t pgno).nCell := by
      obtain ⟨hi, -⟩ := List.getElem?_eq_some_iff.mp hx
      rwa [keysOf_length] at hi
    have hsep : separator (pageAt t pgno) i = [x] := by simp [separator, hidx, hx]
    rw [allEntries, if_neg hne, heq, entries, before_split _ (Nat.le_of_lt hi), behind_of_lt _ hi, hsep]
    simp

end

end Sqlite.BtreeCursor

import Mathlib.Data.Nat.Bitwise
import Mathlib.Order.Interval.Finset.Nat
import Mathlib.Order.Lattice
import Sqlite.Wal.Index

/-! Merging sorted lists of frames, where the frame of the right list hides one of the left list
that holds the same page. -/
namespace Sqlite.Wal


/-! The iterator of a checkpoint over the pages of the log: a merge sort of the frames of each
block, and the merge of the blocks. -/

/-- An array of `ht_slot` entries, with positions relative to the list that is sorted. -/
abbrev Slots := ℕ → ℕ

def readSlots (mem : Slots) (a n : ℕ) : List ℕ := (List.range n).map fun i => mem (a + i)

def writeSlots (mem : Slots) (a : ℕ) (l : List ℕ) : Slots := fun x =>
  if a ≤ x ∧ x < a + l.length then l.getD (x - a) 0 else mem x

structure Sublist where
  nList : ℕ
  aList : ℕ

/-- The entry that the loop of `walMerge` takes next, and what is left of both lists. -/
def pick (aContent : ℕ → ℕ) : List ℕ → List ℕ → Option (ℕ × List ℕ × List ℕ)
  | [], [] => none
  | l :: left, [] => some (l, left, [])
  | [], r :: right => some (r, [], right)
  | l :: left, r :: right =>
    if aContent l < aContent r then some (l, left, r :: right) else some (r, l :: left, right)

/-- The list without its first entry if that is for the page `dbpage`. -/
def skipPage (aContent : ℕ → ℕ) (dbpage : ℕ) : List ℕ → List ℕ
  | [] => []
  | l :: left => if aContent l = dbpage then left else l :: left

/-- An assertion of the loop: the next entry is for a greater page. -/
def ahead (aContent : ℕ → ℕ) (dbpage : ℕ) : List ℕ → Bool
  | [] => true
  | l :: _ => dbpage < aContent l

/-- The loop of `walMerge`, which ends within as many rounds as there are entries. The result is
`none` where an assertion fails. -/
def mergeLoop (aContent : ℕ → ℕ) : ℕ → List ℕ → List ℕ → Option (List ℕ)
  | 0, left, right => if left = [] ∧ right = [] then some [] else none
  | n + 1, left, right =>
    match pick aContent left right with
    | none => some []
    | some (logpage, left, right) =>
      let dbpage := aContent logpage
      let left := skipPage aContent dbpage left
      if ahead aContent dbpage left ∧ ahead aContent dbpage right then
        (mergeLoop aContent n left right).map (logpage :: ·)
      else none

/-- The merged list goes over the left one. -/
def walMerge (aContent : ℕ → ℕ) (mem : Slots) (aLeft aRight : Sublist) : Option (Slots × Sublist) :=
  if 0 < aLeft.nList ∧ 0 < aRight.nList then
    (mergeLoop aContent (aLeft.nList + aRight.nList) (readSlots mem aLeft.aList aLeft.nList)
      (readSlots mem aRight.aList aRight.nList)).map fun aTmp =>
        (writeSlots mem aLeft.aList aTmp, ⟨aTmp.length, aLeft.aList⟩)
  else none

/-- `ArraySize(aSub)`. -/
def nSub : ℕ := 13

/-- The inner loop of `walMergesort` from `iSub` on, with `n` entries of `aSub` left. -/
def carryLoop (aContent : ℕ → ℕ) (iList : ℕ) (aSub : ℕ → Option Sublist) :
    ℕ → ℕ → Slots → Sublist → Option (ℕ × Slots × Sublist)
  | 0, _, _, _ => none
  | n + 1, iSub, mem, aMerge =>
    if iList.testBit iSub then
      match aSub iSub with
      | none => none
      | some p =>
        if p.nList ≤ 2 ^ iSub ∧ p.aList = iList / 2 ^ (iSub + 1) * 2 ^ (iSub + 1) then
          (walMerge aContent mem p aMerge).bind fun r =>
            carryLoop aContent iList aSub n (iSub + 1) r.1 r.2
        else none
    else some (iSub, mem, aMerge)

structure SortState where
  mem : Slots
  aSub : ℕ → Option Sublist := fun _ => none
  iSub : ℕ := 0
  aMerge : Sublist := ⟨0, 0⟩

/-- The first loop of `walMergesort` for the first `n` entries. -/
def sortLoop (aContent : ℕ → ℕ) (aList : Slots) : ℕ → Option SortState
  | 0 => some { mem := aList }
  | n + 1 =>
    (sortLoop aContent aList n).bind fun s =>
      (carryLoop aContent n s.aSub nSub 0 s.mem ⟨1, n⟩).map fun r =>
        { mem := r.2.1, aSub := Function.update s.aSub r.1 (some r.2.2), iSub := r.1
          aMerge := r.2.2 }

/-- The second loop, with `n` entries of `aSub` left. -/
def foldLoop (aContent : ℕ → ℕ) (nList : ℕ) (aSub : ℕ → Option Sublist) :
    ℕ → ℕ → Slots → Sublist → Option (Slots × Sublist)
  | 0, _, mem, aMerge => some (mem, aMerge)
  | n + 1, iSub, mem, aMerge =>
    if nList.testBit iSub then
      match aSub iSub with
      | none => none
      | some p =>
        if p.nList ≤ 2 ^ iSub ∧ p.aList = nList / 2 ^ (iSub + 1) * 2 ^ (iSub + 1) then
          (walMerge aContent mem p aMerge).bind fun r =>
            foldLoop aContent nList aSub n (iSub + 1) r.1 r.2
        else none
    else foldLoop aContent nList aSub n (iSub + 1) mem aMerge

/-- The list is sorted in place; the result is the array with the number of entries left. -/
def walMergesort (aContent : ℕ → ℕ) (aList : Slots) (nList : ℕ) : Option (Slots × ℕ) :=
  if nList ≤ HASHTABLE_NPAGE ∧ 0 < nList then
    (sortLoop aContent aList nList).bind fun s =>
      (foldLoop aContent nList s.aSub (nSub - (s.iSub + 1)) (s.iSub + 1) s.mem s.aMerge).bind
        fun r => if r.2.aList = 0 then some (r.1, r.2.nList) else none
  else none

structure WalSegment where
  iNext : ℕ
  aIndex : Slots
  aPgno : ℕ → ℕ
  nEntry : ℕ
  iZero : ℕ

structure WalIterator where
  iPrior : ℕ
  aSegment : List WalSegment

/-- The entries of block `i`. Its `aPgno` counts from 0 here, as after `aPgno++`. -/
def initSegment (wi : WalIndex) (iLast nSegment i : ℕ) : Option WalSegment :=
  let pgno := fun j => aPgno wi i (j + 1)
  let nEntry := if i + 1 = nSegment then iLast - iZero i else HASHTABLE_NPAGE - hdrWords i
  (walMergesort pgno (fun j => j) nEntry).map fun r =>
    { iNext := 0, aIndex := r.1, aPgno := pgno, nEntry := r.2, iZero := iZero i + 1 }

/-- The result is `none` where an assertion fails. -/
def walIteratorInit (wi : WalIndex) (iLast : ℕ) : Option WalIterator :=
  if 0 < iLast then
    ((List.range (walFramePage iLast + 1)).mapM
      (initSegment wi iLast (walFramePage iLast + 1))).map fun aSegment => { iPrior := 0, aSegment }
  else none

/-- The page of the entry `i`. -/
def WalSegment.page (s : WalSegment) (i : ℕ) : ℕ := s.aPgno (s.aIndex i)

/-- The inner loop of `walIteratorNext`: entries up to the page `iMin` are passed. -/
def skipEntries (iMin : ℕ) : ℕ → WalSegment → WalSegment
  | 0, s => s
  | n + 1, s =>
    if s.iNext < s.nEntry ∧ s.page s.iNext ≤ iMin then
      skipEntries iMin n { s with iNext := s.iNext + 1 }
    else s

/-- The segments from the last to the first: the segments, the least page and its frame. -/
def nextLoop (iMin : ℕ) : List WalSegment → List WalSegment × ℕ × ℕ
  | [] => ([], 0xFFFFFFFF, 0)
  | s :: segments =>
    let r := nextLoop iMin segments
    let s := skipEntries iMin (s.nEntry - s.iNext) s
    if s.iNext < s.nEntry ∧ s.page s.iNext < r.2.1 then
      (s :: r.1, s.page s.iNext, s.iZero + s.aIndex s.iNext)
    else (s :: r.1, r.2)

/-- The iterator, the page and the frame, and 1 at the end. -/
def walIteratorNext (p : WalIterator) : Option (WalIterator × ℕ × ℕ × ℕ) :=
  if p.iPrior < 0xFFFFFFFF then
    let r := nextLoop p.iPrior p.aSegment
    some ({ iPrior := r.2.1, aSegment := r.1 }, r.2.1, r.2.2, if r.2.1 = 0xFFFFFFFF then 1 else 0)
  else none

/-- The pages and frames that at most `n` calls return before the one that reports the end. -/
def walIteratorAll : ℕ → WalIterator → Option (List (ℕ × ℕ))
  | 0, _ => none
  | n + 1, p =>
    (walIteratorNext p).bind fun r =>
      if r.2.2.2 = 1 then some [] else (walIteratorAll n r.1).map ((r.2.1, r.2.2.1) :: ·)

variable {c : ℕ → ℕ} {left right l r out : List ℕ} {x d n : ℕ}

/-- Entries for strictly increasing pages. -/
def Increasing (c : ℕ → ℕ) (l : List ℕ) : Prop := l.Pairwise fun a b => c a < c b

theorem pick_none (h : pick c left right = none) : left = [] ∧ right = [] := by
  cases left with
  | nil =>
    cases right with
    | nil => simp
    | cons r right => simp [pick] at h
  | cons l left =>
    cases right with
    | nil => simp [pick] at h
    | cons r right =>
      rw [pick] at h
      split_ifs at h

/-- The entry taken is the first of one list, and it is before all others, where the one of the
left list is before all of the right. -/
theorem pick_some (hl : Increasing c left) (hr : Increasing c right)
    (h : pick c left right = some (x, l, r)) :
    (∀ y ∈ l, c x ≤ c y) ∧ (∀ y ∈ r, c x < c y) ∧
      ((left = x :: l ∧ right = r) ∨ (left = l ∧ right = x :: r)) := by
  cases left with
  | nil =>
    cases right with
    | nil => simp [pick] at h
    | cons b right =>
      simp only [pick, Option.some.injEq, Prod.mk.injEq] at h
      obtain ⟨rfl, rfl, rfl⟩ := h
      exact ⟨by simp, (List.pairwise_cons.mp hr).1, Or.inr ⟨rfl, rfl⟩⟩
  | cons a left =>
    have ha := (List.pairwise_cons.mp hl).1
    cases right with
    | nil =>
      simp only [pick, Option.some.injEq, Prod.mk.injEq] at h
      obtain ⟨rfl, rfl, rfl⟩ := h
      exact ⟨fun y hy => (ha y hy).le, by simp, Or.inl ⟨rfl, rfl⟩⟩
    | cons b right =>
      have hb := (List.pairwise_cons.mp hr).1
      rw [pick] at h
      split_ifs at h with hlt
      · simp only [Option.some.injEq, Prod.mk.injEq] at h
        obtain ⟨rfl, rfl, rfl⟩ := h
        refine ⟨fun y hy => (ha y hy).le, fun y hy => ?_, Or.inl ⟨rfl, rfl⟩⟩
        rcases List.mem_cons.mp hy with rfl | hy
        · exact hlt
        · exact lt_trans hlt (hb y hy)
      · simp only [Option.some.injEq, Prod.mk.injEq] at h
        obtain ⟨rfl, rfl, rfl⟩ := h
        refine ⟨fun y hy => ?_, hb, Or.inr ⟨rfl, rfl⟩⟩
        rcases List.mem_cons.mp hy with rfl | hy
        · exact not_lt.mp hlt
        · exact (lt_of_le_of_lt (not_lt.mp hlt) (ha y hy)).le

theorem skipPage_spec (hl : Increasing c left) (hle : ∀ y ∈ left, d ≤ c y) :
    Increasing c (skipPage c d left) ∧ (∀ y ∈ skipPage c d left, d < c y) ∧
      ∀ y, y ∈ skipPage c d left ↔ y ∈ left ∧ c y ≠ d := by
  cases left with
  | nil => simp [skipPage, Increasing]
  | cons a left =>
    obtain ⟨ha, htail⟩ := List.pairwise_cons.mp hl
    have had := hle a (by simp)
    rw [skipPage]
    split_ifs with heq
    · refine ⟨htail, fun y hy => heq ▸ ha y hy, fun y => ?_⟩
      constructor
      · intro hy
        have hlt := ha y hy
        exact ⟨List.mem_cons_of_mem _ hy, by omega⟩
      · rintro ⟨hy, hne⟩
        rcases List.mem_cons.mp hy with rfl | hy
        · exact absurd heq hne
        · exact hy
    · have hall : ∀ y ∈ a :: left, d < c y := by
        intro y hy
        rcases List.mem_cons.mp hy with rfl | hy
        · omega
        · have hlt := ha y hy
          omega
      refine ⟨hl, hall, fun y => ?_⟩
      constructor
      · intro hy
        have hlt := hall y hy
        exact ⟨hy, by omega⟩
      · exact fun hy => hy.1

theorem ahead_of_lt (h : ∀ y ∈ left, d < c y) : ahead c d left = true := by
  cases left with
  | nil => simp [ahead]
  | cons a left => simpa [ahead] using h a (by simp)

theorem length_skipPage (c : ℕ → ℕ) (d : ℕ) (left : List ℕ) :
    (skipPage c d left).length ≤ left.length := by
  cases left with
  | nil => simp [skipPage]
  | cons a left =>
    rw [skipPage]
    split_ifs <;> simp

/-- The merged list has the entries of the right list and those of the left list for other pages. -/
theorem mergeLoop_spec (hl : Increasing c left) (hr : Increasing c right)
    (hn : left.length + right.length ≤ n) :
    ∃ out, mergeLoop c n left right = some out ∧ Increasing c out ∧
      ∀ y, y ∈ out ↔ y ∈ right ∨ (y ∈ left ∧ ∀ z ∈ right, c z ≠ c y) := by
  induction n generalizing left right with
  | zero =>
    have hleft : left = [] := List.length_eq_zero_iff.mp (by omega)
    have hright : right = [] := List.length_eq_zero_iff.mp (by omega)
    subst hleft hright
    exact ⟨[], by simp [mergeLoop], by simp [Increasing], by simp⟩
  | succ n ih =>
    cases hp : pick c left right with
    | none =>
      obtain ⟨rfl, rfl⟩ := pick_none hp
      exact ⟨[], by simp [mergeLoop, pick], by simp [Increasing], by simp⟩
    | some t =>
      obtain ⟨x, l, r⟩ := t
      obtain ⟨hxl, hxr, hcases⟩ := pick_some hl hr hp
      have hlr : Increasing c l ∧ Increasing c r ∧ l.length + r.length ≤ n := by
        rcases hcases with ⟨rfl, rfl⟩ | ⟨rfl, rfl⟩
        · exact ⟨(List.pairwise_cons.mp hl).2, hr, by simp at hn; omega⟩
        · exact ⟨hl, (List.pairwise_cons.mp hr).2, by simp at hn; omega⟩
      obtain ⟨hskip, hahead, hmem⟩ := skipPage_spec hlr.1 hxl
      have hlen := length_skipPage c (c x) l
      obtain ⟨out, hout, hinc, hiff⟩ := ih hskip hlr.2.1 (by omega)
      refine ⟨x :: out, ?_, ?_, ?_⟩
      · rw [mergeLoop, hp]
        dsimp only
        rw [if_pos ⟨ahead_of_lt hahead, ahead_of_lt hxr⟩, hout]
        simp
      · apply List.pairwise_cons.mpr ⟨fun y hy => ?_, hinc⟩
        rcases (hiff y).mp hy with hy | ⟨hy, -⟩
        · exact hxr y hy
        · exact hahead y hy
      · intro y
        rw [List.mem_cons, hiff, hmem]
        rcases hcases with ⟨rfl, rfl⟩ | ⟨rfl, rfl⟩
        · have hx := (List.pairwise_cons.mp hl).1
          grind
        · grind

/-- The entries of a range of frames: the last one for each page, in the order of the pages. -/
structure IsIndex (c : ℕ → ℕ) (a b : ℕ) (l : List ℕ) : Prop where
  increasing : Increasing c l
  mem : ∀ y, y ∈ l ↔ a ≤ y ∧ y < b ∧ ∀ j, y < j → j < b → c j ≠ c y

variable {a b m : ℕ}

theorem IsIndex.covers (h : IsIndex c a b l) {j : ℕ} (ha : a ≤ j) (hb : j < b) :
    ∃ z ∈ l, j ≤ z ∧ c z = c j := by
  have hle : j ≤ b - 1 := by omega
  refine ⟨Nat.findGreatest (fun z => c z = c j) (b - 1), ?_, Nat.le_findGreatest hle rfl,
    Nat.findGreatest_spec (P := fun z => c z = c j) hle rfl⟩
  have hspec := Nat.findGreatest_spec (P := fun z => c z = c j) hle rfl
  have hge : j ≤ Nat.findGreatest (fun z => c z = c j) (b - 1) := Nat.le_findGreatest hle rfl
  have hmax := Nat.findGreatest_le (P := fun z => c z = c j) (b - 1)
  apply (h.mem _).mpr
  refine ⟨by omega, by omega, fun i hi hib heq => ?_⟩
  exact Nat.findGreatest_is_greatest hi (by omega) (heq.trans hspec)

theorem IsIndex.nonempty (h : IsIndex c a b l) (hab : a < b) : 0 < l.length := by
  have hlast : b - 1 ∈ l := (h.mem _).mpr ⟨by omega, by omega, fun j hj hjb => by omega⟩
  exact List.length_pos_of_mem hlast

theorem IsIndex.length_le (h : IsIndex c a b l) : l.length ≤ b - a := by
  have hnodup : l.Nodup := h.increasing.imp fun hlt heq => by simp [heq] at hlt
  have hsub : l.toFinset ⊆ Finset.Ico a b := by
    intro y hy
    have hmem := (h.mem y).mp (List.mem_toFinset.mp hy)
    exact Finset.mem_Ico.mpr ⟨hmem.1, hmem.2.1⟩
  have hcard := Finset.card_le_card hsub
  rwa [List.toFinset_card_of_nodup hnodup, Nat.card_Ico] at hcard

theorem isIndex_singleton (c : ℕ → ℕ) (a : ℕ) : IsIndex c a (a + 1) [a] where
  increasing := by simp [Increasing]
  mem := by
    intro y
    simp only [List.mem_singleton]
    constructor
    · rintro rfl
      exact ⟨le_rfl, by omega, fun j hj hjb => by omega⟩
    · rintro ⟨ha, hb, -⟩
      omega

/-- The entries of two adjacent ranges are merged to those of both. -/
theorem IsIndex.merge (hl : IsIndex c a m left) (hr : IsIndex c m b right) (ham : a ≤ m) (hmb : m ≤ b) :
    ∃ out, mergeLoop c (left.length + right.length) left right = some out ∧ IsIndex c a b out := by
  obtain ⟨out, hout, hinc, hmem⟩ := mergeLoop_spec hl.increasing hr.increasing le_rfl
  refine ⟨out, hout, hinc, fun y => ?_⟩
  rw [hmem, hl.mem, hr.mem]
  constructor
  · rintro (⟨hy, hyb, hlast⟩ | ⟨⟨hy, hym, hlast⟩, hne⟩)
    · exact ⟨by omega, hyb, hlast⟩
    · refine ⟨hy, by omega, fun j hj hjb heq => ?_⟩
      by_cases hjm : j < m
      · exact hlast j hj hjm heq
      · obtain ⟨z, hz, -, hzj⟩ := hr.covers (not_lt.mp hjm) hjb
        exact hne z hz (hzj.trans heq)
  · rintro ⟨hy, hyb, hlast⟩
    by_cases hym : y < m
    · refine Or.inr ⟨⟨hy, hym, fun j hj hjm => hlast j hj (by omega)⟩, fun z hz => ?_⟩
      have hz' := (hr.mem z).mp hz
      exact hlast z (by omega) hz'.2.1
    · exact Or.inl ⟨by omega, hyb, hlast⟩

end Sqlite.Wal

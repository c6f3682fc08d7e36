import Mathlib.Data.Nat.Notation
import Mathlib.Order.Basic
import Mathlib.Order.Lattice

/-! A merge sort of an array in place: the sorted left half is copied to a spare array, and merged with the
right half where that is. What a step of the merge reads is left to a parameter. -/
namespace Sqlite.Foundation

/-- What a step of the merge does: whether it takes the element from the left half, and whether all that it
reads is inside of the arrays. -/
structure MergeStep where
  takeLeft : Bool
  inside : Bool

section Definitions

variable {α : Type*} [Inhabited α] (step : Bool → Bool → Option α → Option α → MergeStep)

/-- The merge of `nLeft` elements of the spare array with those of `a` from `nLeft` on. `step` is given
whether each half is used up, and what the arrays have at the two positions. -/
def mergeLoop (spare : List α) (nLeft nRight : ℕ) : ℕ → ℕ → ℕ → List α → List α × Bool
  | 0, _, _, a => (a, true)
  | n + 1, iLeft, iRight, a =>
    if iLeft < nLeft ∨ iRight < nRight then
      let l := spare[iLeft]?
      let r := a[nLeft + iRight]?
      let s := step (iLeft == nLeft) (iRight == nRight) l r
      let p := if s.takeLeft
        then mergeLoop spare nLeft nRight n (iLeft + 1) iRight (a.set (iLeft + iRight) (l.getD default))
        else mergeLoop spare nLeft nRight n iLeft (iRight + 1) (a.set (iLeft + iRight) (r.getD default))
      (p.1, s.inside && p.2)
    else (a, true)

/-- The array, the spare array, and whether all reads and writes were inside of them. -/
def spareSort (a spare : List α) : List α × List α × Bool :=
  if 1 < a.length then
    let nLeft := a.length / 2
    let nRight := a.length - nLeft
    let (aLeft, spare, okLeft) := spareSort (a.take nLeft) spare
    let (aRight, spare, okRight) := spareSort (a.drop nLeft) spare
    let fits : Bool := nLeft ≤ spare.length
    let spare := aLeft ++ spare.drop nLeft
    let (a, ok) := mergeLoop step spare nLeft nRight a.length 0 0 (aLeft ++ aRight)
    (a, spare, okLeft && okRight && fits && ok)
  else (a, spare, true)
termination_by a.length
decreasing_by
  · rw [List.length_take]; omega
  · rw [List.length_drop]; omega

variable {κ : Type*} [LinearOrder κ] (key : α → κ)

/-- At every level of the sort some key of the right half is greater than all those of the left half. -/
def halvesRise (a : List α) : Bool :=
  if 1 < a.length then
    halvesRise (a.take (a.length / 2)) && halvesRise (a.drop (a.length / 2)) &&
      (a.drop (a.length / 2)).any fun r => (a.take (a.length / 2)).all fun l => key l < key r
  else true
termination_by a.length
decreasing_by
  · rw [List.length_take]; omega
  · rw [List.length_drop]; omega

/-- The elements for which `P` holds are taken in the order of the keys, from the right half if they are
equal. -/
structure TakesLower (P : α → Prop) : Prop where
  left_done : ∀ l r, P r → (step true false l (some r)).takeLeft = false
  right_done : ∀ l r, P l → (step false true (some l) r).takeLeft = true
  both : ∀ l r, P l → P r → (step false false (some l) (some r)).takeLeft = decide (key l < key r)

/-- Whether a step reads inside of the arrays. With `both` it reads them at both positions, else only where
an element is left. -/
structure Reads (both : Bool) (P : α → Prop) : Prop where
  left_done : ∀ l r, P r → (both = true → ∃ x, l = some x ∧ P x) → (step true false l (some r)).inside = true
  right_done : ∀ l, P l → (step false true (some l) none).inside = !both
  both : ∀ l r, P l → P r → (step false false (some l) (some r)).inside = true

end Definitions

variable {α κ : Type*} [LinearOrder κ] {key : α → κ} {l r : α} {ls rs : List α}

/-- The merge of sorted lists is sorted. -/
theorem pairwise_merge_lt (hl : ls.Pairwise fun x y => key x ≤ key y)
    (hr : rs.Pairwise fun x y => key x ≤ key y) :
    (ls.merge rs fun x y => key x < key y).Pairwise fun x y => key x ≤ key y := by
  induction ls generalizing rs with
  | nil => rwa [List.nil_merge]
  | cons l ls ihl =>
    induction rs with
    | nil => rwa [List.merge_right]
    | cons r rs ihr =>
      obtain ⟨hlmin, hl'⟩ := List.pairwise_cons.mp hl
      obtain ⟨hrmin, hr'⟩ := List.pairwise_cons.mp hr
      by_cases hlt : key l < key r
      · rw [List.cons_merge_cons_pos _ _ _ (decide_eq_true hlt)]
        refine List.pairwise_cons.mpr ⟨fun x hx => ?_, ihl hl' hr⟩
        rcases List.mem_merge.mp hx with hx | hx
        · exact hlmin x hx
        · rcases List.mem_cons.mp hx with rfl | hx
          · exact hlt.le
          · exact hlt.le.trans (hrmin x hx)
      · rw [List.cons_merge_cons_neg _ _ _ (by simpa using hlt)]
        refine List.pairwise_cons.mpr ⟨fun x hx => ?_, ihr hr'⟩
        rcases List.mem_merge.mp hx with hx | hx
        · rcases List.mem_cons.mp hx with rfl | hx
          · exact not_lt.mp hlt
          · exact (not_lt.mp hlt).trans (hlmin x hx)
        · exact hrmin x hx

/-- The merge does not use up the right list before the left one. -/
def rightLasts (key : α → κ) : List α → List α → Bool
  | [], _ => true
  | _ :: _, [] => false
  | l :: ls, r :: rs =>
    if key l < key r then rightLasts key ls (r :: rs) else rightLasts key (l :: ls) rs
termination_by ls rs => ls.length + rs.length

theorem rightLasts_iff (hl : ls.Pairwise fun x y => key x ≤ key y) :
    rightLasts key ls rs = true ↔ ls = [] ∨ ∃ r ∈ rs, ∀ l ∈ ls, key l < key r := by
  fun_induction rightLasts key ls rs with
  | case1 => simp
  | case2 => simp
  | case3 l ls r rs hlt ih =>
    obtain ⟨hlmin, hl'⟩ := List.pairwise_cons.mp hl
    rw [ih hl']
    constructor
    · intro h
      refine .inr ?_
      cases ls with
      | nil => exact ⟨r, List.mem_cons_self, by simpa using hlt⟩
      | cons z zs =>
        obtain ⟨y, hy, hall⟩ := h.resolve_left (List.cons_ne_nil z zs)
        refine ⟨y, hy, fun x hx => ?_⟩
        rcases List.mem_cons.mp hx with rfl | hx
        · exact (hlmin z List.mem_cons_self).trans_lt (hall z List.mem_cons_self)
        · exact hall x hx
    · rintro (hnil | ⟨y, hy, hall⟩)
      · exact absurd hnil (List.cons_ne_nil l ls)
      · exact .inr ⟨y, hy, fun x hx => hall x (List.mem_cons_of_mem l hx)⟩
  | case4 l ls r rs hlt ih =>
    rw [ih hl]
    constructor
    · rintro (hnil | ⟨y, hy, hall⟩)
      · exact absurd hnil (List.cons_ne_nil l ls)
      · exact .inr ⟨y, List.mem_cons_of_mem r hy, hall⟩
    · rintro (hnil | ⟨y, hy, hall⟩)
      · exact absurd hnil (List.cons_ne_nil l ls)
      · rcases List.mem_cons.mp hy with rfl | hy
        · exact absurd (hall l List.mem_cons_self) hlt
        · exact .inr ⟨y, hy, hall⟩

variable {spare a out : List α} {nLeft nRight iLeft iRight n : ℕ}

/-- In the merge `out` is written, and `ls` and `rs` are left of the halves. -/
structure MergeAt (spare : List α) (nLeft nRight iLeft iRight : ℕ) (a out ls rs : List α) : Prop where
  left : spare.drop iLeft = ls ++ spare.drop nLeft
  right : a.drop (nLeft + iRight) = rs
  written : a.take (iLeft + iRight) = out
  left_length : iLeft + ls.length = nLeft
  right_length : iRight + rs.length = nRight
  length : a.length = nLeft + nRight

namespace MergeAt

theorem left_head (h : MergeAt spare nLeft nRight iLeft iRight a out (l :: ls) rs) :
    spare[iLeft]? = some l := by
  have hhead : (spare.drop iLeft)[0]? = some l := by rw [h.left]; rfl
  simpa using hhead

theorem left_end (h : MergeAt spare nLeft nRight iLeft iRight a out [] rs) : iLeft = nLeft := h.left_length

theorem right_head (h : MergeAt spare nLeft nRight iLeft iRight a out ls (r :: rs)) :
    a[nLeft + iRight]? = some r := by
  have hhead : (a.drop (nLeft + iRight))[0]? = some r := by rw [h.right]; rfl
  simpa using hhead

theorem right_end (h : MergeAt spare nLeft nRight iLeft iRight a out ls []) :
    iRight = nRight := h.right_length

theorem right_none (h : MergeAt spare nLeft nRight iLeft iRight a out ls []) : a[nLeft + iRight]? = none := by
  rw [h.right_end]
  exact List.getElem?_eq_none (Nat.le_of_eq h.length)

theorem left_ne (h : MergeAt spare nLeft nRight iLeft iRight a out (l :: ls) rs) :
    (iLeft == nLeft) = false := by
  have := h.left_length
  rw [List.length_cons] at this
  exact beq_false_of_ne (by omega)

theorem right_ne (h : MergeAt spare nLeft nRight iLeft iRight a out ls (r :: rs)) :
    (iRight == nRight) = false := by
  have := h.right_length
  rw [List.length_cons] at this
  exact beq_false_of_ne (by omega)

theorem take_left (h : MergeAt spare nLeft nRight iLeft iRight a out (l :: ls) rs) :
    MergeAt spare nLeft nRight (iLeft + 1) iRight (a.set (iLeft + iRight) l) (out ++ [l]) ls rs := by
  have hlen := h.left_length
  have hlen' := h.right_length
  have ha := h.length
  rw [List.length_cons] at hlen
  refine ⟨?_, ?_, ?_, by omega, h.right_length, by rw [List.length_set, ha]⟩
  · rw [← List.drop_drop, h.left]
    rfl
  · rw [List.drop_set_of_lt (by omega), h.right]
  · rw [show iLeft + 1 + iRight = iLeft + iRight + 1 by omega, List.take_add_one,
      List.take_set_of_le (Nat.le_refl _), h.written, List.getElem?_set_self (by omega)]
    rfl

theorem take_right (h : MergeAt spare nLeft nRight iLeft iRight a out ls (r :: rs)) :
    MergeAt spare nLeft nRight iLeft (iRight + 1) (a.set (iLeft + iRight) r) (out ++ [r]) ls rs := by
  have hlen := h.left_length
  have hlen' := h.right_length
  have ha := h.length
  rw [List.length_cons] at hlen'
  refine ⟨h.left, ?_, ?_, h.left_length, by omega, by rw [List.length_set, ha]⟩
  · rw [List.drop_set_of_lt (by omega), ← Nat.add_assoc, ← List.drop_drop, h.right]
    rfl
  · rw [← Nat.add_assoc, List.take_add_one, List.take_set_of_le (Nat.le_refl _), h.written,
      List.getElem?_set_self (by omega)]
    rfl

end MergeAt

theorem halvesRise_of_short (ha : ¬1 < a.length) : halvesRise key a = true := by rw [halvesRise, if_neg ha]

theorem halvesRise_of_long (ha : 1 < a.length) : halvesRise key a =
    (halvesRise key (a.take (a.length / 2)) && halvesRise key (a.drop (a.length / 2)) &&
      (a.drop (a.length / 2)).any fun r => (a.take (a.length / 2)).all fun l => key l < key r) := by
  rw [halvesRise, if_pos ha]

section Sound

variable [Inhabited α] {step : Bool → Bool → Option α → Option α → MergeStep} {P : α → Prop} {both : Bool}

/-- A step that takes from the left. -/
theorem mergeLoop_left (h : MergeAt spare nLeft nRight iLeft iRight a out (l :: ls) rs)
    (htake : (step false (iRight == nRight) (some l) a[nLeft + iRight]?).takeLeft = true) :
    mergeLoop step spare nLeft nRight (n + 1) iLeft iRight a =
      ((mergeLoop step spare nLeft nRight n (iLeft + 1) iRight (a.set (iLeft + iRight) l)).1,
        (step false (iRight == nRight) (some l) a[nLeft + iRight]?).inside &&
        (mergeLoop step spare nLeft nRight n (iLeft + 1) iRight (a.set (iLeft + iRight) l)).2) := by
  have hlt : iLeft < nLeft := by
    have := h.left_length
    rw [List.length_cons] at this
    omega
  simp only [mergeLoop, if_pos (Or.inl hlt : iLeft < nLeft ∨ iRight < nRight), h.left_ne, h.left_head, htake,
    if_true, Option.getD_some]

/-- A step that takes from the right. -/
theorem mergeLoop_right (h : MergeAt spare nLeft nRight iLeft iRight a out ls (r :: rs))
    (htake : (step (iLeft == nLeft) false spare[iLeft]? (some r)).takeLeft = false) :
    mergeLoop step spare nLeft nRight (n + 1) iLeft iRight a =
      ((mergeLoop step spare nLeft nRight n iLeft (iRight + 1) (a.set (iLeft + iRight) r)).1,
        (step (iLeft == nLeft) false spare[iLeft]? (some r)).inside &&
        (mergeLoop step spare nLeft nRight n iLeft (iRight + 1) (a.set (iLeft + iRight) r)).2) := by
  have hlt : iRight < nRight := by
    have := h.right_length
    rw [List.length_cons] at this
    omega
  simp only [mergeLoop, if_pos (Or.inr hlt : iLeft < nLeft ∨ iRight < nRight), h.right_ne, h.right_head,
    htake,
    Bool.false_eq_true, if_false, Option.getD_some]

theorem mergeLoop_eq (hs : TakesLower step key P) (hreads : Reads step both P)
    (hspare : both = true → ∃ x, spare[nLeft]? = some x ∧ P x)
    (h : MergeAt spare nLeft nRight iLeft iRight a out ls rs) (hl : ∀ x ∈ ls, P x) (hr : ∀ x ∈ rs, P x)
    (hn : n = ls.length + rs.length) :
    mergeLoop step spare nLeft nRight n iLeft iRight a =
      (out ++ ls.merge rs fun x y => key x < key y, !both || rightLasts key ls rs) := by
  induction n generalizing ls rs iLeft iRight a out with
  | zero =>
    obtain rfl : ls = [] := List.length_eq_zero_iff.mp (by omega)
    obtain rfl : rs = [] := List.length_eq_zero_iff.mp (by omega)
    have hall : a.take (iLeft + iRight) = a := by
      rw [h.left_end, h.right_end, ← h.length, List.take_length]
    simp [mergeLoop, rightLasts, ← h.written, hall]
  | succ n ih =>
    rcases ls with _ | ⟨l, ls⟩
    · rcases rs with _ | ⟨r, rs⟩
      · simp at hn
      · have hdone : (iLeft == nLeft) = true := beq_iff_eq.mpr h.left_end
        have hr' := hr r List.mem_cons_self
        rw [mergeLoop_right h (by rw [hdone]; exact hs.left_done _ _ hr'),
          ih h.take_right hl (fun x hx => hr x (List.mem_cons_of_mem r hx)) (by simpa using hn), hdone,
          h.left_end, hreads.left_done _ _ hr' hspare]
        simp [rightLasts]
    · have hl' := hl l List.mem_cons_self
      have htail : ∀ x ∈ ls, P x := fun x hx => hl x (List.mem_cons_of_mem l hx)
      rcases rs with _ | ⟨r, rs⟩
      · have hdone : (iRight == nRight) = true := beq_iff_eq.mpr h.right_end
        rw [mergeLoop_left h (by rw [hdone]; exact hs.right_done _ _ hl'),
          ih h.take_left htail hr (by simpa using hn), hdone, h.right_none, hreads.right_done _ hl']
        cases both <;> simp [rightLasts]
      · have hr' := hr r List.mem_cons_self
        have hin := hreads.both l r hl' hr'
        have htake := hs.both l r hl' hr'
        by_cases hlt : key l < key r
        · rw [mergeLoop_left h (by rw [h.right_ne, h.right_head, htake, decide_eq_true hlt]),
            ih h.take_left htail hr (by simp only [List.length_cons] at hn ⊢; omega), h.right_ne,
              h.right_head, hin]
          simp [rightLasts, hlt]
        · rw [mergeLoop_right h (by rw [h.left_ne, h.left_head, htake, decide_eq_false hlt]),
            ih h.take_right hl (fun x hx => hr x (List.mem_cons_of_mem r hx))
              (by simp only [List.length_cons] at hn ⊢; omega), h.left_ne, h.left_head, hin]
          simp [rightLasts, hlt]

/-- What the sort leaves for the array `a`. -/
structure Sorts (key : α → κ) (P : α → Prop) (both : Bool) (a spare : List α)
    (result : List α × List α × Bool) : Prop where
  perm : result.1.Perm a
  sorted : result.1.Pairwise fun x y => key x ≤ key y
  length : result.2.1.length = spare.length
  fits : both = true → ∀ x ∈ result.2.1, P x
  inside : result.2.2 = (!both || halvesRise key a)

/-- What a level of the sort makes of the sorted halves. -/
theorem Sorts.merge (hs : TakesLower step key P) (hreads : Reads step both P) (ha : ∀ x ∈ a, P x)
    (hlen : 1 < a.length) (hle : a.length ≤ spare.length) {p q : List α × List α × Bool}
    (hp : Sorts key P both (a.take (a.length / 2)) spare p)
    (hq : Sorts key P both (a.drop (a.length / 2)) p.2.1 q) :
    Sorts key P both a spare
      ((mergeLoop step (p.1 ++ q.2.1.drop (a.length / 2)) (a.length / 2) (a.length - a.length / 2) a.length 0 0
          (p.1 ++ q.1)).1, p.1 ++ q.2.1.drop (a.length / 2),
        p.2.2 && q.2.2 && decide (a.length / 2 ≤ q.2.1.length) &&
          (mergeLoop step (p.1 ++ q.2.1.drop (a.length / 2)) (a.length / 2) (a.length - a.length / 2) a.length 0 0
            (p.1 ++ q.1)).2) := by
  have hleft : p.1.length = a.length / 2 := by
    rw [hp.perm.length_eq, List.length_take]
    omega
  have hright : q.1.length = a.length - a.length / 2 := by rw [hq.perm.length_eq, List.length_drop]
  have hspare : q.2.1.length = spare.length := hq.length.trans hp.length
  have hat : MergeAt (p.1 ++ q.2.1.drop (a.length / 2)) (a.length / 2) (a.length - a.length / 2) 0 0
      (p.1 ++ q.1) [] p.1 q.1 := by
    refine ⟨?_, ?_, rfl, by omega, by omega, by rw [List.length_append]; omega⟩
    · rw [List.drop_zero, List.drop_left' hleft]
    · rw [List.drop_left' (by omega)]
  have hpl : ∀ x ∈ p.1, P x := fun x hx => ha x (List.mem_of_mem_take (hp.perm.mem_iff.mp hx))
  have hpr : ∀ x ∈ q.1, P x := fun x hx => ha x (List.mem_of_mem_drop (hq.perm.mem_iff.mp hx))
  have hread : both = true → ∃ x, (p.1 ++ q.2.1.drop (a.length / 2))[a.length / 2]? = some x ∧ P x := by
    intro hboth
    have hlt : a.length / 2 < q.2.1.length := by omega
    refine ⟨q.2.1[a.length / 2], ?_, hq.fits hboth _ (List.getElem_mem hlt)⟩
    rw [List.getElem?_append_right (by omega), List.getElem?_drop, hleft]
    simp [hlt]
  rw [mergeLoop_eq hs hreads hread hat hpl hpr (by omega)]
  refine ⟨?_, pairwise_merge_lt hp.sorted hq.sorted, ?_, ?_, ?_⟩
  · have happ := List.take_append_drop (a.length / 2) a
    exact ((List.merge_perm_append _).trans (hp.perm.append hq.perm)).trans (by rw [happ])
  · rw [List.length_append, List.length_drop]
    omega
  · intro hboth x hx
    rcases List.mem_append.mp hx with hx | hx
    · exact hpl x hx
    · exact hq.fits hboth x (List.mem_of_mem_drop hx)
  · have hrise : rightLasts key p.1 q.1 = (a.drop (a.length / 2)).any fun r =>
        (a.take (a.length / 2)).all fun l => key l < key r := by
      rw [Bool.eq_iff_iff, rightLasts_iff hp.sorted]
      have hne : p.1 ≠ [] := List.ne_nil_of_length_pos (by omega)
      simp [hne, hp.perm.mem_iff, hq.perm.mem_iff]
    rw [hp.inside, hq.inside, hrise, halvesRise_of_long hlen, decide_eq_true (by omega)]
    cases both <;> simp

/-- The sort leaves the elements in the order of the keys. Where it reads both heads at each step it stays
inside of the arrays just if `halvesRise` holds. -/
theorem spareSort_sorts (hs : TakesLower step key P) (hreads : Reads step both P) (a spare : List α)
    (ha : ∀ x ∈ a, P x) (hspare : both = true → ∀ x ∈ spare, P x) (hle : a.length ≤ spare.length) :
    Sorts key P both a spare (spareSort step a spare) := by
  by_cases hlen : 1 < a.length
  · have hp := spareSort_sorts hs hreads (a.take (a.length / 2)) spare
      (fun x hx => ha x (List.mem_of_mem_take hx)) hspare (by rw [List.length_take]; omega)
    have hq := spareSort_sorts hs hreads (a.drop (a.length / 2))
      (spareSort step (a.take (a.length / 2)) spare).2.1 (fun x hx => ha x (List.mem_of_mem_drop hx)) hp.fits
      (by rw [hp.length, List.length_drop]; omega)
    have hmerge := Sorts.merge hs hreads ha hlen hle hp hq
    rw [spareSort, if_pos hlen]
    exact hmerge
  · rw [spareSort, if_neg hlen]
    refine ⟨List.Perm.refl _, ?_, rfl, hspare, by rw [halvesRise_of_short hlen]; simp⟩
    match a, hlen with
    | [], _ => exact List.Pairwise.nil
    | [x], _ => exact List.pairwise_singleton _ x
    | _ :: _ :: _, hlen => exact absurd (by simp) hlen
termination_by a.length
decreasing_by
  · rw [List.length_take]; omega
  · rw [List.length_drop]; omega

end Sound

end Sqlite.Foundation

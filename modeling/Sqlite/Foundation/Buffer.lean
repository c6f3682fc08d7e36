import Mathlib.Data.List.Basic
import Mathlib.Tactic.Ring

/-! Blocks of memory, and a pointer that writes into one as it moves. -/
namespace Sqlite.Foundation

universe u
variable {α : Type u}

/-- The part of a block from `i` on, `n` elements long, if that is inside of the block. -/
def slice (z : List α) (i n : ℤ) : Option (List α) :=
  if 0 ≤ i ∧ 0 ≤ n ∧ i + n ≤ z.length then some ((z.drop i.toNat).take n.toNat) else none

/-- A pointer into a block. -/
structure Pointer (α : Type u) where
  block : List α
  pos : ℤ

namespace Pointer

def write (p : Pointer α) (i : ℤ) (a : α) : Option (Pointer α) :=
  if 0 ≤ i ∧ i < p.block.length then some { p with block := p.block.set i.toNat a } else none

/-- `*(p++) = a` -/
def forth (p : Pointer α) (a : α) : Option (Pointer α) :=
  (p.write p.pos a).map fun q => { q with pos := q.pos + 1 }

/-- `*(--p) = a` -/
def back (p : Pointer α) (a : α) : Option (Pointer α) :=
  (p.write (p.pos - 1) a).map fun q => { q with pos := q.pos - 1 }

/-- The elements of `w` one behind the other. -/
def push (p : Pointer α) (w : List α) : Option (Pointer α) := w.foldlM forth p

/-- The elements of `w` one in front of the other. -/
def pushBack (p : Pointer α) (w : List α) : Option (Pointer α) := w.foldlM back p

variable {z w : List α} {n : ℕ} {a : α}

theorem forth_eq (h : n < z.length) : forth ⟨z, n⟩ a = some ⟨z.set n a, (n + 1 : ℕ)⟩ := by
  have hn : 0 ≤ (n : ℤ) ∧ (n : ℤ) < z.length := by omega
  simp [forth, write, hn]

theorem forth_eq_none (h : z.length ≤ n) : forth ⟨z, n⟩ a = none := by
  simp [forth, write, h]

theorem back_eq (hn : 0 < n) (h : n ≤ z.length) : back ⟨z, n⟩ a = some ⟨z.set (n - 1) a, (n - 1 : ℕ)⟩ := by
  obtain ⟨k, rfl⟩ := Nat.exists_eq_succ_of_ne_zero hn.ne'
  have hk : (k : ℤ) < z.length := by omega
  simp [back, write, hk]

theorem push_eq (h : n + w.length ≤ z.length) :
    push ⟨z, n⟩ w = some ⟨z.take n ++ w ++ z.drop (n + w.length), (n + w.length : ℕ)⟩ := by
  induction w generalizing z n with
  | nil => simp [push]
  | cons a w ih =>
    rw [List.length_cons] at h
    have hw := ih (z := z.set n a) (n := n + 1) (by rw [List.length_set]; omega)
    have htake : (z.set n a).take (n + 1) = z.take n ++ [a] := by
      rw [List.take_succ_eq_append_getElem (by rw [List.length_set]; omega), List.take_set_of_le le_rfl,
        List.getElem_set_self]
    have hdrop : (z.set n a).drop (n + 1 + w.length) = z.drop (n + (a :: w).length) := by
      rw [List.drop_set_of_lt (by omega), List.length_cons, Nat.add_right_comm, Nat.add_assoc]
    rw [push, List.foldlM_cons, forth_eq (by omega)]
    refine hw.trans ?_
    rw [htake, hdrop, List.append_assoc (z.take n), List.singleton_append, List.length_cons]
    congr 3
    omega

theorem push_eq_none (hn : n ≤ z.length) (h : z.length < n + w.length) : push ⟨z, n⟩ w = none := by
  induction w generalizing z n with
  | nil => rw [List.length_nil] at h; omega
  | cons a w ih =>
    rw [List.length_cons] at h
    rw [push, List.foldlM_cons]
    rcases hn.eq_or_lt with rfl | hlt
    · rw [forth_eq_none le_rfl]; rfl
    · rw [forth_eq hlt]
      exact ih (by rw [List.length_set]; omega) (by rw [List.length_set]; omega)

theorem pushBack_eq (hw : w.length ≤ n) (hn : n ≤ z.length) :
    pushBack ⟨z, n⟩ w = some ⟨z.take (n - w.length) ++ w.reverse ++ z.drop n, (n - w.length : ℕ)⟩ := by
  induction w generalizing z n with
  | nil => simp [pushBack]
  | cons a w ih =>
    rw [List.length_cons] at hw
    have h := ih (z := z.set (n - 1) a) (n := n - 1) (by omega) (by rw [List.length_set]; omega)
    have htake : (z.set (n - 1) a).take (n - 1 - w.length) = z.take (n - (a :: w).length) := by
      rw [List.take_set_of_le (by omega), List.length_cons, Nat.sub_sub, Nat.add_comm 1]
    have hdrop : (z.set (n - 1) a).drop (n - 1) = a :: z.drop n := by
      rw [List.drop_eq_getElem_cons (by rw [List.length_set]; omega), List.getElem_set_self,
        Nat.sub_add_cancel (by omega), List.drop_set_of_lt (by omega)]
    rw [pushBack, List.foldlM_cons, back_eq (by omega) hn]
    refine h.trans ?_
    rw [htake, hdrop, List.reverse_cons, List.append_assoc, List.append_assoc, List.append_assoc,
      List.length_cons, Nat.sub_sub, Nat.add_comm 1]
    rfl

theorem pushBack_some (hw : w.length ≤ n) (hn : n ≤ z.length) :
    ∃ z', pushBack ⟨z, n⟩ w = some ⟨z', (n - w.length : ℕ)⟩ ∧ z'.length = z.length := by
  refine ⟨_, pushBack_eq hw hn, ?_⟩
  simp only [List.length_append, List.length_take, List.length_reverse, List.length_drop]
  omega

end Pointer

theorem slice_isSome {z : List α} {i n : ℤ} (h0 : 0 ≤ i) (hn : 0 ≤ n) (h : i + n ≤ z.length) :
    ∃ w, slice z i n = some w := ⟨_, if_pos ⟨h0, hn, h⟩⟩

end Sqlite.Foundation

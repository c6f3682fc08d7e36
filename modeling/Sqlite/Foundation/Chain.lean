import Mathlib.Data.List.Basic
import Mathlib.Data.List.Nodup
import Mathlib.Data.Set.Insert

/-! Singly linked chains and tables of chains. `Chain next p l` says that the nodes of `l` are
met in order when following `next` from `p`. -/
namespace Sqlite.Foundation

variable {α : Type*} {next next' : α → Option α} {p : Option α} {l : List α} {x y : α}

def Chain (next : α → Option α) : Option α → List α → Prop
  | p, [] => p = none
  | p, x :: l => p = some x ∧ Chain next (next x) l

theorem Chain.congr (h : Chain next p l) (hn : ∀ x ∈ l, next' x = next x) : Chain next' p l := by
  induction l generalizing p with
  | nil => exact h
  | cons x l ih =>
    refine ⟨h.1, ?_⟩
    rw [hn x (by simp)]
    exact ih h.2 (fun y hy => hn y (by simp [hy]))

theorem Chain.head (h : Chain next p l) : p = l.head? := by
  cases l with
  | nil => exact h
  | cons x l => exact h.1

theorem Chain.nil_of_none (h : Chain next none l) : l = [] := by
  cases l with
  | nil => rfl
  | cons x l => cases h.1

theorem Chain.next_mem (h : Chain next p l) (hx : x ∈ l) (hy : next x = some y) : y ∈ l := by
  induction l generalizing p with
  | nil => simp at hx
  | cons z l ih =>
    rcases List.mem_cons.mp hx with rfl | hx
    · exact List.mem_cons_of_mem _ (List.mem_of_head? (h.2.head ▸ hy))
    · exact List.mem_cons_of_mem _ (ih h.2 hx)

theorem Chain.getElem?_succ (h : Chain next p l) {k : ℕ} (hx : l[k]? = some x) :
    next x = l[k + 1]? := by
  induction l generalizing p k with
  | nil => cases hx
  | cons z l ih =>
    cases k with
    | zero =>
      obtain rfl := Option.some.inj hx
      rw [h.2.head, List.head?_eq_getElem?]
      rfl
    | succ k => exact ih h.2 hx

/-- The nodes of `l` are met in order from `p`, and the last one leads to `q`. -/
def Seg (next : α → Option α) : Option α → List α → Option α → Prop
  | p, [], q => p = q
  | p, x :: l, q => p = some x ∧ Seg next (next x) l q

theorem Seg.congr {q : Option α} (h : Seg next p l q) (hn : ∀ x ∈ l, next' x = next x) :
    Seg next' p l q := by
  induction l generalizing p with
  | nil => exact h
  | cons x l ih =>
    refine ⟨h.1, ?_⟩
    rw [hn x List.mem_cons_self]
    exact ih h.2 (fun y hy => hn y (List.mem_cons_of_mem _ hy))

theorem Seg.append {q r : Option α} {l' : List α} (h : Seg next p l q) (h' : Seg next q l' r) :
    Seg next p (l ++ l') r := by
  induction l generalizing p with
  | nil =>
    obtain rfl := h
    exact h'
  | cons x l ih => exact ⟨h.1, ih h.2⟩

theorem Seg.chain {q : Option α} {l' : List α} (h : Seg next p l q) (h' : Chain next q l') :
    Chain next p (l ++ l') := by
  induction l generalizing p with
  | nil =>
    obtain rfl := h
    exact h'
  | cons x l ih => exact ⟨h.1, ih h.2⟩

theorem Chain.last_none (h : Chain next p l) (hl : l.getLast? = some y) : next y = none := by
  induction l generalizing p with
  | nil => cases hl
  | cons z l ih =>
    cases l with
    | nil =>
      obtain rfl : z = y := by simpa using hl
      exact h.2
    | cons w l =>
      rw [List.getLast?_cons_cons] at hl
      exact ih h.2 hl

section Edit
variable [DecidableEq α]

/-- The last node is made to lead to `q`. -/
theorem Chain.redirect_last {q : Option α} (h : Chain next p l) (hnd : l.Nodup)
    (hl : l.getLast? = some y) : Seg (Function.update next y q) p l q := by
  induction l generalizing p with
  | nil => cases hl
  | cons z l ih =>
    obtain ⟨hz, hnd'⟩ := List.nodup_cons.mp hnd
    refine ⟨h.1, ?_⟩
    cases l with
    | nil =>
      obtain rfl : z = y := by simpa using hl
      rw [Function.update_self]
      rfl
    | cons w l =>
      rw [List.getLast?_cons_cons] at hl
      have hzy : z ≠ y := fun e => hz (e ▸ List.mem_of_getLast? hl)
      rw [Function.update_of_ne hzy]
      exact ih h.2 hnd' hl

/-- A new node behind the last one. -/
theorem Chain.snoc (h : Chain next p l) (hnd : l.Nodup) (hl : l.getLast? = some y) (hx : x ∉ l) :
    Chain (Function.update (Function.update next x none) y (some x)) p (l ++ [x]) := by
  induction l generalizing p with
  | nil => cases hl
  | cons z l ih =>
    obtain ⟨rfl, h2⟩ := h
    obtain ⟨hz, hnd'⟩ := List.nodup_cons.mp hnd
    have hzx : z ≠ x := fun e => hx (List.mem_cons.mpr (Or.inl e.symm))
    have hxl : x ∉ l := fun hc => hx (List.mem_cons_of_mem _ hc)
    refine ⟨rfl, ?_⟩
    cases l with
    | nil =>
      obtain rfl : z = y := by simpa using hl
      rw [Function.update_self]
      refine ⟨rfl, ?_⟩
      rw [Function.update_of_ne hzx.symm, Function.update_self]
      rfl
    | cons w l =>
      rw [List.getLast?_cons_cons] at hl
      have hzy : z ≠ y := fun e => hz (e ▸ List.mem_of_getLast? hl)
      rw [Function.update_of_ne hzy, Function.update_of_ne hzx]
      exact ih h2 hnd' hl hxl

theorem Chain.erase_head (h : Chain next (some x) l) : Chain next (next x) (l.erase x) := by
  cases l with
  | nil => cases h
  | cons z l =>
    obtain ⟨h1, h2⟩ := h
    obtain rfl := Option.some.inj h1
    rwa [List.erase_cons_head]

/-- The predecessor of a node is redirected past it. -/
theorem Chain.erase_next (h : Chain next p l) (hnd : l.Nodup) (hy : y ∈ l) (hx : next y = some x) :
    Chain (Function.update next y (next x)) p (l.erase x) := by
  induction l generalizing p with
  | nil => simp at hy
  | cons z l ih =>
    obtain ⟨rfl, h2⟩ := h
    obtain ⟨hz, hnd'⟩ := List.nodup_cons.mp hnd
    have hxl : x ∈ l := by
      rcases List.mem_cons.mp hy with rfl | hy
      · exact List.mem_of_head? (h2.head ▸ hx)
      · exact h2.next_mem hy hx
    have hzx : z ≠ x := fun e => hz (e ▸ hxl)
    rw [List.erase_cons_tail (by simpa using hzx)]
    refine ⟨rfl, ?_⟩
    by_cases hzy : z = y
    · subst hzy
      rw [Function.update_self]
      have h3 : Chain next (next x) (l.erase x) := (hx ▸ h2).erase_head
      exact h3.congr (fun w hw =>
        Function.update_of_ne (ne_of_mem_of_not_mem (List.mem_of_mem_erase hw) hz) _ _)
    · rw [Function.update_of_ne hzy]
      exact ih h2 hnd' ((List.mem_cons.mp hy).resolve_left (fun e => hzy e.symm))

end Edit

/-- `tab` holds the heads of chains that together contain `S`, every member in its slot. -/
structure Table (next : α → Option α) (tab : ℕ → Option α) (slot : α → ℕ) (S : Set α) : Prop where
  chain : ∀ h, ∃ l, Chain next (tab h) l ∧ l.Nodup ∧ ∀ a, a ∈ l ↔ a ∈ S ∧ slot a = h

namespace Table
variable {tab : ℕ → Option α} {slot slot' : α → ℕ} {S : Set α}

theorem empty : Table next (fun _ => none) slot ∅ :=
  ⟨fun _ => ⟨[], rfl, List.nodup_nil, by simp⟩⟩

theorem congr (T : Table next tab slot S) (hn : ∀ x ∈ S, next' x = next x)
    (hs : ∀ x ∈ S, slot' x = slot x) : Table next' tab slot' S := by
  refine ⟨fun h => ?_⟩
  obtain ⟨l, hc, hnd, hm⟩ := T.chain h
  refine ⟨l, hc.congr (fun x hx => hn x ((hm x).mp hx).1), hnd, fun a => (hm a).trans ?_⟩
  constructor
  · exact fun ⟨h1, h2⟩ => ⟨h1, (hs a h1).trans h2⟩
  · exact fun ⟨h1, h2⟩ => ⟨h1, (hs a h1).symm.trans h2⟩

theorem next_mem (T : Table next tab slot S) (hx : x ∈ S) (hy : next x = some y) :
    y ∈ S ∧ slot y = slot x := by
  obtain ⟨l, hc, -, hm⟩ := T.chain (slot x)
  exact (hm y).mp (hc.next_mem ((hm x).mpr ⟨hx, rfl⟩) hy)

section Edit
variable [DecidableEq α]

theorem insert (T : Table next tab slot S) (hx : x ∉ S) :
    Table (Function.update next x (tab (slot x))) (Function.update tab (slot x) (some x)) slot
      (insert x S) := by
  refine ⟨fun h => ?_⟩
  obtain ⟨l, hc, hnd, hm⟩ := T.chain h
  have hxl : x ∉ l := fun e => hx ((hm x).mp e).1
  have hc' : Chain (Function.update next x (tab (slot x))) (tab h) l :=
    hc.congr (fun y hy => Function.update_of_ne (ne_of_mem_of_not_mem hy hxl) _ _)
  by_cases hs : h = slot x
  · subst hs
    refine ⟨x :: l, ⟨Function.update_self _ _ _, ?_⟩, List.nodup_cons.mpr ⟨hxl, hnd⟩, fun a => ?_⟩
    · rwa [Function.update_self]
    · rw [List.mem_cons, hm, Set.mem_insert_iff]
      constructor
      · rintro (rfl | ⟨h1, h2⟩)
        · exact ⟨Or.inl rfl, rfl⟩
        · exact ⟨Or.inr h1, h2⟩
      · rintro ⟨rfl | h1, h2⟩
        · exact Or.inl rfl
        · exact Or.inr ⟨h1, h2⟩
  · rw [Function.update_of_ne hs]
    refine ⟨l, hc', hnd, fun a => (hm a).trans ?_⟩
    rw [Set.mem_insert_iff]
    constructor
    · exact fun ⟨h1, h2⟩ => ⟨Or.inr h1, h2⟩
    · rintro ⟨rfl | h1, h2⟩
      · exact absurd h2.symm hs
      · exact ⟨h1, h2⟩

private theorem mem_erase_iff {h : ℕ} (hnd : l.Nodup) (hm : ∀ a, a ∈ l ↔ a ∈ S ∧ slot a = h) (a : α) :
    a ∈ l.erase x ↔ a ∈ S \ {x} ∧ slot a = h := by
  rw [hnd.mem_erase_iff, hm, Set.mem_sdiff, Set.mem_singleton_iff]
  tauto

theorem remove_head (T : Table next tab slot S) (hx : tab (slot x) = some x) :
    Table next (Function.update tab (slot x) (next x)) slot (S \ {x}) := by
  refine ⟨fun h => ?_⟩
  obtain ⟨l, hc, hnd, hm⟩ := T.chain h
  refine ⟨l.erase x, ?_, hnd.erase x, mem_erase_iff hnd hm⟩
  by_cases hs : h = slot x
  · subst hs
    rw [Function.update_self]
    exact (hx ▸ hc).erase_head
  · rw [Function.update_of_ne hs, List.erase_of_not_mem (fun e => hs ((hm x).mp e).2.symm)]
    exact hc

theorem remove_next (T : Table next tab slot S) (hy : y ∈ S) (hx : next y = some x) :
    Table (Function.update next y (next x)) tab slot (S \ {x}) := by
  refine ⟨fun h => ?_⟩
  obtain ⟨l, hc, hnd, hm⟩ := T.chain h
  refine ⟨l.erase x, ?_, hnd.erase x, mem_erase_iff hnd hm⟩
  by_cases hs : h = slot y
  · exact hc.erase_next hnd ((hm y).mpr ⟨hy, hs.symm⟩) hx
  · have hyl : y ∉ l := fun e => hs ((hm y).mp e).2.symm
    have hxl : x ∉ l := fun e => hs (((hm x).mp e).2.symm.trans (T.next_mem hy hx).2)
    rw [List.erase_of_not_mem hxl]
    exact hc.congr (fun z hz => Function.update_of_ne (ne_of_mem_of_not_mem hz hyl) _ _)

end Edit
end Table
end Sqlite.Foundation

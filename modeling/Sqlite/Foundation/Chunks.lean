import Mathlib.Algebra.BigOperators.Group.List.Basic
import Mathlib.Algebra.GroupWithZero.Nat
import Mathlib.Data.Finset.Card
import Mathlib.Data.Finset.Max

/-! An interval of numbers cut into chunks, each given by its first number and its size. -/
namespace Sqlite.Foundation


/-- The chunks that start in `C` fill the numbers from `a` up to `b`, and have at least two each. -/
structure Chunks (a b : ℕ) (C : Finset ℕ) (sz : ℕ → ℕ) : Prop where
  first : a ∈ C
  next : ∀ i ∈ C, i + sz i = b ∨ i + sz i ∈ C
  apart : ∀ i ∈ C, ∀ j ∈ C, i < j → i + sz i ≤ j
  low : ∀ i ∈ C, a ≤ i
  high : ∀ i ∈ C, i + sz i ≤ b
  two : ∀ i ∈ C, 2 ≤ sz i

namespace Chunks

variable {a b i j k : ℕ} {C : Finset ℕ} {sz sz' : ℕ → ℕ}

/-- A chunk that begins before a border ends there or before. -/
theorem le_of_lt (h : Chunks a b C sz) (hi : i ∈ C) (hj : j ∈ C ∨ j = b) (hlt : i < j) :
    i + sz i ≤ j := by
  rcases hj with hj | rfl
  · exact h.apart i hi j hj hlt
  · exact h.high i hi

/-- No chunk begins right before a border. -/
theorem succ_ne (h : Chunks a b C sz) (hi : i ∈ C) (hj : j ∈ C ∨ j = b) : i + 1 ≠ j := by
  intro he
  have h2 := h.two i hi
  have := h.le_of_lt hi hj (by omega)
  omega

theorem eq_of_end (h : Chunks a b C sz) (hi : i ∈ C) (hj : j ∈ C) (he : i + sz i = j + sz j) :
    i = j := by
  have hi2 := h.two i hi
  have hj2 := h.two j hj
  rcases Nat.lt_trichotomy i j with hlt | heq | hlt
  · have := h.apart i hi j hj hlt
    omega
  · exact heq
  · have := h.apart j hj i hi hlt
    omega

/-- The chunk before another one. -/
theorem prev (h : Chunks a b C sz) (hj : j ∈ C ∨ j = b) (hne : j ≠ a) :
    ∃ i ∈ C, i + sz i = j := by
  have hlow : a ≤ j := by
    rcases hj with hj | rfl
    · exact h.low j hj
    · exact (Nat.le_add_right _ _).trans (h.high a h.first)
  have hne' : (C.filter (fun i => i < j)).Nonempty :=
    ⟨a, Finset.mem_filter.mpr ⟨h.first, by omega⟩⟩
  obtain ⟨i, hi, hmax⟩ := Finset.exists_max_image _ id hne'
  obtain ⟨hiC, hlt⟩ := Finset.mem_filter.mp hi
  refine ⟨i, hiC, ?_⟩
  have hle := h.le_of_lt hiC hj hlt
  by_contra hc
  have h2 := h.two i hiC
  rcases h.next i hiC with he | hn
  · rcases hj with hj | rfl
    · have := h.high j hj
      have := h.two j hj
      omega
    · exact hc he
  · have := hmax (i + sz i) (Finset.mem_filter.mpr ⟨hn, by omega⟩)
    simp only [id] at this
    omega

theorem single {n : ℕ} (hn : 2 ≤ n) : Chunks a (a + n) {a} fun _ => n := by
  constructor
  · exact Finset.mem_singleton_self a
  · intro i hi
    rw [Finset.mem_singleton.mp hi]
    exact Or.inl rfl
  · intro i hi j hj hlt
    rw [Finset.mem_singleton.mp hi, Finset.mem_singleton.mp hj] at hlt
    omega
  · exact fun i hi => (Finset.mem_singleton.mp hi).ge
  · intro i hi
    rw [Finset.mem_singleton.mp hi]
  · exact fun _ _ => hn

/-- Two neighbours become one. -/
theorem merge (h : Chunks a b C sz) (hi : i ∈ C) (hj : j ∈ C) (he : i + sz i = j) :
    Chunks a b (C.erase j) (Function.update sz i (sz i + sz j)) := by
  have h2 := h.two i hi
  have hij : i ≠ j := by omega
  have hsz : ∀ k, k ≠ i → Function.update sz i (sz i + sz j) k = sz k :=
    fun k hk => Function.update_of_ne hk _ _
  have hself : Function.update sz i (sz i + sz j) i = sz i + sz j := Function.update_self ..
  have hmem : ∀ {k}, k ∈ C.erase j → k ≠ j ∧ k ∈ C := fun hk => Finset.mem_erase.mp hk
  have hnext : ∀ k ∈ C, k ≠ i → k + sz k ≠ j := by
    intro k hk hki hc
    exact hki (h.eq_of_end hk hi (hc.trans he.symm))
  constructor
  · apply Finset.mem_erase.mpr
    have := h.low i hi
    exact ⟨by omega, h.first⟩
  · intro k hk
    obtain ⟨hkj, hkC⟩ := hmem hk
    by_cases hki : k = i
    · rw [hki, hself]
      have := h.two j hj
      rcases h.next j hj with hb | hn
      · exact Or.inl (by omega)
      · refine Or.inr (Finset.mem_erase.mpr ⟨by omega, ?_⟩)
        rwa [show i + (sz i + sz j) = j + sz j by omega]
    · rw [hsz k hki]
      rcases h.next k hkC with hb | hn
      · exact Or.inl hb
      · exact Or.inr (Finset.mem_erase.mpr ⟨hnext k hkC hki, hn⟩)
  · intro k hk l hl hlt
    obtain ⟨hkj, hkC⟩ := hmem hk
    obtain ⟨hlj, hlC⟩ := hmem hl
    have hle := h.apart k hkC l hlC hlt
    by_cases hki : k = i
    · rw [hki] at hlt hle ⊢
      rw [hself]
      have := h.apart j hj l hlC (by omega)
      omega
    · rw [hsz k hki]
      exact hle
  · exact fun k hk => h.low k (hmem hk).2
  · intro k hk
    obtain ⟨hkj, hkC⟩ := hmem hk
    by_cases hki : k = i
    · rw [hki, hself]
      have := h.high j hj
      omega
    · rw [hsz k hki]
      exact h.high k hkC
  · intro k hk
    obtain ⟨hkj, hkC⟩ := hmem hk
    by_cases hki : k = i
    · rw [hki, hself]
      omega
    · rw [hsz k hki]
      exact h.two k hkC

/-- A chunk of size `k` is cut off from the end of another one. -/
theorem split (h : Chunks a b C sz) (hi : i ∈ C) (hk : 2 ≤ k) (hki : k + 2 ≤ sz i) :
    Chunks a b (insert (i + (sz i - k)) C)
      (Function.update (Function.update sz i (sz i - k)) (i + (sz i - k)) k) := by
  have hnew : i + (sz i - k) ∉ C := by
    intro hc
    have := h.apart i hi _ hc (by omega)
    omega
  have hne : i ≠ i + (sz i - k) := by omega
  generalize hj : i + (sz i - k) = j at hnew hne ⊢
  have hself : Function.update (Function.update sz i (sz i - k)) j k j = k := Function.update_self ..
  have hi' : Function.update (Function.update sz i (sz i - k)) j k i = sz i - k := by
    rw [Function.update_of_ne hne, Function.update_self]
  have hsz : ∀ l, l ≠ i → l ≠ j → Function.update (Function.update sz i (sz i - k)) j k l = sz l := by
    intro l h1 h2
    rw [Function.update_of_ne h2, Function.update_of_ne h1]
  have hcases : ∀ {l}, l ∈ insert j C → l = j ∨ l = i ∨ (l ≠ j ∧ l ≠ i ∧ l ∈ C) := by
    intro l hl
    rcases Finset.mem_insert.mp hl with rfl | hl
    · exact Or.inl rfl
    · by_cases hli : l = i
      · exact Or.inr (Or.inl hli)
      · exact Or.inr (Or.inr ⟨fun e => hnew (e ▸ hl), hli, hl⟩)
  constructor
  · exact Finset.mem_insert_of_mem h.first
  · intro l hl
    rcases hcases hl with rfl | rfl | ⟨h1, h2, h3⟩
    · rw [hself]
      rcases h.next i hi with hb | hn
      · exact Or.inl (by omega)
      · refine Or.inr (Finset.mem_insert_of_mem ?_)
        rwa [show l + k = i + sz i by omega]
    · rw [hi', hj]
      exact Or.inr (Finset.mem_insert_self _ _)
    · rw [hsz l h2 h1]
      rcases h.next l h3 with hb | hn
      · exact Or.inl hb
      · exact Or.inr (Finset.mem_insert_of_mem hn)
  · intro l hl m hm hlt
    rcases hcases hl with rfl | rfl | ⟨h1, h2, h3⟩
    · rw [hself]
      rcases hcases hm with rfl | rfl | ⟨g1, g2, g3⟩
      · omega
      · omega
      · have := h.apart i hi m g3 (by omega)
        omega
    · rw [hi', hj]
      rcases hcases hm with rfl | rfl | ⟨g1, g2, g3⟩
      · exact le_refl _
      · omega
      · have := h.apart l hi m g3 hlt
        omega
    · rw [hsz l h2 h1]
      rcases hcases hm with rfl | rfl | ⟨g1, g2, g3⟩
      · have hle : l < i := by
          rcases Nat.lt_trichotomy l i with hh | hh | hh
          · exact hh
          · exact absurd hh h2
          · have := h.apart i hi l h3 hh
            omega
        have := h.apart l h3 i hi hle
        omega
      · exact h.apart l h3 m hi hlt
      · exact h.apart l h3 m g3 hlt
  · intro l hl
    rcases hcases hl with rfl | rfl | ⟨h1, h2, h3⟩
    · have := h.low i hi
      omega
    · exact h.low l hi
    · exact h.low l h3
  · intro l hl
    have hb := h.high i hi
    rcases hcases hl with rfl | rfl | ⟨h1, h2, h3⟩
    · rw [hself]
      omega
    · rw [hi']
      omega
    · rw [hsz l h2 h1]
      exact h.high l h3
  · intro l hl
    rcases hcases hl with rfl | rfl | ⟨h1, h2, h3⟩
    · rw [hself]
      exact hk
    · rw [hi']
      omega
    · rw [hsz l h2 h1]
      exact h.two l h3

end Chunks

/-- The chunks that a walk by their sizes comes to, from `i` up to `b`. -/
inductive Walk (sz : ℕ → ℕ) (b : ℕ) : ℕ → List ℕ → Prop
  | done : Walk sz b b []
  | chunk {i : ℕ} {l : List ℕ} : Walk sz b (i + sz i) l → Walk sz b i (i :: l)

theorem Chunks.walk_from {a b : ℕ} {C : Finset ℕ} {sz : ℕ → ℕ} (h : Chunks a b C sz) (n : ℕ) :
    ∀ i, i ∈ C ∨ i = b → b - i ≤ n → ∃ l, Walk sz b i l ∧ ∀ j, j ∈ l ↔ j ∈ C ∧ i ≤ j := by
  have hend : ∀ j ∈ C, ¬ b ≤ j := by
    intro j hj hc
    have := h.high j hj
    have := h.two j hj
    omega
  have hlast : ∃ l, Walk sz b b l ∧ ∀ j, j ∈ l ↔ j ∈ C ∧ b ≤ j := by
    refine ⟨[], Walk.done, fun j => ⟨fun hj => absurd hj List.not_mem_nil, fun hj => ?_⟩⟩
    exact absurd hj.2 (hend j hj.1)
  induction n with
  | zero =>
    intro i hi hn
    rcases hi with hi | rfl
    · exact absurd (by omega) (hend i hi)
    · exact hlast
  | succ n ih =>
    intro i hi hn
    rcases hi with hi | rfl
    · have h2 := h.two i hi
      have hnext : i + sz i ∈ C ∨ i + sz i = b := (h.next i hi).symm
      obtain ⟨l, hw, hl⟩ := ih (i + sz i) hnext (by omega)
      refine ⟨i :: l, Walk.chunk hw, fun j => ?_⟩
      rw [List.mem_cons, hl j]
      constructor
      · rintro (rfl | ⟨h3, h4⟩)
        · exact ⟨hi, le_refl _⟩
        · exact ⟨h3, by omega⟩
      · rintro ⟨h3, h4⟩
        by_cases hij : j = i
        · exact Or.inl hij
        · exact Or.inr ⟨h3, h.apart i hi j h3 (by omega)⟩
    · exact hlast

/-- The walk comes to each chunk, and ends where the interval does. -/
theorem Chunks.walk {a b : ℕ} {C : Finset ℕ} {sz : ℕ → ℕ} (h : Chunks a b C sz) :
    ∃ l, Walk sz b a l ∧ ∀ j, j ∈ l ↔ j ∈ C := by
  obtain ⟨l, hw, hl⟩ := h.walk_from (b - a) a (Or.inl h.first) (le_refl _)
  refine ⟨l, hw, fun j => ?_⟩
  rw [hl j]
  exact ⟨fun hj => hj.1, fun hj => ⟨hj, h.low j hj⟩⟩

/-! Walks over neighbouring chunks. -/

variable {a b c e i j n x : ℕ} {C C' : Finset ℕ} {sz sz' : ℕ → ℕ} {l l' : List ℕ}

namespace Walk

theorem append (h : Walk sz b a l) (h' : Walk sz c b l') : Walk sz c a (l ++ l') := by
  induction h with
  | done => exact h'
  | chunk _ ih => exact .chunk ih

theorem sum (h : Walk sz b a l) : a + (l.map sz).sum = b := by
  induction h with
  | done => rfl
  | @chunk i l _ ih =>
    rw [List.map_cons, List.sum_cons]
    omega

theorem le (h : Walk sz b a l) : a ≤ b := by
  have := h.sum
  omega

theorem congr (h : Walk sz b a l) (hs : ∀ i ∈ l, sz' i = sz i) : Walk sz' b a l := by
  induction h with
  | done => exact .done
  | @chunk i l _ ih =>
    refine .chunk ?_
    rw [hs i List.mem_cons_self]
    exact ih fun j hj => hs j (List.mem_cons_of_mem _ hj)

end Walk

namespace Chunks

/-- A walk by sizes that agree on the chunks comes to borders. -/
theorem border_of_walk (h : Chunks a b C sz) (hf : ∀ i ∈ C, sz' i = sz i) (h0 : sz' b = 0)
    (hw : Walk sz' c i l) (hi : i ∈ C ∨ i = b) : c ∈ C ∨ c = b := by
  induction hw with
  | done => exact hi
  | @chunk i l _ ih =>
    apply ih
    rcases hi with hi | rfl
    · rw [hf i hi]
      exact (h.next i hi).symm
    · exact .inr (by rw [h0, Nat.add_zero])

/-- When it does not come to the end before, its chunks are those between its borders. -/
theorem of_walk (h : Chunks a b C sz) (hf : ∀ i ∈ C, sz' i = sz i) (hw : Walk sz' c i l)
    (hi : i ∈ C ∨ i = b) (hl : b ∉ l) : Walk sz c i l ∧ ∀ j, j ∈ l ↔ j ∈ C ∧ i ≤ j ∧ j < c := by
  induction hw with
  | done => exact ⟨.done, fun j => ⟨fun hj => absurd hj List.not_mem_nil, fun hj => by omega⟩⟩
  | @chunk i l hw ih =>
    have hne : i ≠ b := fun hc => hl (hc ▸ List.mem_cons_self)
    have hiC : i ∈ C := hi.resolve_right hne
    have h2 := h.two i hiC
    have hle := hw.le
    rw [hf i hiC] at ih hle
    obtain ⟨g1, g2⟩ := ih (h.next i hiC).symm fun hc => hl (List.mem_cons_of_mem _ hc)
    refine ⟨.chunk g1, fun j => ?_⟩
    rw [List.mem_cons, g2 j]
    constructor
    · rintro (rfl | ⟨g3, g4, g5⟩)
      · exact ⟨hiC, le_rfl, by omega⟩
      · exact ⟨g3, by omega, g5⟩
    · rintro ⟨g3, g4, g5⟩
      by_cases hji : j = i
      · exact .inl hji
      · exact .inr ⟨g3, h.apart i hiC j g3 (by omega), g5⟩

/-- A walk between two borders. -/
theorem walk_between (h : Chunks a b C sz) (hj : j ∈ C ∨ j = b) (n : ℕ) (hi : i ∈ C ∨ i = b)
    (hij : i ≤ j) (hn : j - i ≤ n) : ∃ l, Walk sz j i l ∧ ∀ k ∈ l, k ∈ C ∧ i ≤ k ∧ k < j := by
  have hle : j ≤ b := by
    rcases hj with hj | rfl
    · have := h.high j hj
      omega
    · exact le_rfl
  induction n generalizing i with
  | zero =>
    obtain rfl : i = j := by omega
    exact ⟨[], .done, fun k hk => absurd hk List.not_mem_nil⟩
  | succ n ih =>
    rcases hij.eq_or_lt with rfl | hlt
    · exact ⟨[], .done, fun k hk => absurd hk List.not_mem_nil⟩
    have hiC : i ∈ C := hi.resolve_right (by omega)
    have h2 := h.two i hiC
    obtain ⟨l, hw, hl⟩ := ih (h.next i hiC).symm (h.le_of_lt hiC hj hlt) (by omega)
    refine ⟨i :: l, .chunk hw, fun k hk => ?_⟩
    rcases List.mem_cons.mp hk with rfl | hk
    · exact ⟨hiC, le_rfl, hlt⟩
    · obtain ⟨g1, g2, g3⟩ := hl k hk
      exact ⟨g1, by omega, g3⟩

/-- Every number belongs to a chunk. -/
theorem cover (h : Chunks a b C sz) (ha : a ≤ x) (hb : x < b) : ∃ i ∈ C, i ≤ x ∧ x < i + sz i := by
  have hne : (C.filter (fun i => i ≤ x)).Nonempty := ⟨a, Finset.mem_filter.mpr ⟨h.first, ha⟩⟩
  obtain ⟨i, hi, hmax⟩ := Finset.exists_max_image _ id hne
  obtain ⟨hiC, hix⟩ := Finset.mem_filter.mp hi
  refine ⟨i, hiC, hix, ?_⟩
  by_contra hc
  have h2 := h.two i hiC
  rcases h.next i hiC with he | hn
  · omega
  · have hle : i + sz i ≤ i := hmax (i + sz i) (Finset.mem_filter.mpr ⟨hn, by omega⟩)
    omega

end Chunks

end Sqlite.Foundation

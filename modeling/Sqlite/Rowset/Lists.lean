import Mathlib.Algebra.Order.Ring.Int
import Sqlite.Foundation.Chain
import Sqlite.Rowset.Model

/-! Lists of entries in memory, and what merging two of them leaves: a sorted list with the values
of both, made of their entries. -/
namespace Sqlite.Rowset

open Foundation

variable {m m' m'' : Heap} {p q pA pB : Option ℕ} {l l' la lb F F' : List ℕ} {a b n t : ℕ}

/-- The links of a list. -/
def right (m : Heap) : ℕ → Option ℕ := fun a => (m a).pRight

def vals (m : Heap) (l : List ℕ) : List ℤ := l.map fun a => (m a).v

@[simp] theorem vals_nil : vals m [] = [] := rfl

@[simp] theorem vals_cons : vals m (a :: l) = (m a).v :: vals m l := rfl

@[simp] theorem vals_append : vals m (l ++ l') = vals m l ++ vals m l' := List.map_append

@[simp] theorem setRight_v : ((m.setRight a q) b).v = (m b).v := by
  rw [Heap.setRight, Function.update_apply]
  split_ifs with h <;> simp [h]

@[simp] theorem setLeft_v : ((m.setLeft a q) b).v = (m b).v := by
  rw [Heap.setLeft, Function.update_apply]
  split_ifs with h <;> simp [h]

theorem setRight_of_ne (h : b ≠ a) : (m.setRight a q) b = m b := Function.update_of_ne h _ _

theorem setLeft_of_ne (h : b ≠ a) : (m.setLeft a q) b = m b := Function.update_of_ne h _ _

@[simp] theorem setRight_self : (m.setRight a q) a = { m a with pRight := q } := by
  simp [Heap.setRight]

@[simp] theorem setLeft_self : (m.setLeft a q) a = { m a with pLeft := q } := by
  simp [Heap.setLeft]

theorem right_setRight : right (m.setRight a q) = Function.update (right m) a q := by
  funext b
  rw [right, Heap.setRight, Function.update_apply, Function.update_apply]
  split_ifs <;> simp [right]

theorem right_setLeft : right (m.setLeft a q) = right m := by
  funext b
  rw [right, Heap.setLeft, Function.update_apply]
  split_ifs with h <;> simp [right, h]

/-- Only the links of the entries in `F` differ. -/
structure Keeps (F : List ℕ) (m m' : Heap) : Prop where
  v : ∀ a, (m' a).v = (m a).v
  out : ∀ a, a ∉ F → m' a = m a

theorem Keeps.refl (F : List ℕ) (m : Heap) : Keeps F m m := ⟨fun _ => rfl, fun _ _ => rfl⟩

theorem Keeps.trans (h : Keeps F m m') (h' : Keeps F m' m'') : Keeps F m m'' where
  v a := (h'.v a).trans (h.v a)
  out a ha := (h'.out a ha).trans (h.out a ha)

theorem Keeps.mono (h : Keeps F m m') (hsub : F ⊆ F') : Keeps F' m m' :=
  ⟨h.v, fun a ha => h.out a fun hc => ha (hsub hc)⟩

theorem Keeps.vals (h : Keeps F m m') (l : List ℕ) : vals m' l = vals m l :=
  List.map_congr_left fun a _ => h.v a

theorem Keeps.chain (h : Keeps F m m') (hc : Chain (right m) p l) (hd : F.Disjoint l) :
    Chain (right m') p l :=
  hc.congr fun a ha => by rw [right, right, h.out a fun hF => hd hF ha]

theorem keeps_setRight (m : Heap) (a : ℕ) (q : Option ℕ) : Keeps [a] m (m.setRight a q) :=
  ⟨fun _ => setRight_v, fun _ hb => setRight_of_ne (by simpa using hb)⟩

theorem keeps_setLeft (m : Heap) (a : ℕ) (q : Option ℕ) : Keeps [a] m (m.setLeft a q) :=
  ⟨fun _ => setLeft_v, fun _ hb => setLeft_of_ne (by simpa using hb)⟩

/-- A list with strictly increasing values. -/
structure IsSorted (m : Heap) (p : Option ℕ) (l : List ℕ) : Prop where
  chain : Chain (right m) p l
  sorted : (vals m l).Pairwise (· < ·)
  pos : 0 ∉ l

theorem IsSorted.keeps (h : IsSorted m p l) (hk : Keeps F m m') (hd : F.Disjoint l) :
    IsSorted m' p l where
  chain := hk.chain h.chain hd
  sorted := by
    rw [hk.vals]
    exact h.sorted
  pos := h.pos

theorem IsSorted.nodup (h : IsSorted m p l) : l.Nodup :=
  List.Nodup.of_map _ (h.sorted.imp fun hlt => hlt.ne)

theorem IsSorted.tail (h : IsSorted m p (a :: l)) : IsSorted m (m a).pRight l where
  chain := h.chain.2
  sorted := (List.pairwise_cons.mp h.sorted).2
  pos hc := h.pos (List.mem_cons_of_mem _ hc)

theorem isSorted_nil (m : Heap) : IsSorted m none [] := ⟨rfl, by simp, by simp⟩

theorem IsSorted.inOrder (h : IsSorted m (some a) l) : inOrder m a = true := by
  cases l with
  | nil => cases h.chain
  | cons b l =>
    obtain rfl := Option.some.inj h.chain.1
    rw [Rowset.inOrder]
    cases hn : (m a).pRight with
    | none => rfl
    | some c =>
      cases l with
      | nil =>
        have hend : (m a).pRight = none := h.chain.2
        simp [hend] at hn
      | cons d l =>
        have hnext : (m a).pRight = some d := h.chain.2.1
        obtain rfl : d = c := Option.some.inj (hnext.symm.trans hn)
        have hlt := (List.pairwise_cons.mp h.sorted).1 (m d).v (by simp)
        simpa using hlt.le

theorem IsSorted.all_inOrder (h : IsSorted m p l) : p.all (Rowset.inOrder m) = true := by
  cases p with
  | none => rfl
  | some a => simpa using h.inOrder

theorem IsSorted.exists_cons (h : IsSorted m (some a) l) : ∃ r, l = a :: r := by
  cases l with
  | nil => cases h.chain
  | cons b r =>
    obtain rfl := Option.some.inj h.chain.1
    exact ⟨r, rfl⟩

/-- `l` is a merge of `la` and `lb`, made from their entries. -/
structure Merged (m : Heap) (la lb : List ℕ) (m' : Heap) (p : Option ℕ) (l : List ℕ) : Prop where
  list : IsSorted m' p l
  sub : l ⊆ la ++ lb
  mem : ∀ x, x ∈ vals m' l ↔ x ∈ vals m la ∨ x ∈ vals m lb

/-- The rest of a list is linked to `t`. -/
theorem merged_rest (h : IsSorted m p l) (ht : t ∉ l) :
    IsSorted (m.setRight t p) (right (m.setRight t p) t) l := by
  have hkeep := h.keeps (keeps_setRight m t p) (by simpa using ht)
  rwa [right_setRight, Function.update_self]

/-- The step of the loop that takes the first entry of `a :: la`. -/
theorem Merged.take {k : Heap} (hk : k = m.setRight t (some a)) (hA : IsSorted m (some a) (a :: la))
    (hB : ∀ x ∈ vals m lb, (m a).v < x) (ht : t ∉ a :: (la ++ lb))
    (h : Merged k la lb m' (right m' a) l) (hkeep : Keeps (a :: (la ++ lb)) k m') :
    Merged m (a :: la) lb m' (right m' t) (a :: l) ∧ Keeps (t :: a :: (la ++ lb)) m m' := by
  have hkm : Keeps [t] m k := hk ▸ keeps_setRight m t (some a)
  have hall : Keeps (t :: a :: (la ++ lb)) m m' :=
    (hkm.mono (by simp)).trans (hkeep.mono (by simp))
  have hlink : right m' t = some a := by
    rw [right, hkeep.out t ht, hk, setRight_self]
  have hmem : ∀ x, x ∈ vals m' l ↔ x ∈ vals m la ∨ x ∈ vals m lb := by
    intro x
    rw [h.mem, hkm.vals, hkm.vals]
  refine ⟨⟨⟨⟨hlink, h.list.chain⟩, ?_, ?_⟩, ?_, ?_⟩, hall⟩
  · rw [vals_cons, List.pairwise_cons]
    refine ⟨fun x hx => ?_, h.list.sorted⟩
    rw [hall.v]
    rcases (hmem x).mp hx with hx | hx
    · exact (List.pairwise_cons.mp hA.sorted).1 x hx
    · exact hB x hx
  · have h0 := h.list.pos
    have ha := hA.pos
    simp only [List.mem_cons, not_or] at ha ⊢
    exact ⟨ha.1, h0⟩
  · intro x hx
    rcases List.mem_cons.mp hx with rfl | hx
    · simp
    · exact List.mem_cons_of_mem _ (h.sub hx)
  · intro x
    simp only [vals_cons, List.mem_cons, hmem, hall.v]
    tauto

theorem Merged.swap (h : Merged m la lb m' p l) : Merged m lb la m' p l where
  list := h.list
  sub x hx := by
    have hx' := h.sub hx
    simp only [List.mem_append] at hx' ⊢
    tauto
  mem x := by rw [h.mem, or_comm]

/-- A value that is in both lists is dropped from the first. -/
theorem Merged.drop (h : Merged m la lb m' p l) (ha : (m a).v ∈ vals m lb) :
    Merged m (a :: la) lb m' p l where
  list := h.list
  sub x hx := List.mem_cons_of_mem _ (h.sub hx)
  mem x := by
    rw [h.mem, vals_cons, List.mem_cons]
    constructor
    · tauto
    · rintro ((rfl | hx) | hx)
      · exact Or.inr ha
      · exact Or.inl hx
      · exact Or.inr hx

theorem mergeLoop_spec (hA : IsSorted m pA la) (hB : IsSorted m pB lb) (hd : la.Disjoint lb)
    (ht : t ∉ la ++ lb) (hn : la.length + lb.length < n) :
    ∃ m' l, mergeLoop n m t pA pB = some m' ∧ Merged m la lb m' (right m' t) l ∧
      Keeps (t :: (la ++ lb)) m m' := by
  induction n generalizing m t pA pB la lb with
  | zero => omega
  | succ n ih =>
    rcases pA with - | a
    · obtain rfl := hA.chain.nil_of_none
      have hrest := merged_rest hB ht
      have hkeep := keeps_setRight m t pB
      refine ⟨m.setRight t pB, lb, ?_, ⟨hrest, by simp, ?_⟩, hkeep.mono (by simp)⟩
      · rw [mergeLoop, if_pos hB.all_inOrder]
      · simp [hkeep.vals]
    · obtain ⟨la, rfl⟩ := hA.exists_cons
      rcases pB with - | b
      · obtain rfl := hB.chain.nil_of_none
        have hrest := merged_rest hA (by simpa using ht)
        have hkeep := keeps_setRight m t (some a)
        refine ⟨m.setRight t (some a), a :: la, ?_, ⟨hrest, by simp, ?_⟩,
          hkeep.mono (by simp)⟩
        · rw [mergeLoop, if_pos hA.inOrder]
        · simp [hkeep.vals]
      · obtain ⟨lb, rfl⟩ := hB.exists_cons
        have hla := List.pairwise_cons.mp hA.sorted
        have hlb := List.pairwise_cons.mp hB.sorted
        have hdA : a ∉ b :: lb := fun hc => hd (by simp) hc
        have hdB : b ∉ a :: la := fun hc => hd hc (by simp)
        have hnodA := hA.nodup
        have hnodB := hB.nodup
        have hdl : la.Disjoint (b :: lb) := fun x hx hx' => hd (List.mem_cons_of_mem _ hx) hx'
        have hdr : (a :: la).Disjoint lb := fun x hx hx' => hd hx (List.mem_cons_of_mem _ hx')
        simp only [List.mem_append, List.mem_cons, not_or, List.length_cons] at ht hn hdA hdB
        simp only [List.nodup_cons] at hnodA hnodB
        rw [mergeLoop, if_pos ⟨hA.inOrder, hB.inOrder⟩]
        split_ifs with hlt hgt
        · dsimp only
          have hk := keeps_setRight m t (some a)
          have hnext : ((m.setRight t (some a)) a).pRight = (m a).pRight := by
            rw [setRight_of_ne (Ne.symm ht.1.1)]
          obtain ⟨m', l, hm, hmerged, hkeep⟩ := ih (t := a)
            (hnext ▸ hA.tail.keeps hk (by simpa using ht.1.2))
            (hB.keeps hk (by simpa using ht.2)) hdl
            (by simp only [List.mem_append, List.mem_cons, not_or]; exact ⟨hnodA.1, hdA⟩)
            (by simp only [List.length_cons]; omega)
          obtain ⟨hres, hall⟩ := hmerged.take rfl hA
            (fun x hx => by
              rcases List.mem_cons.mp hx with rfl | hx
              · exact hlt
              · exact hlt.trans (hlb.1 x hx))
            (by simpa [and_assoc] using ht) hkeep
          exact ⟨m', _, hm, hres, hall⟩
        · dsimp only
          have hk := keeps_setRight m t (some b)
          have hnext : ((m.setRight t (some b)) b).pRight = (m b).pRight := by
            rw [setRight_of_ne (Ne.symm ht.2.1)]
          obtain ⟨m', l, hm, hmerged, hkeep⟩ := ih (t := b)
            (hA.keeps hk (by simpa using ht.1)) (hnext ▸ hB.tail.keeps hk (by simpa using ht.2.2))
            hdr (by simp only [List.mem_append, List.mem_cons, not_or]; exact ⟨hdB, hnodB.1⟩)
            (by simp only [List.length_cons]; omega)
          obtain ⟨hres, hall⟩ := hmerged.swap.take rfl hB
            (fun x hx => by
              rcases List.mem_cons.mp hx with rfl | hx
              · exact hgt
              · exact hgt.trans (hla.1 x hx))
            (by simp only [List.mem_cons, List.mem_append, not_or]; tauto)
            (hkeep.mono (by intro x; simp only [List.mem_cons, List.mem_append]; tauto))
          exact ⟨m', _, hm, hres.swap,
            hall.mono (by intro x; simp only [List.mem_cons, List.mem_append]; tauto)⟩
        · have heq : (m a).v = (m b).v := le_antisymm (not_lt.mp hgt) (not_lt.mp hlt)
          obtain ⟨m', l, hm, hmerged, hkeep⟩ := ih (t := t) hA.tail hB hdl
            (by simp only [List.mem_append, List.mem_cons, not_or]; exact ⟨ht.1.2, ht.2⟩)
            (by simp only [List.length_cons]; omega)
          refine ⟨m', l, hm, hmerged.drop (by simp [heq]), hkeep.mono ?_⟩
          intro x
          simp only [List.mem_cons, List.mem_append]
          tauto

theorem rowSetEntryMerge_spec (hA : IsSorted m pA la) (hB : IsSorted m pB lb) (hd : la.Disjoint lb)
    (hn : la.length + lb.length < n) :
    ∃ m' p l, rowSetEntryMerge n m pA pB = some (m', p) ∧ Merged m la lb m' p l ∧
      Keeps (0 :: (la ++ lb)) m m' := by
  have hA0 := hA.pos
  have hB0 := hB.pos
  obtain ⟨m', l, hm, hmerged, hkeep⟩ := mergeLoop_spec (t := 0) hA hB hd (by simp [hA0, hB0]) hn
  exact ⟨m', right m' 0, l, by rw [rowSetEntryMerge, hm]; rfl, hmerged, hkeep⟩

end Sqlite.Rowset

import Sqlite.Foundation.Links
import Sqlite.Rowset.Forest

/-! The calls on a row set: an insertion adds to the values that wait, and a test with a new batch
number makes them visible. -/
namespace Sqlite.Rowset

open Foundation

section

variable {m m' : Heap} {s s' : RowSet} {w L : List ℤ} {visible : ℤ → Prop} {v r : ℤ}

/-- The row set in memory: the list of pending entries `l` and the forest `F`. -/
structure Good (s : RowSet) (l : List ℕ) (F : List (ℕ × Shape)) : Prop where
  pending : Chain (right s.mem) s.pEntry l
  last : s.pLast = l.getLast?
  forest : IsForest s.mem s.pForest F none
  nodup : (l ++ entries F).Nodup
  bound : ∀ a ∈ l ++ entries F, 0 < a ∧ a ≤ s.nEntry
  sorted : s.sorted = true ↔ (vals s.mem l).Pairwise (· < ·)

/-- The values that wait for a new batch number, in the order of their insertion, and those that a
test sees. -/
def Holds (s : RowSet) (w : List ℤ) (visible : ℤ → Prop) : Prop :=
  ∃ l F, Good s l F ∧ vals s.mem l = w ∧ ∀ x, InForest s.mem F x ↔ visible x

theorem holds_init (mem : Heap) : Holds (sqlite3RowSetInit mem) [] fun _ => False :=
  ⟨[], [], ⟨rfl, rfl, rfl, by simp, by simp, by simp [sqlite3RowSetInit]⟩, rfl, by simp⟩

section Entries
variable {l : List ℕ} {F : List (ℕ × Shape)}

theorem Good.length_lt (h : Good s l F) : (l ++ entries F).length < s.nEntry + 1 := by
  have hcons : (0 :: (l ++ entries F)).Nodup :=
    List.nodup_cons.mpr ⟨fun h0 => lt_irrefl 0 (h.bound 0 h0).1, h.nodup⟩
  have hle := length_le_of_nodup (n := s.nEntry + 1) hcons (by
    intro x hx
    rcases List.mem_cons.mp hx with rfl | hx
    · exact Nat.succ_pos _
    · exact Nat.lt_succ_of_le (h.bound x hx).2)
  simpa [Nat.lt_succ_iff] using hle

theorem Good.zero_notMem (h : Good s l F) : 0 ∉ l ++ entries F :=
  fun h0 => lt_irrefl 0 (h.bound 0 h0).1

theorem Good.fresh (h : Good s l F) : s.nEntry + 1 ∉ l ++ entries F :=
  fun hc => Nat.not_succ_le_self _ (h.bound _ hc).2

/-- Writing to an entry that was not handed out before. -/
theorem IsForest.update {p q : Option ℕ} {a : ℕ} {e : RowSetEntry} (h : IsForest m p F q)
    (ha : a ∉ entries F) : IsForest (Function.update m a e) p F q := by
  induction F generalizing p with
  | nil => exact h
  | cons f F ih =>
    obtain ⟨rfl, ⟨ht, hs⟩, hrest⟩ := h
    simp only [entries_cons, List.cons_append, List.mem_cons, List.mem_append, not_or] at ha
    have hne : ∀ b ∈ f.2.toList, Function.update m a e b = m b := fun b hb =>
      Function.update_of_ne (ne_of_mem_of_not_mem hb ha.2.1) _ _
    refine ⟨rfl, ⟨?_, ?_⟩, ?_⟩
    · rw [Function.update_of_ne (Ne.symm ha.1)]
      exact ht.congr hne
    · have hvals : vals (Function.update m a e) f.2.toList = vals m f.2.toList :=
        List.map_congr_left fun b hb => by rw [hne b hb]
      rwa [hvals]
    · rw [Function.update_of_ne (Ne.symm ha.1)]
      exact ih hrest ha.2.2

theorem vals_update {a : ℕ} {e : RowSetEntry} (ha : a ∉ l) : vals (Function.update m a e) l = vals m l :=
  List.map_congr_left fun b hb => by rw [Function.update_of_ne (ne_of_mem_of_not_mem hb ha)]

theorem inForest_update {a : ℕ} {e : RowSetEntry} {x : ℤ} (ha : a ∉ entries F) :
    InForest (Function.update m a e) F x ↔ InForest m F x := by
  simp only [InForest]
  refine exists_congr fun f => and_congr_right fun hf => ?_
  rw [vals_update]
  intro hc
  exact ha (List.mem_flatMap.mpr ⟨f, hf, List.mem_cons_of_mem _ hc⟩)

end Entries

theorem pairwise_snoc_iff {y : ℤ} (hl : w.getLast? = some y) :
    (w ++ [v]).Pairwise (· < ·) ↔ w.Pairwise (· < ·) ∧ y < v := by
  rw [List.pairwise_append]
  constructor
  · rintro ⟨hw, -, hlt⟩
    exact ⟨hw, hlt y (List.mem_of_getLast? hl) v (by simp)⟩
  · rintro ⟨hw, hlt⟩
    refine ⟨hw, List.pairwise_singleton _ _, fun x hx z hz => ?_⟩
    obtain rfl := List.mem_singleton.mp hz
    obtain ⟨pre, rfl⟩ := List.getLast?_eq_some_iff.mp hl
    rcases List.mem_append.mp hx with hx | hx
    · exact ((List.pairwise_append.mp hw).2.2 x hx y (by simp)).trans hlt
    · obtain rfl := List.mem_singleton.mp hx
      exact hlt

theorem sqlite3RowSetInsert_spec (h : Holds s w visible) :
    Holds (sqlite3RowSetInsert s v) (w ++ [v]) visible := by
  obtain ⟨l, F, hg, rfl, hvis⟩ := h
  have hfresh := hg.fresh
  have hnd := hg.nodup
  simp only [List.mem_append, not_or, List.nodup_append'] at hfresh hnd
  have hbound : ∀ a ∈ l ++ [s.nEntry + 1] ++ entries F, 0 < a ∧ a ≤ s.nEntry + 1 := by
    intro a ha
    simp only [List.mem_append, List.mem_singleton] at ha
    rcases ha with (ha | rfl) | ha
    · have hb := hg.bound a (by simp [ha])
      omega
    · omega
    · have hb := hg.bound a (by simp [ha])
      omega
  have hnodup : (l ++ [s.nEntry + 1] ++ entries F).Nodup := by
    simp only [List.nodup_append', List.disjoint_append_left, List.nodup_singleton]
    exact ⟨⟨hnd.1, trivial, by simpa using hfresh.1⟩, hnd.2.1, hnd.2.2, by simpa using hfresh.2⟩
  have hlast := hg.last
  rw [sqlite3RowSetInsert]
  cases hp : s.pLast with
  | none =>
    rw [hp] at hlast
    obtain rfl : l = [] := List.getLast?_eq_none_iff.mp hlast.symm
    refine ⟨[s.nEntry + 1], F, ⟨⟨rfl, ?_⟩, rfl, hg.forest.update hfresh.2, hnodup, hbound, ?_⟩, ?_,
      fun x => ?_⟩
    · simp [right, Chain]
    · simpa using hg.sorted
    · simp
    · dsimp only
      rw [inForest_update hfresh.2]
      exact hvis x
  | some b =>
    rw [hp] at hlast
    have hbl : b ∈ l := List.mem_of_getLast? hlast.symm
    have hbne : b ≠ s.nEntry + 1 := fun heq => hfresh.1 (heq ▸ hbl)
    have hbF : b ∉ entries F := fun hc => hnd.2.2 hbl hc
    obtain ⟨m₁, hm⟩ : ∃ m₁ : Heap, Function.update s.mem (s.nEntry + 1)
      { s.mem (s.nEntry + 1) with v := v, pRight := none } = m₁ := ⟨_, rfl⟩
    have hset := keeps_setRight m₁ b (some (s.nEntry + 1))
    have hvals : vals m₁ l = vals s.mem l := hm ▸ vals_update hfresh.1
    have hnew : (m₁ (s.nEntry + 1)).v = v := by simp [← hm]
    have hlastv : (vals s.mem l).getLast? = some (m₁ b).v := by
      rw [← hvals, vals, List.getLast?_map, ← hlast]
      rfl
    dsimp only
    rw [hm]
    refine ⟨l ++ [s.nEntry + 1], F, ⟨?_, by simp, ?_, hnodup, hbound, ?_⟩, ?_, fun x => ?_⟩
    · have hright : right (m₁.setRight b (some (s.nEntry + 1))) =
          Function.update (Function.update (right s.mem) (s.nEntry + 1) none) b
            (some (s.nEntry + 1)) := by
        rw [right_setRight]
        congr 1
        funext a
        rw [← hm, right, Function.update_apply, Function.update_apply]
        split_ifs <;> rfl
      dsimp only
      rw [hright]
      exact hg.pending.snoc hnd.1 hlast.symm hfresh.1
    · dsimp only
      apply IsForest.keeps _ hset (by simpa using hbF)
      rw [← hm]
      exact hg.forest.update hfresh.2
    · dsimp only
      rw [hset.vals, vals_append, hvals, vals_cons, vals_nil, hnew, pairwise_snoc_iff hlastv,
        ← hg.sorted]
      simp
    · dsimp only
      rw [hset.vals, vals_append, hvals, vals_cons, vals_nil, hnew]
    · dsimp only
      rw [hset.inForest, ← hm, inForest_update hfresh.2]
      exact hvis x

section Flush
variable {l l₁ l' : List ℕ} {F : List (ℕ × Shape)} {p q : Option ℕ}

theorem entries_emptied : entries (emptied F) = F.map Prod.fst := by
  induction F with
  | nil => rfl
  | cons e F ih => simpa [emptied, Shape.toList] using ih

theorem not_inForest_emptied {x : ℤ} : ¬ InForest m (emptied F) x := by
  simp [InForest, emptied, Shape.toList]

theorem map_fst_subset : F.map Prod.fst ⊆ entries F := by
  intro x hx
  obtain ⟨e, he, rfl⟩ := List.mem_map.mp hx
  exact List.mem_flatMap.mpr ⟨e, he, by simp⟩

theorem length_le_entries : F.length ≤ (entries F).length := by
  induction F with
  | nil => simp
  | cons e F ih =>
    simp only [entries_cons, List.cons_append, List.length_cons, List.length_append]
    omega

/-- The pending entries as a sorted list. -/
theorem Good.sort (h : Good s l F) (hne : l ≠ [])
    (hw : l.length < 2 ^ nBucket ∨ (vals s.mem l).Pairwise (· < ·)) :
    ∃ m' q l', (if s.sorted then some (s.mem, s.pEntry)
        else rowSetEntrySort (s.nEntry + 1) s.mem s.pEntry) = some (m', q) ∧
      IsSorted m' q l' ∧ l' ≠ [] ∧ l' ⊆ l ∧ (∀ x, x ∈ vals m' l' ↔ x ∈ vals s.mem l) ∧
      Keeps (0 :: l) s.mem m' := by
  have hlen := h.length_lt
  have h0 := h.zero_notMem
  have hnd := h.nodup
  simp only [List.length_append, List.mem_append, not_or, List.nodup_append'] at hlen h0 hnd
  by_cases hs : s.sorted = true
  · exact ⟨s.mem, s.pEntry, l, if_pos hs, ⟨h.pending, h.sorted.mp hs, h0.1⟩, hne, by simp, by simp,
      Keeps.refl _ _⟩
  · have hlt := hw.resolve_right fun hp => hs (h.sorted.mpr hp)
    obtain ⟨m', q, l', hsort, hl', hsub, hvals, hkeep⟩ :=
      (rowSetEntrySort_spec h.pending hnd.1 h0.1 (n := s.nEntry + 1) (by omega)).1 hlt
    refine ⟨m', q, l', by rw [if_neg hs, hsort], hl', ?_, hsub, hvals, hkeep⟩
    rintro rfl
    obtain ⟨a, l, rfl⟩ := List.exists_cons_of_ne_nil hne
    have hmem := (hvals (s.mem a).v).mpr (by simp)
    simp at hmem

/-- The last entry of the forest leads to a new one. -/
theorem link_forest {t : ℕ} (h : IsForest m p (emptied F) none) (hnd : (F.map Prod.fst).Nodup)
    (hd : (F.map Prod.fst).Disjoint l') :
    ∃ m', setPrevTree m (F.map Prod.fst).getLast? t = m' ∧
      IsForest m' (if (F.map Prod.fst).getLast? = none then some t else p) (emptied F) (some t) ∧
      Keeps (F.map Prod.fst) m m' := by
  cases hlast : F.getLast? with
  | none =>
    obtain rfl := List.getLast?_eq_none_iff.mp hlast
    exact ⟨m, rfl, rfl, Keeps.refl _ m⟩
  | some e =>
    have hmap : (F.map Prod.fst).getLast? = some e.1 := by
      rw [List.getLast?_map, hlast]
      rfl
    have hempty : (emptied F).getLast? = some (e.1, .nil) := by
      rw [emptied, List.getLast?_map, hlast]
      rfl
    rw [hmap]
    refine ⟨m.setRight e.1 (some t), rfl, ?_, (keeps_setRight m e.1 (some t)).mono ?_⟩
    · simpa using h.redirect_last (r := some t) (by rwa [entries_emptied]) hempty
    · simpa using List.mem_of_getLast? hmap

theorem addTree_spec (h : Good s l F) (hsub : l₁ ⊆ l)
    (ht : Taken m s.pForest F l₁ m' q l') :
    ∃ s' F', addTree s m' (F.map Prod.fst).getLast? q = some s' ∧ s'.iBatch = s.iBatch ∧
      IsForest s'.mem s'.pForest F' none ∧ (entries F').Nodup ∧
      (∀ a ∈ entries F', 0 < a ∧ a ≤ s'.nEntry) ∧ ∀ x, InForest s'.mem F' x ↔ x ∈ vals m' l' := by
  have hfresh := h.fresh
  have hnd := h.nodup
  have hlen := h.length_lt
  simp only [List.mem_append, not_or, List.nodup_append', List.length_append] at hfresh hnd hlen
  have hsub' : l' ⊆ entries F ++ l := fun a ha => by
    have ha' := List.mem_append.mp (ht.sub ha)
    exact List.mem_append.mpr (ha'.imp_right fun hc => hsub hc)
  have hfst : F.map Prod.fst ⊆ entries F := map_fst_subset
  have htl : s.nEntry + 1 ∉ l' := fun hc => by
    have hc' := List.mem_append.mp (hsub' hc)
    tauto
  have htF : s.nEntry + 1 ∉ F.map Prod.fst := fun hc => hfresh.2 (hfst hc)
  have hndF : (F.map Prod.fst).Nodup := by
    rw [← entries_emptied]
    have hsubl : (entries (emptied F)).Sublist (entries F) := by
      rw [entries_emptied]
      clear * -
      induction F with
      | nil => simp
      | cons e F ih =>
        simp only [List.map_cons, entries_cons, List.cons_append]
        exact (ih.trans (List.sublist_append_right _ _)).cons_cons _
    exact hnd.2.1.sublist hsubl
  have hlen' := length_add_le (L := entries F ++ l) ht.list.nodup List.nodup_nil
    (List.disjoint_nil_right _) hsub' (by simp)
  simp only [List.length_append, List.length_nil] at hlen'
  obtain ⟨m₁, hm₁, hforest₁, hkeep₁⟩ := link_forest (t := s.nEntry + 1) ht.forest hndF ht.disjoint
  obtain ⟨m₂, hm₂⟩ : ∃ m₂ : Heap, Function.update m₁ (s.nEntry + 1)
      { m₁ (s.nEntry + 1) with v := 0, pRight := none } = m₂ := ⟨_, rfl⟩
  have hout₂ : ∀ a, a ≠ s.nEntry + 1 → m₂ a = m₁ a := fun a ha => hm₂ ▸ Function.update_of_ne ha _ _
  have hl₁ := ht.list.keeps hkeep₁ ht.disjoint
  have hvals₂ : vals m₂ l' = vals m' l' := by
    rw [← hkeep₁.vals, ← hm₂, vals_update htl]
  have hchain₂ : Chain (right m₂) q l' := by
    apply hl₁.chain.congr
    intro a ha
    rw [right, right, hout₂ a (ne_of_mem_of_not_mem ha htl)]
  obtain ⟨m₃, root, t, hm₃, htree, rfl, hkeep₃⟩ := rowSetListToTree_spec (n := s.nEntry + 1) hchain₂
    ht.ne_nil ht.list.nodup (by omega)
  have hset := keeps_setLeft m₃ (s.nEntry + 1) (some root)
  have hkeep : Keeps ((s.nEntry + 1) :: t.toList) m₂ (m₃.setLeft (s.nEntry + 1) (some root)) :=
    (hkeep₃.mono (by simp)).trans (hset.mono (by simp))
  have hentry : (m₃ (s.nEntry + 1)).pRight = none := by
    rw [hkeep₃.out _ htl, ← hm₂, Function.update_self]
  have hforest₂ : IsForest m₂ (if (F.map Prod.fst).getLast? = none then some (s.nEntry + 1)
      else s.pForest) (emptied F) (some (s.nEntry + 1)) := by
    rw [← hm₂]
    exact hforest₁.update (by rwa [entries_emptied])
  have hforest : IsForest (m₃.setLeft (s.nEntry + 1) (some root))
      (if (F.map Prod.fst).getLast? = none then some (s.nEntry + 1) else s.pForest)
      (emptied F ++ [(s.nEntry + 1, t)]) none := by
    apply (hforest₂.keeps hkeep _).append
    · refine ⟨rfl, ⟨?_, ?_⟩, ?_⟩
      · rw [setLeft_self]
        exact htree.keeps hset (by simpa using htl)
      · rw [hkeep.vals, hvals₂]
        exact ht.list.sorted
      · rw [setLeft_self]
        exact hentry
    · rw [entries_emptied, List.disjoint_cons_left]
      exact ⟨htF, List.disjoint_symm ht.disjoint⟩
  refine ⟨{ s with
      mem := m₃.setLeft (s.nEntry + 1) (some root)
      nEntry := s.nEntry + 1
      pForest := if (F.map Prod.fst).getLast? = none then some (s.nEntry + 1) else s.pForest },
    emptied F ++ [(s.nEntry + 1, t)], ?_, rfl, hforest, ?_, ?_, fun x => ?_⟩
  · unfold addTree
    dsimp only
    rw [hm₁, hm₂, hm₃]
    rfl
  · simp only [entries_append, entries_emptied, entries_cons, entries_nil, List.append_nil,
      List.nodup_append', List.nodup_cons, List.disjoint_cons_right]
    exact ⟨hndF, ⟨htl, ht.list.nodup⟩, htF, ht.disjoint⟩
  · intro a ha
    simp only [entries_append, entries_emptied, entries_cons, entries_nil, List.append_nil,
      List.mem_append, List.mem_cons] at ha ⊢
    have hb := h.bound a
    rcases ha with ha | rfl | ha
    · have hb' := hb (List.mem_append_right _ (hfst ha))
      omega
    · omega
    · have hb' := hb (List.mem_append.mpr (List.mem_append.mp (hsub' ha)).symm)
      omega
  · simp only [inForest_append, not_inForest_emptied, false_or, inForest_cons, hkeep.vals, hvals₂,
      inForest_nil, or_false]

theorem addList_spec (h : Good s l F) (hl : IsSorted m q l₁) (hne : l₁ ≠ []) (hsub : l₁ ⊆ l)
    (hk : Keeps (0 :: l) s.mem m) :
    ∃ s' F', addList s m q = some s' ∧ s'.iBatch = s.iBatch ∧
      IsForest s'.mem s'.pForest F' none ∧ (entries F').Nodup ∧
      (∀ a ∈ entries F', 0 < a ∧ a ≤ s'.nEntry) ∧
      ∀ x, InForest s'.mem F' x ↔ InForest s.mem F x ∨ x ∈ vals m l₁ := by
  have hlen := h.length_lt
  have h0 := h.zero_notMem
  have hnd := h.nodup
  simp only [List.length_append, List.mem_append, not_or, List.nodup_append'] at hlen h0 hnd
  have hdis : (entries F).Disjoint l₁ := fun x hx hx' => hnd.2.2 (hsub hx') hx
  have hlen' := length_add_le hl.nodup List.nodup_nil (List.disjoint_nil_right _) hsub (by simp)
  have hF := length_le_entries (F := F)
  have hforest : IsForest m s.pForest F none :=
    h.forest.keeps hk (List.disjoint_cons_left.mpr ⟨h0.2, hnd.2.2⟩)
  rcases forestLoop_spec (n := s.nEntry + 1) (k := s.nEntry + 1) (u := none) hforest hl hne
    (List.nodup_append'.mpr ⟨hnd.2.1, hl.nodup, hdis⟩) h0.2
    (by simp only [List.length_append, List.length_nil] at hlen' ⊢; omega) (by omega) with
    ⟨m', F', hloop, hp⟩ | ⟨m', q', l', hloop, ht⟩
  · refine ⟨{ s with mem := m' }, F', by rw [addList, hloop]; rfl, rfl, hp.forest, hp.nodup,
      fun a ha => ?_, fun x => ?_⟩
    · apply h.bound
      have ha' := List.mem_append.mp (hp.sub ha)
      exact List.mem_append.mpr (ha'.symm.imp_left fun hc => hsub hc)
    · rw [hp.mem, hk.inForest]
  · rw [Option.or_none] at hloop
    obtain ⟨s', F', hs', hb, hforest', hnd', hbound, hmem⟩ := addTree_spec h hsub ht
    refine ⟨s', F', by rw [addList, hloop]; exact hs', hb, hforest', hnd', hbound, fun x => ?_⟩
    rw [hmem, ht.mem, hk.inForest]

end Flush

/-- With a new batch number the waiting values become visible. -/
theorem flush_spec (h : Holds s w visible) (hw : w.length < 2 ^ nBucket ∨ w.Pairwise (· < ·)) :
    ∃ s', flush s = some s' ∧ s'.iBatch = s.iBatch ∧ Holds s' [] fun x => visible x ∨ x ∈ w := by
  obtain ⟨l, F, hg, rfl, hvis⟩ := h
  rw [flush]
  by_cases hp : s.pEntry = none
  · rw [if_pos hp]
    have hchain := hg.pending
    rw [hp] at hchain
    obtain rfl := hchain.nil_of_none
    exact ⟨s, rfl, rfl, [], F, hg, rfl, by simpa using hvis⟩
  · have hne : l ≠ [] := by
      rintro rfl
      exact hp hg.pending
    obtain ⟨m₁, q, l₁, hsort, hl₁, hne₁, hsub, hvals, hkeep⟩ :=
      hg.sort hne (by simpa [vals] using hw)
    obtain ⟨s', F', hs', hb, hforest, hnd, hbound, hmem⟩ := addList_spec hg hl₁ hne₁ hsub hkeep
    refine ⟨{ s' with pEntry := none, pLast := none, sorted := true },
      by rw [if_neg hp, hsort, Option.bind_some, hs', Option.map_some], hb, [], F',
      ⟨rfl, rfl, hforest, by simpa using hnd, by simpa using hbound, by simp⟩, rfl, fun x => ?_⟩
    rw [hmem, hvals, hvis]

/-- More than the buckets can take. -/
theorem flush_full (h : Holds s w visible) (hw : 2 ^ nBucket ≤ w.length)
    (hs : ¬ w.Pairwise (· < ·)) : flush s = none := by
  obtain ⟨l, F, hg, rfl, hvis⟩ := h
  have hlen := hg.length_lt
  have h0 := hg.zero_notMem
  have hnd := hg.nodup
  simp only [List.length_append, List.mem_append, not_or, List.nodup_append'] at hlen h0 hnd
  have hp : s.pEntry ≠ none := by
    intro hp
    have hchain := hg.pending
    rw [hp] at hchain
    obtain rfl := hchain.nil_of_none
    simp at hs
  have hsort := (rowSetEntrySort_spec hg.pending hnd.1 h0.1 (n := s.nEntry + 1) (by omega)).2
    (by simpa [vals] using hw)
  rw [flush, if_neg hp, if_neg (fun hc => hs (hg.sorted.mp hc)), hsort]
  rfl

theorem sqlite3RowSetTest_spec {b : ℕ} (h : Holds s w visible)
    (hw : b ≠ s.iBatch → w.length < 2 ^ nBucket ∨ w.Pairwise (· < ·)) :
    ∃ s' found, sqlite3RowSetTest s b r = some (s', found) ∧ s'.iBatch = b ∧
      (Holds s' (if b = s.iBatch then w else []) fun x => visible x ∨ (b ≠ s.iBatch ∧ x ∈ w)) ∧
      (found = true ↔ visible r ∨ (b ≠ s.iBatch ∧ r ∈ w)) := by
  have hready : ∃ s', (if b ≠ s.iBatch then (flush s).map fun s => { s with iBatch := b } else some s) =
      some s' ∧ s'.iBatch = b ∧
      Holds s' (if b = s.iBatch then w else []) fun x => visible x ∨ (b ≠ s.iBatch ∧ x ∈ w) := by
    by_cases hb : b = s.iBatch
    · exact ⟨s, if_neg (not_not.mpr hb), hb.symm, by simpa [hb] using h⟩
    · obtain ⟨s', hs', -, l, F, hg, hl, hvis⟩ := flush_spec h (hw hb)
      refine ⟨{ s' with iBatch := b }, by rw [if_pos hb, hs', Option.map_some], rfl, l, F,
        ⟨hg.pending, hg.last, hg.forest, hg.nodup, hg.bound, hg.sorted⟩, ?_, ?_⟩
      · rw [if_neg hb]
        exact hl
      · simpa [hb] using hvis
  obtain ⟨s', hs', hb', hholds⟩ := hready
  obtain ⟨l, F, hg, hl, hvis⟩ := hholds
  have hlen := hg.length_lt
  have hF := length_le_entries (F := F)
  rw [List.length_append] at hlen
  obtain ⟨found, hfound, hiff⟩ := forestSearch_spec (n := s'.nEntry + 1) (k := s'.nEntry + 1) (x := r)
    hg.forest (by omega) (by omega)
  refine ⟨s', found, ?_, hb', ⟨l, F, hg, hl, hvis⟩, hiff.trans (hvis r)⟩
  rw [sqlite3RowSetTest, hs', Option.bind_some, hfound, Option.map_some]

end

/-! Taking the values out of a row set (`sqlite3RowSetNext`), smallest first. -/

/-- A row set with the flag `ROWSET_NEXT` of `rsFlags`. -/
structure RowSetNexts where
  set : RowSet
  next : Bool := false

/-- The chunks are freed, and the row set is empty. -/
def sqlite3RowSetClear (p : RowSetNexts) : RowSetNexts where
  set := { p.set with pEntry := none, pLast := none, pForest := none, sorted := true }

/-- The result is `none` where an assertion fails. -/
def rowSetToList (p : RowSetNexts) : Option RowSetNexts :=
  if p.next then none
  else
    (if p.set.sorted then some (p.set.mem, p.set.pEntry)
      else rowSetEntrySort (p.set.nEntry + 1) p.set.mem p.set.pEntry).bind fun r =>
    if p.set.pForest = none then
      some { set := { p.set with mem := r.1, pEntry := r.2 }, next := true }
    else none

/-- The value is `none` where the function returns 0. -/
def sqlite3RowSetNext (p : RowSetNexts) : Option (RowSetNexts × Option ℤ) :=
  (if p.next then some p else rowSetToList p).map fun p =>
    match p.set.pEntry with
    | none => (p, none)
    | some a =>
      let pRowid := (p.set.mem a).v
      let q : RowSetNexts := { p with set := { p.set with pEntry := (p.set.mem a).pRight } }
      (if q.set.pEntry = none then sqlite3RowSetClear q else q, some pRowid)

/-- The results of `k` calls. -/
def nexts : ℕ → RowSetNexts → Option (List (Option ℤ))
  | 0, _ => some []
  | k + 1, p => (sqlite3RowSetNext p).bind fun r => (nexts k r.1).map fun l => r.2 :: l

variable {p : RowSetNexts} {s : RowSet} {l : List ℕ} {w : List ℤ}

/-- What the calls still have to return, in order: the list in memory, or nothing. -/
def Ready (p : RowSetNexts) (l : List ℤ) : Prop :=
  (p.next = true ∧ ∃ as, IsSorted p.set.mem p.set.pEntry as ∧ vals p.set.mem as = l) ∨
    (l = [] ∧ p.next = false ∧ p.set.pEntry = none ∧ p.set.pForest = none ∧ p.set.sorted = true)

/-- One call on a list that is sorted. -/
theorem next_sorted (h : IsSorted s.mem s.pEntry l) :
    ∃ p', sqlite3RowSetNext ⟨s, true⟩ = some (p', (vals s.mem l).head?) ∧
      Ready p' (vals s.mem l).tail := by
  have hchain := h.chain
  cases hp : s.pEntry with
  | none =>
    obtain rfl : l = [] := by
      rw [hp] at hchain
      exact hchain.nil_of_none
    exact ⟨⟨s, true⟩, by simp [sqlite3RowSetNext, hp], .inl ⟨rfl, [], h, rfl⟩⟩
  | some a =>
    rw [hp] at h
    obtain ⟨r, rfl⟩ := h.exists_cons
    have htail := h.tail
    by_cases hr : (s.mem a).pRight = none
    · obtain rfl : r = [] := by
        rw [hr] at htail
        exact htail.chain.nil_of_none
      exact ⟨sqlite3RowSetClear ⟨s, true⟩, by simp [sqlite3RowSetNext, sqlite3RowSetClear, hp, hr],
        .inr ⟨rfl, rfl, rfl, rfl, rfl⟩⟩
    · exact ⟨⟨{ s with pEntry := (s.mem a).pRight }, true⟩, by simp [sqlite3RowSetNext, hp, hr],
        .inl ⟨rfl, r, htail, rfl⟩⟩

theorem next_spec {l : List ℤ} (h : Ready p l) :
    ∃ p', sqlite3RowSetNext p = some (p', l.head?) ∧ Ready p' l.tail := by
  rcases h with ⟨hn, as, hs, rfl⟩ | ⟨rfl, hn, hp, hf, hsort⟩
  · obtain ⟨s, next⟩ := p
    obtain rfl : next = true := hn
    exact next_sorted hs
  · refine ⟨⟨{ p.set with pEntry := none, pForest := none, sorted := true }, true⟩, ?_,
      .inl ⟨rfl, [], isSorted_nil _, rfl⟩⟩
    simp [sqlite3RowSetNext, rowSetToList, hn, hp, hf, hsort]

theorem nexts_spec {l : List ℤ} (h : Ready p l) (k : ℕ) :
    nexts k p = some ((List.range k).map fun i => l[i]?) := by
  induction k generalizing p l with
  | zero => rfl
  | succ k ih =>
    obtain ⟨p', hnext, hp'⟩ := next_spec h
    rw [nexts, hnext, Option.bind_some, ih hp', List.range_succ_eq_map]
    simp [List.head?_eq_getElem?, Function.comp_def]

/-- Before the first call the list is sorted, which takes at most 2^40 - 1 values. -/
theorem first_next {visible : ℤ → Prop} (h : Holds s w visible) (hf : s.pForest = none)
    (hw : w.length < 2 ^ nBucket) :
    ∃ l : List ℤ, l.Pairwise (· < ·) ∧ (∀ x, x ∈ l ↔ x ∈ w) ∧
      ∀ k, nexts k ⟨s, false⟩ = some ((List.range k).map fun i => l[i]?) := by
  obtain ⟨as, F, hg, rfl, -⟩ := h
  rw [vals, List.length_map] at hw
  obtain ⟨m', q, as', hsort, hs, hvals⟩ : ∃ m' q as', (if s.sorted then some (s.mem, s.pEntry)
      else rowSetEntrySort (s.nEntry + 1) s.mem s.pEntry) = some (m', q) ∧ IsSorted m' q as' ∧
        ∀ x, x ∈ vals m' as' ↔ x ∈ vals s.mem as := by
    by_cases hne : as = []
    · subst hne
      exact ⟨s.mem, s.pEntry, [], if_pos (hg.sorted.mpr .nil), ⟨hg.pending, .nil, by simp⟩, by simp⟩
    · obtain ⟨m', q, as', hsort, hs, -, -, hvals, -⟩ := hg.sort hne (.inl hw)
      exact ⟨m', q, as', hsort, hs, hvals⟩
  refine ⟨vals m' as', hs.sorted, hvals, fun k => ?_⟩
  cases k with
  | zero => rfl
  | succ k =>
    let p : RowSetNexts := ⟨{ s with mem := m', pEntry := q }, true⟩
    have hstart : sqlite3RowSetNext ⟨s, false⟩ = sqlite3RowSetNext p := by
      simp [sqlite3RowSetNext, rowSetToList, hsort, hf, p]
    rw [nexts, hstart]
    exact nexts_spec (p := p) (.inl ⟨rfl, as', hs, rfl⟩) (k + 1)

def insertAll (mem : Heap) (w : List ℤ) : RowSet := w.foldl sqlite3RowSetInsert (sqlite3RowSetInit mem)

theorem insertAll_holds (mem : Heap) (w : List ℤ) :
    Holds (insertAll mem w) w (fun _ => False) ∧ (insertAll mem w).pForest = none := by
  induction w using List.reverseRecOn with
  | nil => exact ⟨holds_init mem, rfl⟩
  | append_singleton w v ih =>
    obtain ⟨hw, hf⟩ := ih
    rw [insertAll, List.foldl_append]
    refine ⟨sqlite3RowSetInsert_spec hw, ?_⟩
    change (sqlite3RowSetInsert (insertAll mem w) v).pForest = none
    rw [← hf, sqlite3RowSetInsert]
    cases (insertAll mem w).pLast <;> rfl

/-- The values come out once each, in strictly increasing order, and then nothing does. -/
theorem rowset_next_sound (mem : Heap) (hw : w.length < 2 ^ 40) :
    ∃ l : List ℤ, l.Pairwise (· < ·) ∧ (∀ x, x ∈ l ↔ x ∈ w) ∧
      ∀ k, nexts k ⟨insertAll mem w, false⟩ = some ((List.range k).map fun i => l[i]?) :=
  first_next (insertAll_holds mem w).1 (insertAll_holds mem w).2 hw

theorem rowset_next_sound_three : ([3, 1, 3] : List ℤ).length < 2 ^ 40 ∧
    ∃ l : List ℤ, l.Pairwise (· < ·) ∧ (∀ x, x ∈ l ↔ x ∈ [3, 1, 3]) ∧
      ∀ k, nexts k ⟨insertAll (fun _ => ⟨0, none, none⟩) [3, 1, 3], false⟩ =
        some ((List.range k).map fun i => l[i]?) :=
  have hw : ([3, 1, 3] : List ℤ).length < 2 ^ 40 := by decide
  ⟨hw, rowset_next_sound _ hw⟩

end Sqlite.Rowset

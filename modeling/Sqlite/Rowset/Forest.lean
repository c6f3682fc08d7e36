import Sqlite.Rowset.Sort
import Sqlite.Rowset.Tree

/-! The forest of a row set: a list of entries that each hold a sorted tree or none. A new list
takes the trees on its way with it until it finds an entry without one. -/
namespace Sqlite.Rowset

open Foundation

variable {m m' : Heap} {p q r : Option ℕ} {l G : List ℕ} {F F' : List (ℕ × Shape)} {n k : ℕ}
  {x : ℤ}

/-- The entries of a forest from `p`, with their trees; the last one leads to `q`. -/
def IsForest (m : Heap) : Option ℕ → List (ℕ × Shape) → Option ℕ → Prop
  | p, [], q => p = q
  | p, e :: F, q => p = some e.1 ∧ (IsTree m (m e.1).pLeft e.2 ∧ (vals m e.2.toList).Pairwise (· < ·)) ∧
      IsForest m (m e.1).pRight F q

/-- All entries of a forest. -/
def entries (F : List (ℕ × Shape)) : List ℕ := F.flatMap fun e => e.1 :: e.2.toList

def InForest (m : Heap) (F : List (ℕ × Shape)) (x : ℤ) : Prop := ∃ e ∈ F, x ∈ vals m e.2.toList

@[simp] theorem entries_nil : entries [] = [] := rfl

@[simp] theorem entries_cons (e : ℕ × Shape) : entries (e :: F) = e.1 :: e.2.toList ++ entries F := rfl

@[simp] theorem entries_append : entries (F ++ F') = entries F ++ entries F' := List.flatMap_append

@[simp] theorem inForest_nil : ¬ InForest m [] x := by simp [InForest]

@[simp] theorem inForest_cons (e : ℕ × Shape) :
    InForest m (e :: F) x ↔ x ∈ vals m e.2.toList ∨ InForest m F x := by
  simp [InForest]

@[simp] theorem inForest_append : InForest m (F ++ F') x ↔ InForest m F x ∨ InForest m F' x := by
  simp only [InForest, List.mem_append, or_and_right, exists_or]

theorem Keeps.inForest (h : Keeps G m m') : InForest m' F x ↔ InForest m F x := by
  simp only [InForest, h.vals]

theorem IsForest.keeps (h : IsForest m p F q) (hk : Keeps G m m') (hd : G.Disjoint (entries F)) :
    IsForest m' p F q := by
  induction F generalizing p with
  | nil => exact h
  | cons e F ih =>
    obtain ⟨rfl, ⟨ht, hs⟩, hrest⟩ := h
    simp only [entries_cons, List.cons_append, List.disjoint_cons_right,
      List.disjoint_append_right] at hd
    refine ⟨rfl, ⟨?_, ?_⟩, ?_⟩
    · rw [hk.out e.1 hd.1]
      exact ht.keeps hk hd.2.1
    · rwa [hk.vals]
    · rw [hk.out e.1 hd.1]
      exact ih hrest hd.2.2

theorem IsForest.append (h : IsForest m p F q) (h' : IsForest m q F' r) :
    IsForest m p (F ++ F') r := by
  induction F generalizing p with
  | nil =>
    obtain rfl : p = q := h
    exact h'
  | cons e F ih => exact ⟨h.1, h.2.1, ih h.2.2⟩

/-- The last entry is made to lead to `r`. -/
theorem IsForest.redirect_last {e : ℕ × Shape} (h : IsForest m p F q) (hnd : (entries F).Nodup)
    (hl : F.getLast? = some e) : IsForest (m.setRight e.1 r) p F r := by
  induction F generalizing p with
  | nil => cases hl
  | cons f F ih =>
    obtain ⟨rfl, ⟨ht, hs⟩, hrest⟩ := h
    simp only [entries_cons, List.cons_append, List.nodup_cons, List.mem_append, not_or,
      List.nodup_append', List.disjoint_comm] at hnd
    have hset := keeps_setRight m e.1 r
    cases F with
    | nil =>
      obtain rfl : f = e := by simpa using hl
      refine ⟨rfl, ⟨?_, by rwa [hset.vals]⟩, ?_⟩
      · rw [setRight_self]
        exact ht.keeps hset (by simpa using hnd.1.1)
      · rw [setRight_self]
        rfl
    | cons g F =>
      rw [List.getLast?_cons_cons] at hl
      have hmem : e.1 ∈ entries (g :: F) := by
        apply List.mem_flatMap.mpr
        exact ⟨e, List.mem_of_getLast? hl, by simp⟩
      have hne : f.1 ≠ e.1 := fun heq => hnd.1.2 (heq ▸ hmem)
      refine ⟨rfl, ⟨?_, by rwa [hset.vals]⟩, ?_⟩
      · rw [setRight_of_ne hne]
        apply ht.keeps hset
        simpa using fun hc => hnd.2.2.2 hmem hc
      · rw [setRight_of_ne hne]
        exact ih hrest hnd.2.2.1 hl

theorem treeToList_sorted {a : ℕ} {t : Shape} (h : IsTree m (some a) t) (hnd : t.toList.Nodup)
    (hs : (vals m t.toList).Pairwise (· < ·)) (h0 : 0 ∉ t.toList) (hn : t.toList.length ≤ n) :
    ∃ m' first last, rowSetTreeToList n m a = some (m', first, last) ∧
      IsSorted m' (some first) t.toList ∧ Keeps t.toList m m' := by
  obtain ⟨m', first, last, hm, hchain, -, hkeep⟩ := rowSetTreeToList_spec h hnd hn
  exact ⟨m', first, last, hm, ⟨hchain, by rwa [hkeep.vals], h0⟩, hkeep⟩

/-- The forest with all trees taken. -/
def emptied (F : List (ℕ × Shape)) : List (ℕ × Shape) := F.map fun e => (e.1, .nil)

/-- The list `l` is placed in the forest. -/
structure Placed (m : Heap) (p : Option ℕ) (F : List (ℕ × Shape)) (l : List ℕ) (m' : Heap)
    (F' : List (ℕ × Shape)) : Prop where
  forest : IsForest m' p F' none
  sub : entries F' ⊆ entries F ++ l
  nodup : (entries F').Nodup
  mem : ∀ x, InForest m' F' x ↔ InForest m F x ∨ x ∈ vals m l
  keeps : Keeps (0 :: (entries F ++ l)) m m'

/-- All trees are taken; they are in the list `l'` with `l`. -/
structure Taken (m : Heap) (p : Option ℕ) (F : List (ℕ × Shape)) (l : List ℕ) (m' : Heap)
    (q : Option ℕ) (l' : List ℕ) : Prop where
  forest : IsForest m' p (emptied F) none
  list : IsSorted m' q l'
  ne_nil : l' ≠ []
  sub : l' ⊆ entries F ++ l
  disjoint : (F.map Prod.fst).Disjoint l'
  mem : ∀ x, x ∈ vals m' l' ↔ InForest m F x ∨ x ∈ vals m l
  keeps : Keeps (0 :: (entries F ++ l)) m m'

/-- The tree of the entry `f` is taken into the list. -/
structure TreeTaken (m : Heap) (f : ℕ) (t : Shape) (l : List ℕ) (m' : Heap) (q : Option ℕ)
    (l' : List ℕ) : Prop where
  entry : m' f = { m f with pLeft := none }
  list : IsSorted m' q l'
  ne_nil : l' ≠ []
  sub : l' ⊆ t.toList ++ l
  mem : ∀ x, x ∈ vals m' l' ↔ x ∈ vals m t.toList ∨ x ∈ vals m l
  keeps : Keeps (0 :: f :: (t.toList ++ l)) m m'

section Step
variable {f : ℕ} {t : Shape} {l' : List ℕ} {m'' : Heap}

theorem take_tree {root : ℕ} (ht : IsTree m (some root) t) (hs : (vals m t.toList).Pairwise (· < ·))
    (hl : IsSorted m q l) (hne : l ≠ []) (hndt : t.toList.Nodup) (hft : f ∉ t.toList) (hfl : f ∉ l)
    (htl : t.toList.Disjoint l) (hf : f ≠ 0) (h0 : 0 ∉ t.toList)
    (hn : t.toList.length + l.length < n) :
    ∃ r m' q' l', rowSetTreeToList n m root = some r ∧
      rowSetEntryMerge n (r.1.setLeft f none) (some r.2.1) q = some (m', q') ∧
      TreeTaken m f t l m' q' l' := by
  obtain ⟨m₁, first, last, hm₁, hlist, hkeep₁⟩ := treeToList_sorted (n := n) ht hndt hs h0 (by omega)
  have hset := keeps_setLeft m₁ f none
  have hkeep₂ : Keeps (f :: t.toList) m (m₁.setLeft f none) :=
    (hkeep₁.mono (by simp)).trans (hset.mono (by simp))
  obtain ⟨m₃, q', l', hm₃, hmerged, hkeep₃⟩ := rowSetEntryMerge_spec (n := n)
    (hlist.keeps hset (by simpa using hft))
    (hl.keeps hkeep₂ (List.disjoint_cons_left.mpr ⟨hfl, htl⟩)) htl (by omega)
  refine ⟨_, m₃, q', l', hm₁, hm₃, ?_, hmerged.list, hmerged.ne_nil hne, hmerged.sub, fun x => ?_, ?_⟩
  · rw [hkeep₃.out f (by simp [hf, hft, hfl]), setLeft_self, hkeep₁.out f hft]
  · rw [hmerged.mem, hkeep₂.vals, hkeep₂.vals]
  · apply (hkeep₂.mono ?_).trans (hkeep₃.mono ?_)
    · intro x hx
      simp only [List.mem_cons, List.mem_append] at hx ⊢
      tauto
    · intro x hx
      simp only [List.mem_cons, List.mem_append] at hx ⊢
      tauto

/-- The entries of a list with a tree taken are not those of the rest of the forest. -/
theorem TreeTaken.disjoint (h : TreeTaken m f t l m' q l') (hnd : (entries ((f, t) :: F) ++ l).Nodup) :
    f ∉ l' ∧ (entries F).Disjoint l' := by
  simp only [entries_cons, List.cons_append, List.nodup_cons, List.mem_append, not_or,
    List.nodup_append', List.disjoint_append_left] at hnd
  constructor
  · intro hc
    have hc' := List.mem_append.mp (h.sub hc)
    tauto
  · intro x hx hx'
    rcases List.mem_append.mp (h.sub hx') with hx' | hx'
    · exact hnd.2.1.2.2 hx' hx
    · exact hnd.2.2.2.2 hx hx'

theorem TreeTaken.keeps_rest (h : TreeTaken m f t l m' q l') (hk : Keeps (0 :: (entries F ++ l')) m' m'') :
    Keeps (0 :: (entries ((f, t) :: F) ++ l)) m m'' := by
  apply (h.keeps.mono ?_).trans (hk.mono ?_)
  · intro x hx
    simp only [entries_cons, List.cons_append, List.mem_cons, List.mem_append] at hx ⊢
    tauto
  · intro x hx
    have hsub : x ∈ l' → x ∈ t.toList ++ l := fun hx' => h.sub hx'
    simp only [entries_cons, List.cons_append, List.mem_cons, List.mem_append] at hx hsub ⊢
    tauto

theorem TreeTaken.entry_rest (h : TreeTaken m f t l m' q l') (hnd : (entries ((f, t) :: F) ++ l).Nodup)
    (hf : f ≠ 0) (hk : Keeps (0 :: (entries F ++ l')) m' m'') : m'' f = { m f with pLeft := none } := by
  have hfl' := (h.disjoint hnd).1
  have hfF : f ∉ entries F := by
    simp only [entries_cons, List.cons_append, List.nodup_cons, List.mem_append, not_or] at hnd
    exact hnd.1.1.2
  rw [hk.out f (by simp [hf, hfF, hfl']), h.entry]

theorem TreeTaken.placed (h : TreeTaken m f t l m' q l') (hnd : (entries ((f, t) :: F) ++ l).Nodup)
    (hf : f ≠ 0) (hp : Placed m' (m f).pRight F l' m'' F') :
    Placed m (some f) ((f, t) :: F) l m'' ((f, .nil) :: F') := by
  have hentry := h.entry_rest hnd hf hp.keeps
  refine ⟨⟨rfl, ⟨?_, by simp [Shape.toList]⟩, ?_⟩, ?_, ?_, fun x => ?_, h.keeps_rest hp.keeps⟩
  · simp [hentry, IsTree]
  · dsimp only
    rw [hentry]
    exact hp.forest
  · intro x hx
    have hsub : x ∈ l' → x ∈ t.toList ++ l := fun hx' => h.sub hx'
    have hsub' := hp.sub (a := x)
    simp only [entries_cons, Shape.toList, List.cons_append, List.nil_append, List.mem_cons,
      List.mem_append] at hx hsub hsub' ⊢
    tauto
  · simp only [entries_cons, Shape.toList, List.cons_append, List.nil_append, List.nodup_cons]
    refine ⟨fun hc => ?_, hp.nodup⟩
    have hfl' := (h.disjoint hnd).1
    have hc' := List.mem_append.mp (hp.sub hc)
    simp only [entries_cons, List.cons_append, List.nodup_cons, List.mem_append, not_or] at hnd
    tauto
  · rw [inForest_cons, inForest_cons, hp.mem, h.mem, h.keeps.inForest]
    simp only [Shape.toList, vals_nil, List.not_mem_nil, false_or]
    tauto

theorem TreeTaken.taken {q' : Option ℕ} {l'' : List ℕ} (h : TreeTaken m f t l m' q l')
    (hnd : (entries ((f, t) :: F) ++ l).Nodup) (hf : f ≠ 0)
    (ht : Taken m' (m f).pRight F l' m'' q' l'') :
    Taken m (some f) ((f, t) :: F) l m'' q' l'' := by
  have hentry := h.entry_rest hnd hf ht.keeps
  refine ⟨⟨rfl, ⟨?_, by simp [Shape.toList]⟩, ?_⟩, ht.list, ht.ne_nil, ?_, ?_, fun x => ?_,
    h.keeps_rest ht.keeps⟩
  · simp [hentry, IsTree]
  · dsimp only
    rw [hentry]
    exact ht.forest
  · intro x hx
    have hsub : x ∈ l' → x ∈ t.toList ++ l := fun hx' => h.sub hx'
    have hsub' := ht.sub hx
    simp only [entries_cons, List.cons_append, List.mem_cons, List.mem_append] at hsub hsub' ⊢
    tauto
  · rw [List.map_cons, List.disjoint_cons_left]
    refine ⟨fun hc => ?_, ht.disjoint⟩
    have hfl' := (h.disjoint hnd).1
    have hc' := List.mem_append.mp (ht.sub hc)
    simp only [entries_cons, List.cons_append, List.nodup_cons, List.mem_append, not_or] at hnd
    tauto
  · rw [inForest_cons, ht.mem, h.mem, h.keeps.inForest]
    tauto

/-- The entry `f` has no tree, and the list becomes its tree. -/
theorem place_list (hrest : IsForest m (m f).pRight F none)
    (hl : IsSorted m q l) (hne : l ≠ []) (hnd : (entries ((f, .nil) :: F) ++ l).Nodup)
    (hn : l.length ≤ n) :
    ∃ r t', rowSetListToTree n m q = some r ∧
      Placed m (some f) ((f, .nil) :: F) l (r.1.setLeft f (some r.2)) ((f, t') :: F) := by
  simp only [entries_cons, Shape.toList, List.cons_append, List.nil_append, List.nodup_cons,
    List.mem_append, not_or, List.nodup_append'] at hnd
  obtain ⟨⟨hfF, hfl⟩, hndF, hndl, hFl⟩ := hnd
  obtain ⟨m₁, a, t', hm₁, ht', rfl, hkeep₁⟩ := rowSetListToTree_spec (n := n) hl.chain hne hndl hn
  have hset := keeps_setLeft m₁ f (some a)
  have hkeep : Keeps (f :: t'.toList) m (m₁.setLeft f (some a)) :=
    (hkeep₁.mono (by simp)).trans (hset.mono (by simp))
  have hdF : (f :: t'.toList).Disjoint (entries F) :=
    List.disjoint_cons_left.mpr ⟨hfF, List.disjoint_symm hFl⟩
  have hentry : (m₁.setLeft f (some a)) f = { m f with pLeft := some a } := by
    rw [setLeft_self, hkeep₁.out f hfl]
  refine ⟨(m₁, a), t', hm₁, ⟨rfl, ⟨?_, ?_⟩, ?_⟩, ?_, ?_, fun x => ?_, hkeep.mono ?_⟩
  · dsimp only
    rw [hentry]
    exact ht'.keeps hset (by simpa using hfl)
  · rw [hkeep.vals]
    exact hl.sorted
  · dsimp only
    rw [hentry]
    exact hrest.keeps hkeep hdF
  · intro x hx
    simp only [entries_cons, Shape.toList, List.cons_append, List.nil_append, List.mem_cons,
      List.mem_append] at hx ⊢
    tauto
  · simp only [entries_cons, List.cons_append, List.nodup_cons, List.mem_append,
      List.nodup_append', not_or]
    exact ⟨⟨hfl, hfF⟩, hndl, hndF, List.disjoint_symm hFl⟩
  · simp only [inForest_cons, hkeep.inForest, Shape.toList, vals_nil, List.not_mem_nil, false_or]
    tauto
  · intro x hx
    simp only [entries_cons, Shape.toList, List.cons_append, List.nil_append, List.mem_cons,
      List.mem_append] at hx ⊢
    tauto

end Step

/-- The list is placed in the forest, or it takes all the trees. -/
theorem forestLoop_spec {u : Option ℕ} (h : IsForest m p F none) (hl : IsSorted m q l) (hne : l ≠ [])
    (hnd : (entries F ++ l).Nodup) (h0 : 0 ∉ entries F) (hn : (entries F ++ l).length < n)
    (hk : F.length < k) :
    (∃ m' F', forestLoop n k m u p q = some (m', none) ∧ Placed m p F l m' F') ∨
    (∃ m' q' l', forestLoop n k m u p q = some (m', some ((F.map Prod.fst).getLast?.or u, q')) ∧
      Taken m p F l m' q' l') := by
  induction k generalizing m p q l F u with
  | zero => omega
  | succ k ih =>
    cases F with
    | nil =>
      obtain rfl : p = none := h
      exact Or.inr ⟨m, q, l, by simp [forestLoop], rfl, hl, hne, by simp, by simp, by simp,
        Keeps.refl _ m⟩
    | cons e F =>
      obtain ⟨f, t⟩ := e
      obtain ⟨rfl, ⟨ht, hs⟩, hrest⟩ := h
      dsimp only at ht hs hrest
      have hnd' := hnd
      simp only [entries_cons, List.cons_append, List.nodup_cons, List.mem_append, not_or,
        List.nodup_append', List.mem_cons, List.disjoint_append_left, List.length_cons,
        List.length_append] at hnd' h0 hn hk
      obtain ⟨⟨⟨hft, hfF⟩, hfl⟩, ⟨hndt, hndF, htF⟩, hndl, htl, hFl⟩ := hnd'
      rw [forestLoop]
      cases hroot : (m f).pLeft with
      | none =>
        rw [hroot] at ht
        obtain rfl := ht.nil_of_none
        obtain ⟨r, t', hr, hplaced⟩ := place_list (n := n) hrest hl hne hnd (by omega)
        exact Or.inl ⟨_, (f, t') :: F, by dsimp only; rw [hr]; rfl, hplaced⟩
      | some root =>
        rw [hroot] at ht
        have hf : f ≠ 0 := fun heq => h0.1 heq.symm
        obtain ⟨r, m₃, q', l', hr, hm₃, htaken⟩ :=
          take_tree (n := n) ht hs hl hne hndt hft hfl htl hf h0.2.1 (by omega)
        obtain ⟨hfl', hFl'⟩ := htaken.disjoint hnd
        have hlen := length_add_le (L := t.toList ++ l) htaken.list.nodup List.nodup_nil
          (List.disjoint_nil_right _) htaken.sub (by simp)
        simp only [List.length_append, List.length_nil] at hlen
        have hrest₃ : IsForest m₃ (m f).pRight F none := by
          apply hrest.keeps htaken.keeps
          simp only [List.disjoint_cons_left, List.disjoint_append_left]
          exact ⟨h0.2.2, hfF, htF, List.disjoint_symm hFl⟩
        have hih := ih (u := some f) hrest₃ htaken.list htaken.ne_nil
          (List.nodup_append'.mpr ⟨hndF, htaken.list.nodup, hFl'⟩) h0.2.2
          (by rw [List.length_append]; omega) (by omega)
        have hnext : (m₃ f).pRight = (m f).pRight := by rw [htaken.entry]
        dsimp only
        rw [hr, Option.bind_some, hm₃, Option.bind_some, hnext]
        rcases hih with ⟨m₄, F', hloop, hplaced⟩ | ⟨m₄, q'', l'', hloop, htaken'⟩
        · exact Or.inl ⟨m₄, (f, .nil) :: F', hloop, htaken.placed hnd hf hplaced⟩
        · refine Or.inr ⟨m₄, q'', l'', ?_, htaken.taken hnd hf htaken'⟩
          have hlast : ((F.map Prod.fst).getLast?.or (some f)) =
              (((f, t) :: F).map Prod.fst).getLast?.or u := by
            rw [List.map_cons, List.getLast?_cons]
            cases (F.map Prod.fst).getLast? <;> rfl
          rw [← hlast]
          exact hloop

theorem forestSearch_spec (h : IsForest m p F none) (hn : (entries F).length < n) (hk : F.length < k) :
    ∃ found, forestSearch n k m x p = some found ∧ (found = true ↔ InForest m F x) := by
  induction k generalizing p F with
  | zero => omega
  | succ k ih =>
    cases F with
    | nil =>
      obtain rfl : p = none := h
      exact ⟨false, rfl, by simp⟩
    | cons e F =>
      obtain ⟨rfl, ⟨ht, hs⟩, hrest⟩ := h
      simp only [entries_cons, List.cons_append, List.length_cons, List.length_append] at hn hk
      obtain ⟨found, hfound, hiff⟩ := treeSearch_spec (n := n) (x := x) ht hs (by omega)
      obtain ⟨found', hfound', hiff'⟩ := ih hrest (by omega) (by omega)
      rw [forestSearch, hfound, Option.bind_some]
      cases found with
      | true => exact ⟨true, rfl, by simpa using Or.inl (hiff.mp rfl)⟩
      | false =>
        refine ⟨found', hfound', ?_⟩
        rw [hiff', inForest_cons, ← hiff]
        simp

end Sqlite.Rowset

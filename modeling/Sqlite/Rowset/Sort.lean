import Mathlib.Data.List.Sublists
import Sqlite.Foundation.Counter
import Sqlite.Rowset.Lists

/-! The merge sort of the pending entries: bucket `i` holds a sorted list when bit `i` of the number
of entries taken so far is set. -/
namespace Sqlite.Rowset

open Foundation

variable {m m' : Heap} {p : Option ℕ} {aBucket : ℕ → Option ℕ} {B : ℕ → List ℕ} {L F l : List ℕ}
  {a c d i k n : ℕ}

/-- Disjoint sorted lists of entries of `L`, from bucket `i` on. -/
structure Buckets (L : List ℕ) (i : ℕ) (m : Heap) (aBucket : ℕ → Option ℕ) (B : ℕ → List ℕ) :
    Prop where
  sorted : ∀ k, i ≤ k → IsSorted m (aBucket k) (B k)
  disjoint : ∀ j k, i ≤ j → i ≤ k → j ≠ k → (B j).Disjoint (B k)
  sub : ∀ k, i ≤ k → B k ⊆ L

/-- The value is in a bucket from `i` on. -/
def InBuckets (m : Heap) (B : ℕ → List ℕ) (i : ℕ) (x : ℤ) : Prop := ∃ k, i ≤ k ∧ x ∈ vals m (B k)

theorem Buckets.mono (h : Buckets L i m aBucket B) (hsub : L ⊆ F) : Buckets F i m aBucket B :=
  { h with sub := fun k hk => List.Subset.trans (h.sub k hk) hsub }

theorem Buckets.keeps (h : Buckets L i m aBucket B) (hk : Keeps F m m')
    (hF : ∀ k, i ≤ k → F.Disjoint (B k)) : Buckets L i m' aBucket B :=
  { h with sorted := fun k hik => (h.sorted k hik).keeps hk (hF k hik) }

theorem Buckets.set (h : Buckets L 0 m aBucket B) (hl : IsSorted m p l) (hsub : l ⊆ L)
    (hd : ∀ k, k ≠ i → (B k).Disjoint l) :
    Buckets L 0 m (Function.update aBucket i p) (Function.update B i l) where
  sorted k _ := by
    by_cases hk : k = i
    · subst hk
      rwa [Function.update_self, Function.update_self]
    · rw [Function.update_of_ne hk, Function.update_of_ne hk]
      exact h.sorted k (Nat.zero_le k)
  disjoint j k _ _ hjk := by
    by_cases hj : j = i
    · subst hj
      rw [Function.update_self, Function.update_of_ne hjk.symm]
      exact List.disjoint_symm (hd k hjk.symm)
    · rw [Function.update_of_ne hj]
      by_cases hk : k = i
      · subst hk
        rw [Function.update_self]
        exact hd j hj
      · rw [Function.update_of_ne hk]
        exact h.disjoint j k (Nat.zero_le j) (Nat.zero_le k) hjk
  sub k _ := by
    by_cases hk : k = i
    · subst hk
      rwa [Function.update_self]
    · rw [Function.update_of_ne hk]
      exact h.sub k (Nat.zero_le k)

theorem length_add_le (hnd : l.Nodup) (hnd' : F.Nodup) (hd : l.Disjoint F) (hl : l ⊆ L) (hF : F ⊆ L) :
    l.length + F.length ≤ L.length := by
  rw [← List.length_append]
  apply (List.Nodup.append hnd hnd' hd).subperm _ |>.length_le
  exact List.append_subset.mpr ⟨hl, hF⟩

theorem Merged.ne_nil {la lb : List ℕ} (h : Merged m la lb m' p l) (hb : lb ≠ []) : l ≠ [] := by
  obtain ⟨b, lb, rfl⟩ := List.exists_cons_of_ne_nil hb
  rintro rfl
  have hmem := (h.mem (m b).v).mpr (Or.inr (by simp))
  simp at hmem

/-- Merging the list with bucket `i`, which is empty then. -/
theorem Buckets.carry (h : Buckets L 0 m aBucket B) (hi : aBucket i ≠ none) (hl : IsSorted m p l)
    (hne : l ≠ []) (hsub : l ⊆ L) (hd : ∀ k, (B k).Disjoint l) (hn : L.length < n) :
    ∃ q m' p' l', aBucket i = some q ∧ rowSetEntryMerge n m (some q) p = some (m', p') ∧
      IsSorted m' p' l' ∧ l' ≠ [] ∧ l' ⊆ L ∧
      Buckets L 0 m' (Function.update aBucket i none) (Function.update B i []) ∧
      (∀ k, (Function.update B i [] k).Disjoint l') ∧
      (∀ x, (x ∈ vals m' l' ∨ InBuckets m' (Function.update B i []) 0 x) ↔
        (x ∈ vals m l ∨ InBuckets m B 0 x)) ∧ Keeps (0 :: L) m m' := by
  obtain ⟨q, hq⟩ := Option.ne_none_iff_exists'.mp hi
  have hB := h.sorted i (Nat.zero_le i)
  have hBi := h.sub i (Nat.zero_le i)
  rw [hq] at hB
  have hlen := length_add_le hB.nodup hl.nodup (hd i) hBi hsub
  obtain ⟨m', p', l', hm, hmerged, hkeep⟩ := rowSetEntryMerge_spec (n := n) hB hl (hd i) (by omega)
  have hsub' : l' ⊆ L := List.Subset.trans hmerged.sub (List.append_subset.mpr ⟨hBi, hsub⟩)
  have hother : ∀ k, k ≠ i → (B i ++ l).Disjoint (B k) := by
    intro k hk
    rw [List.disjoint_append_left]
    exact ⟨h.disjoint i k (Nat.zero_le i) (Nat.zero_le k) hk.symm, List.disjoint_symm (hd k)⟩
  have hkeepB : Buckets L 0 m' (Function.update aBucket i none) (Function.update B i []) := by
    apply (h.set (isSorted_nil m) (List.nil_subset _) fun k _ => List.disjoint_nil_right _).keeps hkeep
    intro k _
    by_cases hk : k = i
    · subst hk
      simp
    · rw [Function.update_of_ne hk, List.disjoint_cons_left]
      exact ⟨(h.sorted k (Nat.zero_le k)).pos, hother k hk⟩
  refine ⟨q, m', p', l', hq, hm, hmerged.list, hmerged.ne_nil hne, hsub', hkeepB, fun k => ?_,
    fun x => ?_, hkeep.mono ?_⟩
  · by_cases hk : k = i
    · subst hk
      simp
    · rw [Function.update_of_ne hk]
      exact fun x hx hx' => hother k hk (hmerged.sub hx') hx
  · simp only [InBuckets, hkeep.vals, Nat.zero_le, true_and]
    rw [← hkeep.vals, hmerged.mem]
    constructor
    · rintro ((hx | hx) | ⟨k, hx⟩)
      · exact Or.inr ⟨i, hx⟩
      · exact Or.inl hx
      · by_cases hk : k = i
        · subst hk
          simp at hx
        · rw [Function.update_of_ne hk] at hx
          exact Or.inr ⟨k, hx⟩
    · rintro (hx | ⟨k, hx⟩)
      · exact Or.inl (Or.inr hx)
      · by_cases hk : k = i
        · subst hk
          exact Or.inl (Or.inl hx)
        · exact Or.inr ⟨k, by rwa [Function.update_of_ne hk]⟩
  · exact List.cons_subset_cons 0 (List.append_subset.mpr ⟨hBi, hsub⟩)

theorem bucketLoop_spec (h : Buckets L 0 m aBucket B) (hbits : ∀ k, i ≤ k → (c.testBit k ↔ aBucket k ≠ none))
    (hlow : ∀ k, k < i → aBucket k = none) (hc : c % 2 ^ i = 2 ^ i - 1) (hlt : c + 1 < 2 ^ (i + d))
    (hl : IsSorted m p l) (hne : l ≠ []) (hsub : l ⊆ L) (hd : ∀ k, (B k).Disjoint l)
    (hn : L.length < n) :
    ∃ m' aBucket' B', bucketLoop n d m aBucket i p = some (m', aBucket') ∧ Buckets L 0 m' aBucket' B' ∧
      (∀ k, (c + 1).testBit k ↔ aBucket' k ≠ none) ∧
      (∀ x, InBuckets m' B' 0 x ↔ x ∈ vals m l ∨ InBuckets m B 0 x) ∧ Keeps (0 :: L) m m' := by
  induction d generalizing i m aBucket B p l with
  | zero =>
    have hmod := Nat.mod_le c (2 ^ i)
    have hpow := Nat.two_pow_pos i
    rw [add_zero] at hlt
    omega
  | succ d ih =>
    by_cases hbit : c.testBit i
    · obtain ⟨q, m', p', l', hq, hm, hl', hne', hsub', h', hd', hvals, hkeep⟩ :=
        h.carry ((hbits i le_rfl).mp hbit) hl hne hsub hd hn
      obtain ⟨m'', aBucket', B', hloop, hB', hbits', hvals', hkeep'⟩ :=
        ih (i := i + 1) h'
          (fun k hk => by rw [Function.update_of_ne (by omega)]; exact hbits k (by omega))
          (fun k hk => by
            by_cases hki : k = i
            · subst hki
              rw [Function.update_self]
            · rw [Function.update_of_ne hki]
              exact hlow k (by omega))
          (low_ones_succ hc hbit) (by rwa [Nat.add_assoc, Nat.add_comm 1]) hl' hne' hsub' hd'
      refine ⟨m'', aBucket', B', ?_, hB', hbits', fun x => ?_, hkeep.trans hkeep'⟩
      · rw [bucketLoop, hq]
        dsimp only
        rw [hm]
        exact hloop
      · rw [hvals', hvals]
    · have hnone : aBucket i = none := by
        by_contra hsome
        exact hbit ((hbits i le_rfl).mpr hsome)
      obtain ⟨hclear, hset, hhigh⟩ := testBit_succ hc hbit
      have hempty : B i = [] := by
        have hchain := (h.sorted i (Nat.zero_le i)).chain
        rw [hnone] at hchain
        exact hchain.nil_of_none
      have hp : p ≠ none := by
        rintro rfl
        exact hne hl.chain.nil_of_none
      refine ⟨m, Function.update aBucket i p, Function.update B i l, ?_,
        h.set hl hsub fun k _ => hd k, fun k => ?_, fun x => ?_, Keeps.refl _ m⟩
      · rw [bucketLoop, hnone]
      · rcases lt_trichotomy k i with hk | rfl | hk
        · rw [Function.update_of_ne (by omega), hlow k hk]
          simpa using hclear k hk
        · rw [Function.update_self]
          simp [hset, hp]
        · rw [Function.update_of_ne (by omega), hhigh k hk]
          exact hbits k hk.le
      · simp only [InBuckets, Nat.zero_le, true_and]
        constructor
        · rintro ⟨k, hx⟩
          by_cases hk : k = i
          · subst hk
            rw [Function.update_self] at hx
            exact Or.inl hx
          · rw [Function.update_of_ne hk] at hx
            exact Or.inr ⟨k, hx⟩
        · rintro (hx | ⟨k, hx⟩)
          · exact ⟨i, by rwa [Function.update_self]⟩
          · refine ⟨k, ?_⟩
            rw [Function.update_of_ne]
            · exact hx
            · rintro rfl
              simp [hempty] at hx

/-- With a list in each bucket, the loop would leave `aBucket`. -/
theorem bucketLoop_full (h : ∀ k, i ≤ k → k < i + d → aBucket k ≠ none) :
    bucketLoop n d m aBucket i p = none := by
  induction d generalizing i m aBucket p with
  | zero => rfl
  | succ d ih =>
    obtain ⟨q, hq⟩ := Option.ne_none_iff_exists'.mp (h i le_rfl (by omega))
    rw [bucketLoop, hq]
    dsimp only
    rw [Option.bind_eq_none_iff]
    intro r _
    apply ih
    intro k hk hkd
    rw [Function.update_of_ne (by omega)]
    exact h k (by omega) (by omega)

theorem isSorted_singleton (m : Heap) (ha : a ≠ 0) : IsSorted (m.setRight a none) (some a) [a] where
  chain := ⟨rfl, by simp [right, Chain]⟩
  sorted := by simp
  pos := by simpa using ha.symm

theorem sortLoop_spec {rest : List ℕ} (h : Buckets L 0 m aBucket B)
    (hbits : ∀ k, c.testBit k ↔ aBucket k ≠ none) (hp : Chain (right m) p rest) (hnd : rest.Nodup)
    (hpos : 0 ∉ rest) (hd : L.Disjoint rest) (hn : L.length + rest.length < n) (hk : rest.length < k)
    (hc : c < 2 ^ nBucket) :
    (c + rest.length < 2 ^ nBucket → ∃ m' aBucket' B', sortLoop n k m aBucket p = some (m', aBucket') ∧
      Buckets (L ++ rest) 0 m' aBucket' B' ∧ (∀ j, nBucket ≤ j → aBucket' j = none) ∧
      (∀ x, InBuckets m' B' 0 x ↔ x ∈ vals m rest ∨ InBuckets m B 0 x) ∧
      Keeps (0 :: (L ++ rest)) m m') ∧
    (2 ^ nBucket ≤ c + rest.length → sortLoop n k m aBucket p = none) := by
  induction rest generalizing L k m aBucket B p c with
  | nil =>
    obtain rfl : p = none := hp
    obtain ⟨k, rfl⟩ := Nat.exists_eq_succ_of_ne_zero (by omega : k ≠ 0)
    constructor
    · intro _
      refine ⟨m, aBucket, B, rfl, by simpa using h, fun j hj => ?_, by simp, Keeps.refl _ m⟩
      by_contra hsome
      have hbit := Nat.ge_two_pow_of_testBit ((hbits j).mpr hsome)
      have hle := Nat.pow_le_pow_right (by omega : 0 < 2) hj
      omega
    · intro hfull
      simp only [List.length_nil] at hfull
      omega
  | cons a rest ih =>
    obtain ⟨rfl, hrest⟩ := hp
    obtain ⟨k, rfl⟩ := Nat.exists_eq_succ_of_ne_zero (by omega : k ≠ 0)
    simp only [List.length_cons, List.mem_cons, not_or, List.nodup_cons,
      List.disjoint_cons_right] at hn hk hpos hnd hd ⊢
    have hset := keeps_setRight m a none
    have hL : ∀ j, [a].Disjoint (B j) := fun j => by
      simpa using fun hc => hd.1 (h.sub j (Nat.zero_le j) hc)
    have hB := (h.keeps hset fun j _ => hL j).mono (F := L ++ [a]) (by simp)
    have hlen : (L ++ [a]).length < n := by
      simp
      omega
    rw [sortLoop]
    by_cases hbound : c + 1 < 2 ^ (0 + nBucket)
    · obtain ⟨m', aBucket', B', hloop, hB', hbits', hvals, hkeep⟩ :=
        bucketLoop_spec hB (fun j _ => hbits j) (fun j hj => by omega) (by simp [Nat.mod_one]) hbound
          (isSorted_singleton m (Ne.symm hpos.1)) (by simp) (by simp)
          (fun j => List.disjoint_symm (hL j)) hlen
      have hall : Keeps (0 :: (L ++ [a])) m m' := (hset.mono (by simp)).trans hkeep
      have hchain := hall.chain hrest (by
        simp only [List.disjoint_cons_left, List.disjoint_append_left]
        exact ⟨hpos.2, hd.2, by simpa using hnd.1⟩)
      have hih := ih (L := L ++ [a]) (k := k) hB' hbits' hchain hnd.2 hpos.2
        (by simpa using ⟨hd.2, hnd.1⟩) (by simp; omega) (by omega) (by simpa using hbound)
      rw [hloop, Option.bind_some]
      constructor
      · intro hlt
        obtain ⟨m'', aBucket'', B'', hsort, hB'', hnone, hvals', hkeep'⟩ := hih.1 (by omega)
        rw [List.append_assoc, List.singleton_append] at hB'' hkeep'
        refine ⟨m'', aBucket'', B'', hsort, hB'', hnone, fun x => ?_, (hall.mono ?_).trans hkeep'⟩
        · rw [hvals', hvals, hall.vals]
          simp only [InBuckets, hset.vals, vals_cons, vals_nil, List.mem_cons, List.not_mem_nil,
            or_false]
          tauto
        · apply List.cons_subset_cons
          simp
      · intro hfull
        exact hih.2 (by omega)
    · have hfull : ∀ j, 0 ≤ j → j < 0 + nBucket → aBucket j ≠ none := by
        intro j _ hj
        apply (hbits j).mp
        rw [zero_add] at hbound hj
        have hones : c = 2 ^ nBucket - 1 := by omega
        rw [hones, Nat.testBit_two_pow_sub_one]
        simpa using hj
      rw [bucketLoop_full hfull]
      simp only [zero_add] at hbound
      constructor
      · intro hlt
        omega
      · intro _
        rfl

theorem collectLoop_spec (h : Buckets L i m aBucket B) (hl : IsSorted m p l) (hsub : l ⊆ L)
    (hd : ∀ j, i ≤ j → (B j).Disjoint l) (hn : L.length < n) (hend : ∀ j, i + k ≤ j → B j = []) :
    ∃ m' p' l', collectLoop n k m aBucket i p = some (m', p') ∧ IsSorted m' p' l' ∧ l' ⊆ L ∧
      (∀ x, x ∈ vals m' l' ↔ x ∈ vals m l ∨ InBuckets m B i x) ∧ Keeps (0 :: L) m m' := by
  induction k generalizing i m p l with
  | zero =>
    refine ⟨m, p, l, rfl, hl, hsub, fun x => ?_, Keeps.refl _ m⟩
    simp only [InBuckets, iff_self_or]
    rintro ⟨j, hj, hx⟩
    simp [hend j hj] at hx
  | succ k ih =>
    have hB := h.sorted i le_rfl
    have hBi := h.sub i le_rfl
    have hdl := List.disjoint_symm (hd i le_rfl)
    have hlen := length_add_le hl.nodup hB.nodup hdl hsub hBi
    obtain ⟨m', p', l', hm, hmerged, hkeep⟩ :=
      rowSetEntryMerge_spec (n := n) hl hB hdl (by omega)
    have hother : ∀ j, i + 1 ≤ j → (l ++ B i).Disjoint (B j) := by
      intro j hj
      rw [List.disjoint_append_left]
      exact ⟨List.disjoint_symm (hd j (by omega)), h.disjoint i j le_rfl (by omega) (by omega)⟩
    have h' : Buckets L (i + 1) m aBucket B :=
      ⟨fun j hj => h.sorted j (by omega), fun j j' hj hj' => h.disjoint j j' (by omega) (by omega),
        fun j hj => h.sub j (by omega)⟩
    obtain ⟨m'', p'', l'', hloop, hl'', hsub'', hvals, hkeep'⟩ := ih
      (h'.keeps hkeep fun j hj => List.disjoint_cons_left.mpr ⟨(h'.sorted j hj).pos, hother j hj⟩)
      hmerged.list (List.Subset.trans hmerged.sub (List.append_subset.mpr ⟨hsub, hBi⟩))
      (fun j hj x hx hx' => hother j hj (hmerged.sub hx') hx) (fun j hj => hend j (by omega))
    refine ⟨m'', p'', l'', ?_, hl'', hsub'', fun x => ?_, (hkeep.mono ?_).trans hkeep'⟩
    · rw [collectLoop, hm]
      exact hloop
    · rw [hvals, hmerged.mem]
      simp only [InBuckets, hkeep.vals]
      constructor
      · rintro ((hx | hx) | ⟨j, hj, hx⟩)
        · exact Or.inl hx
        · exact Or.inr ⟨i, le_rfl, hx⟩
        · exact Or.inr ⟨j, by omega, hx⟩
      · rintro (hx | ⟨j, hj, hx⟩)
        · exact Or.inl (Or.inl hx)
        · rcases Nat.eq_or_lt_of_le hj with rfl | hj
          · exact Or.inl (Or.inr hx)
          · exact Or.inr ⟨j, hj, hx⟩
    · exact List.cons_subset_cons 0 (List.append_subset.mpr ⟨hsub, hBi⟩)

/-- The sort keeps the values, each once, where the 40 buckets suffice. -/
theorem rowSetEntrySort_spec (hp : Chain (right m) p l) (hnd : l.Nodup) (hpos : 0 ∉ l)
    (hn : l.length < n) :
    (l.length < 2 ^ nBucket → ∃ m' p' l', rowSetEntrySort n m p = some (m', p') ∧
      IsSorted m' p' l' ∧ l' ⊆ l ∧ (∀ x, x ∈ vals m' l' ↔ x ∈ vals m l) ∧ Keeps (0 :: l) m m') ∧
    (2 ^ nBucket ≤ l.length → rowSetEntrySort n m p = none) := by
  have hempty : Buckets [] 0 m (fun _ => none) (fun _ => []) :=
    ⟨fun _ _ => isSorted_nil m, fun _ _ _ _ _ => List.disjoint_nil_left _, fun _ _ => by simp⟩
  have hsort := sortLoop_spec (c := 0) (k := n) hempty (by simp) hp hnd hpos
    (List.disjoint_nil_left l) (by simpa using hn) hn (Nat.two_pow_pos _)
  simp only [Nat.zero_add, List.nil_append] at hsort
  constructor
  · intro hlt
    obtain ⟨m', aBucket, B, hloop, hB, hnone, hvals, hkeep⟩ := hsort.1 hlt
    have hend : ∀ j, 0 + nBucket ≤ j → B j = [] := by
      intro j hj
      have hchain := (hB.sorted j (Nat.zero_le j)).chain
      rw [hnone j (by omega)] at hchain
      exact hchain.nil_of_none
    obtain ⟨m'', p', l', hcollect, hl', hsub, hvals', hkeep'⟩ := collectLoop_spec hB (isSorted_nil m')
      (List.nil_subset l) (fun j _ => List.disjoint_nil_right _) hn hend
    refine ⟨m'', p', l', ?_, hl', hsub, fun x => ?_, hkeep.trans hkeep'⟩
    · rw [rowSetEntrySort, hloop]
      exact hcollect
    · rw [hvals', hvals]
      simp [InBuckets]
  · intro hfull
    rw [rowSetEntrySort, hsort.2 hfull]
    rfl

end Sqlite.Rowset

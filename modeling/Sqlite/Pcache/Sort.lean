import Mathlib.Data.List.Pairwise
import Mathlib.Logic.Function.Basic
import Sqlite.Foundation.Chain

/-! The merge sort of the dirty pages by page number. Bucket `i` holds the merge of up to `2 ^ i`
pages, and the last bucket all that is more. -/
namespace Sqlite.Pcache

open Foundation

section

/-! Merging two lists of pages in order of their numbers, over the links `pDirty` of the pages. -/

/-- `pTail->pDirty = v`, where no tail stands for the local variable that holds the result. -/
def setTail (pDirty : ℕ → Option ℕ) (result pTail v : Option ℕ) : (ℕ → Option ℕ) × Option ℕ :=
  match pTail with
  | none => (pDirty, v)
  | some t => (Function.update pDirty t v, result)

/-- The loop of `pcacheMergeDirtyList`, for at most `n` pages. -/
def mergeLoop (pgno : ℕ → ℕ) : ℕ → (ℕ → Option ℕ) → Option ℕ → Option ℕ → Option ℕ → Option ℕ →
    Option ((ℕ → Option ℕ) × Option ℕ)
  | 0, _, _, _, some _, some _ => none
  | n + 1, pDirty, result, pTail, some a, some b =>
    if pgno a < pgno b then
      let r := setTail pDirty result pTail (some a)
      mergeLoop pgno n r.1 r.2 (some a) (r.1 a) (some b)
    else
      let r := setTail pDirty result pTail (some b)
      mergeLoop pgno n r.1 r.2 (some b) (some a) (r.1 b)
  | _, pDirty, result, pTail, some a, none => some (setTail pDirty result pTail (some a))
  | _, pDirty, result, pTail, none, some b => some (setTail pDirty result pTail (some b))
  | _, pDirty, result, pTail, none, none => some (setTail pDirty result pTail none)

def pcacheMergeDirtyList (pgno : ℕ → ℕ) (n : ℕ) (pDirty : ℕ → Option ℕ) (pA pB : Option ℕ) :
    Option ((ℕ → Option ℕ) × Option ℕ) :=
  mergeLoop pgno n pDirty none none pA pB

variable {pgno : ℕ → ℕ} {pDirty : ℕ → Option ℕ} {result pTail pA pB : Option ℕ}
  {d la lb : List ℕ} {n : ℕ}

/-- Sorted by strictly ascending page number. -/
def Ascending (pgno : ℕ → ℕ) (l : List ℕ) : Prop := l.Pairwise (fun x y => pgno x < pgno y)

/-- The pages `d` are linked up from the result, and the last one of them is the tail. -/
def Open (pDirty : ℕ → Option ℕ) (result pTail : Option ℕ) (d : List ℕ) : Prop :=
  (d = [] ∧ pTail = none) ∨ ∃ d' t, d = d' ++ [t] ∧ pTail = some t ∧ Seg pDirty result d' (some t)

section Merge

theorem setTail_seg (ho : Open pDirty result pTail d) (hnd : d.Nodup) (v : Option ℕ) :
    Seg (setTail pDirty result pTail v).1 (setTail pDirty result pTail v).2 d v := by
  rcases ho with ⟨rfl, rfl⟩ | ⟨d', t, rfl, rfl, hs⟩
  · rfl
  · have ht : t ∉ d' := fun hc =>
      (List.nodup_append.mp hnd).2.2 t hc t (List.mem_singleton_self t) rfl
    have hs' : Seg (Function.update pDirty t v) result d' (some t) :=
      hs.congr (fun z hz => Function.update_of_ne (ne_of_mem_of_not_mem hz ht) _ _)
    exact hs'.append ⟨rfl, Function.update_self ..⟩

theorem setTail_of_not_mem (ho : Open pDirty result pTail d) (v : Option ℕ) {z : ℕ} (hz : z ∉ d) :
    (setTail pDirty result pTail v).1 z = pDirty z := by
  rcases ho with ⟨rfl, rfl⟩ | ⟨d', t, rfl, rfl, -⟩
  · rfl
  · apply Function.update_of_ne
    rintro rfl
    exact hz (List.mem_append_right _ (List.mem_singleton_self z))

/-- The merge when one of the lists is used up. -/
theorem setTail_chain (ho : Open pDirty result pTail d) {r : List ℕ} (hr : Chain pDirty pA r)
    (hnd : (d ++ r).Nodup) :
    Chain (setTail pDirty result pTail pA).1 (setTail pDirty result pTail pA).2 (d ++ r) := by
  obtain ⟨h1, -, h3⟩ := List.nodup_append.mp hnd
  apply (setTail_seg ho h1 pA).chain
  apply hr.congr
  intro z hz
  exact setTail_of_not_mem ho pA (fun hc => h3 z hc z hz rfl)

/-- The loop appends the pages of both lists in order. -/
theorem mergeLoop_spec (ho : Open pDirty result pTail d) (ha : Chain pDirty pA la)
    (hb : Chain pDirty pB lb) (hnd : (d ++ (la ++ lb)).Nodup) (hsa : Ascending pgno la)
    (hsb : Ascending pgno lb) (hne : ∀ x ∈ la, ∀ y ∈ lb, pgno x ≠ pgno y)
    (hn : la.length + lb.length ≤ n) :
    ∃ pDirty' result' r, mergeLoop pgno n pDirty result pTail pA pB = some (pDirty', result') ∧
      Chain pDirty' result' (d ++ r) ∧ r.Perm (la ++ lb) ∧ Ascending pgno r ∧
      ∀ z, z ∉ d ++ (la ++ lb) → pDirty' z = pDirty z := by
  induction n generalizing pDirty result pTail d la lb pA pB with
  | zero =>
    obtain rfl := List.eq_nil_of_length_eq_zero (Nat.eq_zero_of_add_eq_zero_right (Nat.le_zero.mp hn))
    obtain rfl := List.eq_nil_of_length_eq_zero (Nat.eq_zero_of_add_eq_zero_left (Nat.le_zero.mp hn))
    obtain rfl := ha
    obtain rfl := hb
    refine ⟨_, _, [], rfl, setTail_chain ho (r := []) rfl hnd, List.Perm.refl _, List.Pairwise.nil,
      fun z hz => setTail_of_not_mem ho none (fun hc => hz (List.mem_append_left _ hc))⟩
  | succ n ih =>
    cases la with
    | nil =>
      obtain rfl := ha
      have hout : ∀ v z, z ∉ d ++ ([] ++ lb) → (setTail pDirty result pTail v).1 z = pDirty z :=
        fun v z hz => setTail_of_not_mem ho v (fun hc => hz (List.mem_append_left _ hc))
      cases lb with
      | nil =>
        obtain rfl := hb
        exact ⟨_, _, [], rfl, setTail_chain ho (r := []) rfl hnd, List.Perm.refl _,
          List.Pairwise.nil, hout none⟩
      | cons b lb =>
        obtain ⟨rfl, hb'⟩ := hb
        exact ⟨_, _, b :: lb, rfl, setTail_chain ho (r := b :: lb) ⟨rfl, hb'⟩ hnd, List.Perm.refl _,
          hsb, hout _⟩
    | cons a la =>
      cases lb with
      | nil =>
        obtain rfl := hb
        rw [List.append_nil] at hnd ⊢
        obtain ⟨rfl, ha'⟩ := ha
        exact ⟨_, _, a :: la, rfl, setTail_chain ho (r := a :: la) ⟨rfl, ha'⟩ hnd, List.Perm.refl _,
          hsa, fun z hz => setTail_of_not_mem ho _ (fun hc => hz (List.mem_append_left _ hc))⟩
      | cons b lb =>
        obtain ⟨rfl, ha'⟩ := ha
        obtain ⟨rfl, hb'⟩ := hb
        obtain ⟨hd, hab, hdab⟩ := List.nodup_append.mp hnd
        have hin : ∀ z, z ∈ a :: la ∨ z ∈ b :: lb → z ∉ d := by
          intro z hz hc
          exact hdab z hc z (List.mem_append.mpr hz) rfl
        have hsa' := List.pairwise_cons.mp hsa
        have hsb' := List.pairwise_cons.mp hsb
        rw [mergeLoop]
        dsimp only
        by_cases hlt : pgno a < pgno b
        · rw [if_pos hlt]
          have hfr := fun z hz => setTail_of_not_mem ho (some a) (z := z) hz
          have ho' : Open (setTail pDirty result pTail (some a)).1
              (setTail pDirty result pTail (some a)).2 (some a) (d ++ [a]) :=
            Or.inr ⟨d, a, rfl, rfl, setTail_seg ho hd (some a)⟩
          have hca : Chain (setTail pDirty result pTail (some a)).1
              ((setTail pDirty result pTail (some a)).1 a) la := by
            rw [hfr a (hin a (Or.inl List.mem_cons_self))]
            exact ha'.congr (fun z hz => hfr z (hin z (Or.inl (List.mem_cons_of_mem _ hz))))
          have hcb : Chain (setTail pDirty result pTail (some a)).1 (some b) (b :: lb) := by
            have hb0 : Chain pDirty (some b) (b :: lb) := ⟨rfl, hb'⟩
            exact hb0.congr (fun z hz => hfr z (hin z (Or.inr hz)))
          have hsame : (d ++ [a]) ++ (la ++ b :: lb) = d ++ (a :: la ++ b :: lb) := by
            rw [List.append_assoc]
            rfl
          obtain ⟨pD', r', r, h1, h2, h3, h4, h5⟩ := ih ho' hca hcb (hsame ▸ hnd) hsa'.2 hsb
            (fun x hx => hne x (List.mem_cons_of_mem _ hx)) (by
              rw [List.length_cons] at hn
              omega)
          rw [hsame] at h5
          refine ⟨pD', r', a :: r, h1, ?_, h3.cons a, List.pairwise_cons.mpr ⟨fun z hz => ?_, h4⟩,
            fun z hz => ?_⟩
          · rw [List.append_assoc] at h2
            exact h2
          · rcases List.mem_append.mp (h3.mem_iff.mp hz) with hz | hz
            · exact hsa'.1 z hz
            · rcases List.mem_cons.mp hz with rfl | hz
              · exact hlt
              · exact hlt.trans (hsb'.1 z hz)
          · rw [h5 z hz, hfr z (fun hc => hz (List.mem_append_left _ hc))]
        · rw [if_neg hlt]
          have hlt' : pgno b < pgno a := lt_of_le_of_ne (Nat.le_of_not_lt hlt)
            (hne a List.mem_cons_self b List.mem_cons_self).symm
          have hfr := fun z hz => setTail_of_not_mem ho (some b) (z := z) hz
          have ho' : Open (setTail pDirty result pTail (some b)).1
              (setTail pDirty result pTail (some b)).2 (some b) (d ++ [b]) :=
            Or.inr ⟨d, b, rfl, rfl, setTail_seg ho hd (some b)⟩
          have hcb : Chain (setTail pDirty result pTail (some b)).1
              ((setTail pDirty result pTail (some b)).1 b) lb := by
            rw [hfr b (hin b (Or.inr List.mem_cons_self))]
            exact hb'.congr (fun z hz => hfr z (hin z (Or.inr (List.mem_cons_of_mem _ hz))))
          have hca : Chain (setTail pDirty result pTail (some b)).1 (some a) (a :: la) := by
            have ha0 : Chain pDirty (some a) (a :: la) := ⟨rfl, ha'⟩
            exact ha0.congr (fun z hz => hfr z (hin z (Or.inl hz)))
          have hperm : ((d ++ [b]) ++ (a :: la ++ lb)).Perm (d ++ (a :: la ++ b :: lb)) := by
            rw [List.append_assoc]
            apply List.Perm.append_left d
            show (b :: (a :: la ++ lb)).Perm _
            exact List.perm_middle.symm
          obtain ⟨pD', r', r, h1, h2, h3, h4, h5⟩ := ih ho' hca hcb (hperm.nodup_iff.mpr hnd) hsa
            hsb'.2 (fun x hx y hy => hne x hx y (List.mem_cons_of_mem _ hy)) (by
              simp only [List.length_cons] at hn ⊢
              omega)
          refine ⟨pD', r', b :: r, h1, ?_, (h3.cons b).trans List.perm_middle.symm,
            List.pairwise_cons.mpr ⟨fun z hz => ?_, h4⟩, fun z hz => ?_⟩
          · rw [List.append_assoc] at h2
            exact h2
          · rcases List.mem_append.mp (h3.mem_iff.mp hz) with hz | hz
            · rcases List.mem_cons.mp hz with rfl | hz
              · exact hlt'
              · exact hlt'.trans (hsa'.1 z hz)
            · exact hsb'.1 z hz
          · rw [h5 z (fun hc => hz (hperm.mem_iff.mp hc)),
              hfr z (fun hc => hz (List.mem_append_left _ hc))]

/-- Merging two sorted lists of different pages. -/
theorem pcacheMergeDirtyList_spec (ha : Chain pDirty pA la) (hb : Chain pDirty pB lb)
    (hnd : (la ++ lb).Nodup) (hsa : Ascending pgno la) (hsb : Ascending pgno lb)
    (hne : ∀ x ∈ la, ∀ y ∈ lb, pgno x ≠ pgno y) (hn : la.length + lb.length ≤ n) :
    ∃ pDirty' p r, pcacheMergeDirtyList pgno n pDirty pA pB = some (pDirty', p) ∧
      Chain pDirty' p r ∧ r.Perm (la ++ lb) ∧ Ascending pgno r ∧
      ∀ z, z ∉ la ++ lb → pDirty' z = pDirty z :=
  mergeLoop_spec (d := []) (Or.inl ⟨rfl, rfl⟩) ha hb hnd hsa hsb hne hn

end Merge

end

def N_SORT_BUCKET : ℕ := 32

/-- The loop over the buckets that places `p`, with `k` buckets before the last one to go. -/
def placeLoop (pgno : ℕ → ℕ) (n : ℕ) : ℕ → (ℕ → Option ℕ) → (ℕ → Option ℕ) → Option ℕ →
    Option ((ℕ → Option ℕ) × (ℕ → Option ℕ))
  | 0, pDirty, a, p => do
    let r ← pcacheMergeDirtyList pgno n pDirty (a (N_SORT_BUCKET - 1)) p
    some (r.1, Function.update a (N_SORT_BUCKET - 1) r.2)
  | k + 1, pDirty, a, p =>
    let i := N_SORT_BUCKET - 1 - (k + 1)
    match a i with
    | none => some (pDirty, Function.update a i p)
    | some _ => do
      let r ← pcacheMergeDirtyList pgno n pDirty (a i) p
      placeLoop pgno n k r.1 (Function.update a i none) r.2

/-- The loop over the pages of the list `pIn`, for at most `m` of them. -/
def sortLoop (pgno : ℕ → ℕ) (n : ℕ) : ℕ → (ℕ → Option ℕ) → (ℕ → Option ℕ) → Option ℕ →
    Option ((ℕ → Option ℕ) × (ℕ → Option ℕ))
  | _, pDirty, a, none => some (pDirty, a)
  | 0, _, _, some _ => none
  | m + 1, pDirty, a, some p => do
    let r ← placeLoop pgno n (N_SORT_BUCKET - 1) (Function.update pDirty p none) a (some p)
    sortLoop pgno n m r.1 r.2 (pDirty p)

/-- The loop that merges the buckets into `p`, with `k` buckets to go. -/
def gatherLoop (pgno : ℕ → ℕ) (n : ℕ) (a : ℕ → Option ℕ) : ℕ → (ℕ → Option ℕ) → Option ℕ →
    Option ((ℕ → Option ℕ) × Option ℕ)
  | 0, pDirty, p => some (pDirty, p)
  | k + 1, pDirty, p => do
    let r ← pcacheMergeDirtyList pgno n pDirty p (a (N_SORT_BUCKET - (k + 1)))
    gatherLoop pgno n a k r.1 r.2

def pcacheSortDirtyList (pgno : ℕ → ℕ) (n : ℕ) (pDirty : ℕ → Option ℕ) (pIn : Option ℕ) :
    Option ((ℕ → Option ℕ) × Option ℕ) := do
  let r ← sortLoop pgno n n pDirty (fun _ => none) pIn
  gatherLoop pgno n r.2 (N_SORT_BUCKET - 1) r.1 (r.2 0)

variable {pgno : ℕ → ℕ} {pDirty : ℕ → Option ℕ} {n : ℕ}
  {a : ℕ → Option ℕ} {L : ℕ → List ℕ} {p : Option ℕ} {i j k : ℕ} {ks lp l rest : List ℕ}

theorem flatMap_update_perm (hnd : ks.Nodup) (hi : i ∈ ks) (L : ℕ → List ℕ) (x : List ℕ) :
    (ks.flatMap (Function.update L i x) ++ L i).Perm (ks.flatMap L ++ x) := by
  induction ks with
  | nil => cases hi
  | cons j ks ih =>
    obtain ⟨hj, hnd'⟩ := List.nodup_cons.mp hnd
    rw [List.flatMap_cons, List.flatMap_cons]
    by_cases hij : i = j
    · subst hij
      have hsame : ks.flatMap (Function.update L i x) = ks.flatMap L := by
        apply List.flatMap_congr
        intro z hz
        exact Function.update_of_ne (ne_of_mem_of_not_mem hz hj) _ _
      rw [Function.update_self, hsame]
      calc
        (x ++ ks.flatMap L ++ L i).Perm (L i ++ (x ++ ks.flatMap L)) := List.perm_append_comm
        _ |>.Perm (L i ++ (ks.flatMap L ++ x)) := List.perm_append_comm.append_left _
        _ = L i ++ ks.flatMap L ++ x := (List.append_assoc ..).symm
    · have hne : j ≠ i := fun e => hij e.symm
      rw [Function.update_of_ne hne, List.append_assoc, List.append_assoc]
      exact (ih hnd' ((List.mem_cons.mp hi).resolve_left hij)).append_left _

/-- The pages in the buckets. -/
def pooled (L : ℕ → List ℕ) : List ℕ := (List.range' 0 N_SORT_BUCKET).flatMap L

theorem mem_range_bucket : i ∈ List.range' 0 N_SORT_BUCKET ↔ i < N_SORT_BUCKET := by
  rw [List.mem_range'_1]
  omega

theorem pooled_update (hi : i < N_SORT_BUCKET) (L : ℕ → List ℕ) (x : List ℕ) :
    (pooled (Function.update L i x) ++ L i).Perm (pooled L ++ x) :=
  flatMap_update_perm List.nodup_range' (mem_range_bucket.mpr hi) L x

theorem mem_pooled (hi : i < N_SORT_BUCKET) {z : ℕ} (hz : z ∈ L i) : z ∈ pooled L :=
  List.mem_flatMap.mpr ⟨i, mem_range_bucket.mpr hi, hz⟩

/-- Different buckets have no page in common. -/
theorem not_mem_bucket (hnd : (pooled L).Nodup) (hi : i < N_SORT_BUCKET) (hj : j < N_SORT_BUCKET)
    (hij : i ≠ j) {z : ℕ} (hz : z ∈ L i) : z ∉ L j := by
  obtain ⟨-, hp⟩ := List.nodup_flatMap.mp hnd
  have hsymm : Std.Symm (Function.onFun List.Disjoint L) := ⟨fun _ _ h z hz hw => h hw hz⟩
  exact fun hc => hp.forall (mem_range_bucket.mpr hi) (mem_range_bucket.mpr hj) hij hz hc

/-- Every bucket holds a sorted list. -/
structure Buckets (pgno : ℕ → ℕ) (pDirty a : ℕ → Option ℕ) (L : ℕ → List ℕ) : Prop where
  chain : ∀ i < N_SORT_BUCKET, Chain pDirty (a i) (L i)
  sorted : ∀ i < N_SORT_BUCKET, Ascending pgno (L i)

theorem Buckets.update {pDirty' : ℕ → Option ℕ} {q : Option ℕ} {x : List ℕ}
    (hb : Buckets pgno pDirty a L) (hq : Chain pDirty' q x) (hx : Ascending pgno x)
    (hfr : ∀ j < N_SORT_BUCKET, j ≠ i → ∀ z ∈ L j, pDirty' z = pDirty z) :
    Buckets pgno pDirty' (Function.update a i q) (Function.update L i x) := by
  constructor
  · intro j hj
    by_cases hji : j = i
    · subst hji
      rwa [Function.update_self, Function.update_self]
    · rw [Function.update_of_ne hji, Function.update_of_ne hji]
      exact (hb.chain j hj).congr (hfr j hj hji)
  · intro j hj
    by_cases hji : j = i
    · subst hji
      rwa [Function.update_self]
    · rw [Function.update_of_ne hji]
      exact hb.sorted j hj

/-- Merging a bucket with a list that is in no bucket. -/
theorem Buckets.merge (hb : Buckets pgno pDirty a L) (hi : i < N_SORT_BUCKET)
    (hp : Chain pDirty p lp) (hsp : Ascending pgno lp) (hnd : (pooled L ++ lp).Nodup)
    (hinj : ∀ x ∈ pooled L ++ lp, ∀ y ∈ pooled L ++ lp, pgno x = pgno y → x = y)
    (hn : (pooled L ++ lp).length ≤ n) :
    ∃ pDirty' q r, pcacheMergeDirtyList pgno n pDirty (a i) p = some (pDirty', q) ∧
      Chain pDirty' q r ∧ r.Perm (L i ++ lp) ∧ Ascending pgno r ∧
      (∀ z, z ∉ L i ++ lp → pDirty' z = pDirty z) ∧
      ∀ j < N_SORT_BUCKET, j ≠ i → ∀ z ∈ L j, pDirty' z = pDirty z := by
  obtain ⟨hnd1, hnd2, hdis⟩ := List.nodup_append.mp hnd
  have hnd3 : (L i ++ lp).Nodup := by
    apply List.nodup_append.mpr
    refine ⟨?_, hnd2, fun x hx y hy => hdis x (mem_pooled hi hx) y hy⟩
    exact (List.nodup_flatMap.mp hnd1).1 i (mem_range_bucket.mpr hi)
  have hsub : (L i ++ lp).length ≤ n := by
    have h1 := (pooled_update hi L []).length_eq
    rw [List.length_append, List.append_nil] at h1
    rw [List.length_append] at hn ⊢
    omega
  rw [List.length_append] at hsub
  obtain ⟨pD, q, r, h1, h2, h3, h4, h5⟩ := pcacheMergeDirtyList_spec (hb.chain i hi) hp hnd3
    (hb.sorted i hi) hsp (fun x hx y hy e => hdis x (mem_pooled hi hx) y hy
      (hinj x (List.mem_append_left _ (mem_pooled hi hx)) y (List.mem_append_right _ hy) e)) hsub
  refine ⟨pD, q, r, h1, h2, h3, h4, h5, fun j hj hji z hz => h5 z (fun hc => ?_)⟩
  rcases List.mem_append.mp hc with hc | hc
  · exact not_mem_bucket hnd1 hj hi hji hz hc
  · exact hdis z (mem_pooled hj hz) z hc rfl

/-- Placing a list into the buckets, by merging with full ones on the way. -/
theorem placeLoop_spec (hb : Buckets pgno pDirty a L) (hk : k < N_SORT_BUCKET)
    (hp : Chain pDirty p lp) (hsp : Ascending pgno lp) (hnd : (pooled L ++ lp).Nodup)
    (hinj : ∀ x ∈ pooled L ++ lp, ∀ y ∈ pooled L ++ lp, pgno x = pgno y → x = y)
    (hn : (pooled L ++ lp).length ≤ n) :
    ∃ pDirty' a' L', placeLoop pgno n k pDirty a p = some (pDirty', a') ∧
      Buckets pgno pDirty' a' L' ∧ (pooled L').Perm (pooled L ++ lp) ∧
      ∀ z, z ∉ pooled L ++ lp → pDirty' z = pDirty z := by
  induction k generalizing pDirty a p L lp with
  | zero =>
    have hi : N_SORT_BUCKET - 1 < N_SORT_BUCKET := by decide
    obtain ⟨pD, q, r, h1, h2, h3, h4, h5, h6⟩ := hb.merge hi hp hsp hnd hinj hn
    refine ⟨pD, _, _, ?_, hb.update (i := N_SORT_BUCKET - 1) h2 h4 h6, ?_, fun z hz => h5 z ?_⟩
    · rw [placeLoop, h1]
      rfl
    · have hperm := (pooled_update hi L r).trans (h3.append_left (pooled L))
      rw [← List.append_assoc] at hperm
      have hcomm : (pooled L ++ L (N_SORT_BUCKET - 1) ++ lp).Perm
          (pooled L ++ lp ++ L (N_SORT_BUCKET - 1)) := by
        rw [List.append_assoc, List.append_assoc]
        exact List.perm_append_comm.append_left _
      exact (List.perm_append_right_iff _).mp (hperm.trans hcomm)
    · intro hc
      rcases List.mem_append.mp hc with hc | hc
      · exact hz (List.mem_append_left _ (mem_pooled hi hc))
      · exact hz (List.mem_append_right _ hc)
  | succ k ih =>
    have hi : N_SORT_BUCKET - 1 - (k + 1) < N_SORT_BUCKET := by omega
    rw [placeLoop]
    generalize N_SORT_BUCKET - 1 - (k + 1) = i at hi
    cases ha : a i with
    | none =>
      have hnil : L i = [] := by
        have hc := (hb.chain i hi).head
        rw [ha] at hc
        exact List.head?_eq_none_iff.mp hc.symm
      have hperm := pooled_update hi L lp
      rw [hnil, List.append_nil] at hperm
      exact ⟨pDirty, _, _, rfl, hb.update hp hsp (fun _ _ _ _ _ => rfl), hperm, fun _ _ => rfl⟩
    | some x =>
      obtain ⟨pD, q, r, h1, h2, h3, h4, h5, h6⟩ := hb.merge hi hp hsp hnd hinj hn
      rw [ha] at h1
      have hperm : (pooled (Function.update L i []) ++ r).Perm (pooled L ++ lp) := by
        have hpu := pooled_update hi L []
        rw [List.append_nil] at hpu
        calc
          (pooled (Function.update L i []) ++ r).Perm
              (pooled (Function.update L i []) ++ (L i ++ lp)) := h3.append_left _
          _ = pooled (Function.update L i []) ++ L i ++ lp := (List.append_assoc ..).symm
          _ |>.Perm (pooled L ++ lp) := hpu.append_right lp
      have hb' : Buckets pgno pD (Function.update a i none) (Function.update L i []) :=
        hb.update rfl List.Pairwise.nil h6
      obtain ⟨pD', a', L', g1, g2, g3, g4⟩ := ih hb' (Nat.lt_of_succ_lt hk) h2 h4
        (hperm.nodup_iff.mpr hnd)
        (fun x hx y hy => hinj x (hperm.mem_iff.mp hx) y (hperm.mem_iff.mp hy))
        (hperm.length_eq.trans_le hn)
      refine ⟨pD', a', L', ?_, g2, g3.trans hperm, fun z hz => ?_⟩
      · rw [h1]
        exact g1
      · rw [g4 z (fun hc => hz (hperm.mem_iff.mp hc)), h5 z (fun hc => hz ?_)]
        rcases List.mem_append.mp hc with hc | hc
        · exact List.mem_append_left _ (mem_pooled hi hc)
        · exact List.mem_append_right _ hc

/-- All pages of the list go into the buckets. -/
theorem sortLoop_spec {m : ℕ} (hb : Buckets pgno pDirty a L) (hr : Chain pDirty p rest)
    (hnd : (pooled L ++ rest).Nodup)
    (hinj : ∀ x ∈ pooled L ++ rest, ∀ y ∈ pooled L ++ rest, pgno x = pgno y → x = y)
    (hn : (pooled L ++ rest).length ≤ n) (hm : rest.length ≤ m) :
    ∃ pDirty' a' L', sortLoop pgno n m pDirty a p = some (pDirty', a') ∧
      Buckets pgno pDirty' a' L' ∧ (pooled L').Perm (pooled L ++ rest) := by
  induction rest generalizing m pDirty a p L with
  | nil =>
    obtain rfl := hr
    rw [List.append_nil]
    exact ⟨pDirty, a, L, by cases m <;> rfl, hb, List.Perm.refl _⟩
  | cons x rest ih =>
    obtain ⟨rfl, hr'⟩ := hr
    obtain ⟨m, rfl⟩ : ∃ m', m = m' + 1 := ⟨m - 1, by rw [List.length_cons] at hm; omega⟩
    have hassoc : pooled L ++ [x] ++ rest = pooled L ++ x :: rest := by
      rw [List.append_assoc]
      rfl
    rw [← hassoc] at hnd hinj hn ⊢
    obtain ⟨hnd1, -, hdis⟩ := List.nodup_append.mp hnd
    have hx : ∀ z ∈ pooled L, z ≠ x := fun z hz =>
      (List.nodup_append.mp hnd1).2.2 z hz x (List.mem_singleton_self x)
    have hb1 : Buckets pgno (Function.update pDirty x none) a L :=
      ⟨fun i hi => (hb.chain i hi).congr
        (fun z hz => Function.update_of_ne (hx z (mem_pooled hi hz)) _ _), hb.sorted⟩
    have hp1 : Chain (Function.update pDirty x none) (some x) [x] := ⟨rfl, Function.update_self ..⟩
    obtain ⟨pD, a', L', h1, h2, h3, h4⟩ := placeLoop_spec (n := n) hb1 (k := N_SORT_BUCKET - 1) (by decide)
      hp1 (List.pairwise_singleton _ _) hnd1
      (fun y hy w hw => hinj y (List.mem_append_left _ hy) w (List.mem_append_left _ hw))
      (by
        rw [List.length_append] at hn
        omega)
    have hr2 : Chain pD (pDirty x) rest := by
      apply hr'.congr
      intro z hz
      have hz' : z ∉ pooled L ++ [x] := fun hc => hdis z hc z hz rfl
      rw [h4 z hz', Function.update_of_ne]
      rintro rfl
      exact hz' (List.mem_append_right _ (List.mem_singleton_self z))
    have hperm := h3.append_right rest
    obtain ⟨pD', a2, L2, g1, g2, g3⟩ := ih h2 hr2 (hperm.nodup_iff.mpr hnd)
      (fun y hy w hw => hinj y (hperm.mem_iff.mp hy) w (hperm.mem_iff.mp hw))
      (hperm.length_eq.trans_le hn) (Nat.le_of_succ_le_succ hm)
    refine ⟨pD', a2, L2, ?_, g2, g3.trans hperm⟩
    rw [sortLoop, h1]
    exact g1

/-- The buckets that are left are merged into one list. -/
theorem gatherLoop_spec (hk : k ≤ N_SORT_BUCKET)
    (hb : ∀ i ∈ List.range' (N_SORT_BUCKET - k) k, Chain pDirty (a i) (L i) ∧ Ascending pgno (L i))
    (hp : Chain pDirty p lp) (hsp : Ascending pgno lp)
    (hnd : (lp ++ (List.range' (N_SORT_BUCKET - k) k).flatMap L).Nodup)
    (hinj : ∀ x ∈ lp ++ (List.range' (N_SORT_BUCKET - k) k).flatMap L,
      ∀ y ∈ lp ++ (List.range' (N_SORT_BUCKET - k) k).flatMap L, pgno x = pgno y → x = y)
    (hn : (lp ++ (List.range' (N_SORT_BUCKET - k) k).flatMap L).length ≤ n) :
    ∃ pDirty' q r, gatherLoop pgno n a k pDirty p = some (pDirty', q) ∧ Chain pDirty' q r ∧
      r.Perm (lp ++ (List.range' (N_SORT_BUCKET - k) k).flatMap L) ∧ Ascending pgno r := by
  induction k generalizing pDirty p lp with
  | zero =>
    refine ⟨pDirty, p, lp, rfl, hp, ?_, hsp⟩
    rw [List.range'_zero, List.flatMap_nil, List.append_nil]
  | succ k ih =>
    have hstart : N_SORT_BUCKET - (k + 1) + 1 = N_SORT_BUCKET - k := by omega
    rw [List.range'_succ, hstart] at hb hnd hinj hn ⊢
    rw [gatherLoop]
    generalize N_SORT_BUCKET - (k + 1) = i at hb hnd hinj hn
    rw [List.flatMap_cons] at hnd hinj hn ⊢
    generalize hrs : (List.range' (N_SORT_BUCKET - k) k).flatMap L = rs at ih hnd hinj hn
    rw [← List.append_assoc] at hnd hinj hn ⊢
    obtain ⟨hnd1, -, hdis⟩ := List.nodup_append.mp hnd
    obtain ⟨hci, hsi⟩ := hb i List.mem_cons_self
    have hlen := hn
    rw [List.length_append, List.length_append] at hlen
    have hne : ∀ x ∈ lp, ∀ y ∈ L i, pgno x ≠ pgno y := by
      intro x hx y hy e
      have hxy := hinj x (List.mem_append_left _ (List.mem_append_left _ hx)) y
        (List.mem_append_left _ (List.mem_append_right _ hy)) e
      exact (List.nodup_append.mp hnd1).2.2 x hx y hy hxy
    obtain ⟨pD, q, r, h1, h2, h3, h4, h5⟩ := pcacheMergeDirtyList_spec (n := n) hp hci hnd1 hsp hsi
      hne (by omega)
    have hb' : ∀ j ∈ List.range' (N_SORT_BUCKET - k) k,
        Chain pD (a j) (L j) ∧ Ascending pgno (L j) := by
      intro j hj
      obtain ⟨hcj, hsj⟩ := hb j (List.mem_cons_of_mem _ hj)
      refine ⟨hcj.congr (fun z hz => h5 z (fun hc => ?_)), hsj⟩
      have hzr : z ∈ rs := hrs ▸ List.mem_flatMap.mpr ⟨j, hj, hz⟩
      exact hdis z hc z hzr rfl
    have hperm := h3.append_right rs
    obtain ⟨pD', q', r', g1, g2, g3, g4⟩ := ih (Nat.le_of_succ_le hk) hb' h2 h4
      (hperm.nodup_iff.mpr hnd)
      (fun x hx y hy => hinj x (hperm.mem_iff.mp hx) y (hperm.mem_iff.mp hy))
      (hperm.length_eq.trans_le hn)
    refine ⟨pD', q', r', ?_, g2, g3.trans hperm, g4⟩
    rw [h1]
    exact g1

/-- The sort returns the pages of the list in ascending order of their numbers. -/
theorem pcacheSortDirtyList_spec (pgno : ℕ → ℕ) (hl : Chain pDirty p l) (hnd : l.Nodup)
    (hinj : ∀ x ∈ l, ∀ y ∈ l, pgno x = pgno y → x = y) (hn : l.length ≤ n) :
    ∃ pDirty' q r, pcacheSortDirtyList pgno n pDirty p = some (pDirty', q) ∧
      Chain pDirty' q r ∧ r.Perm l ∧ Ascending pgno r := by
  have hempty : pooled (fun _ => []) = [] := by
    apply List.flatMap_eq_nil_iff.mpr
    exact fun _ _ => rfl
  have hb : Buckets pgno pDirty (fun _ => none) (fun _ => []) :=
    ⟨fun _ _ => rfl, fun _ _ => List.Pairwise.nil⟩
  have hsort := sortLoop_spec (m := n) (n := n) hb hl
  rw [hempty, List.nil_append] at hsort
  obtain ⟨pD, a', L', h1, h2, h3⟩ := hsort hnd hinj hn hn
  have hrange : pooled L' = L' 0 ++ (List.range' (N_SORT_BUCKET - (N_SORT_BUCKET - 1))
      (N_SORT_BUCKET - 1)).flatMap L' := rfl
  rw [hrange] at h3
  have hleft : ∀ i ∈ List.range' (N_SORT_BUCKET - (N_SORT_BUCKET - 1)) (N_SORT_BUCKET - 1),
      Chain pD (a' i) (L' i) ∧ Ascending pgno (L' i) := by
    intro i hi
    have h32 : N_SORT_BUCKET = 32 := rfl
    rw [List.mem_range'_1, h32] at hi
    exact ⟨h2.chain i (by omega), h2.sorted i (by omega)⟩
  obtain ⟨pD', q, r, g1, g2, g3, g4⟩ := gatherLoop_spec (n := n) (Nat.sub_le _ _) hleft
    (h2.chain 0 (by decide)) (h2.sorted 0 (by decide)) (h3.nodup_iff.mpr hnd)
    (fun x hx y hy => hinj x (h3.mem_iff.mp hx) y (h3.mem_iff.mp hy)) (h3.length_eq.trans_le hn)
  refine ⟨pD', q, r, ?_, g2, g3.trans h3, g4⟩
  unfold pcacheSortDirtyList
  rw [h1]
  exact g1

end Sqlite.Pcache

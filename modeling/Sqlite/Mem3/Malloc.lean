import Sqlite.Mem3.Merge

/-! What `memsys3MallocUnsafe` comes to. -/
namespace Sqlite.Mem3
open Foundation

section

/-! One round of the third step: releases, and the lists are merged. -/

variable {m m' : Mem3Global} {n i j p k nBlock : ℕ} {C U M : Finset ℕ} {sz : ℕ → ℕ}
  {fl : Root → List ℕ} {ps : List ℕ}

theorem Good.withBusy (h : Good m C U sz fl) (busy : Bool) :
    Good { m with alarmBusy := busy } C U sz fl := by
  constructor
  · exact h.toInv.withMaster busy m.mnMaster m.iMaster m.szMaster
  · exact h.master

theorem Good.freeAll (ps : List ℕ) (h : Good m C U sz fl) (hnd : ps.Nodup) (hsub : ∀ p ∈ ps, p ∈ U) :
    ∃ m' C' sz' fl', freeAll ps m = some m' ∧ Good m' C' (U \ ps.toFinset) sz' fl' ∧
      Kept (U \ ps.toFinset) sz sz' m m' ∧ C' ⊆ C := by
  induction ps generalizing m C U sz fl with
  | nil =>
    rw [List.toFinset_nil, Finset.sdiff_empty]
    exact ⟨m, C, sz, fl, rfl, h, Kept.refl U sz m, Finset.Subset.refl C⟩
  | cons p ps ih =>
    obtain ⟨hp, hnd'⟩ := List.nodup_cons.mp hnd
    obtain ⟨m1, C1, sz1, fl1, hm1, h1, k1, c1⟩ := h.freeUnsafe (hsub p List.mem_cons_self)
    have hsub' : ∀ q ∈ ps, q ∈ U.erase p := by
      intro q hq
      have hqp : q ≠ p := fun hc => hp (hc ▸ hq)
      exact Finset.mem_erase.mpr ⟨hqp, hsub q (List.mem_cons_of_mem _ hq)⟩
    obtain ⟨m', C', sz', fl', hm', h', k', c'⟩ := ih h1 hnd' hsub'
    have hset : U.erase p \ ps.toFinset = U \ (p :: ps).toFinset := by
      rw [List.toFinset_cons, Finset.sdiff_insert, ← Finset.erase_sdiff_comm]
    rw [hset] at h' k'
    refine ⟨m', C', sz', fl', ?_, h', ?_, c'.trans c1⟩
    · rw [Mem3.freeAll, hm1]
      exact hm'
    · refine (k1.mono ?_).trans k'
      rw [← hset]
      exact Finset.sdiff_subset

/-- The releases free chunks in use, each once. -/
def Releases (U : Finset ℕ) (ps : List ℕ) : Prop := ps.Nodup ∧ ∀ p ∈ ps, p ∈ U

theorem Good.outOfMemory (h : Good m C U sz fl) (hq : m.alarmBusy = false) (hps : Releases U ps) :
    ∃ m' C' sz' fl', memsys3OutOfMemory m ps = some m' ∧ Good m' C' (U \ ps.toFinset) sz' fl' ∧
      m'.alarmBusy = false ∧ Kept (U \ ps.toFinset) sz sz' m m' ∧ C' ⊆ C := by
  obtain ⟨m1, C1, sz1, fl1, hm1, h1, k1, c1⟩ := (h.withBusy true).freeAll ps hps.1 hps.2
  have hbusy : ¬ m.alarmBusy = true := by
    rw [hq]
    exact Bool.false_ne_true
  refine ⟨{ m1 with alarmBusy := false }, C1, sz1, fl1, ?_, h1.withBusy false, rfl, ?_, c1⟩
  · rw [memsys3OutOfMemory, if_neg hbusy, hm1]
  · exact ⟨⟨k1.nPool, hq.symm, k1.keeps⟩, k1.sizes⟩

/-- What a round does to the chunks. -/
structure Round (C U : Finset ℕ) (sz : ℕ → ℕ) (C' : Finset ℕ) (sz' : ℕ → ℕ) (m' : Mem3Global) : Prop where
  sub : C' ⊆ C
  grow : ∀ j ∈ C', sz j ≤ sz' j
  seen : ∀ j ∈ C', j ∉ U → Seen m' U sz' (sz j) j

theorem Good.linkMaster (h : Good m C U sz fl) :
    ∃ m' fl', linkMaster m = some m' ∧ Inv m' C U ∅ sz fl' ∧ m'.iMaster = 0 ∧ m'.szMaster = 0 ∧
      Rest U sz m m' ∧ laid m' C U sz fl' = (laid m C U sz fl).linkMaster := by
  unfold Mem3.linkMaster
  by_cases h0 : m.iMaster ≠ 0
  · rw [if_pos h0]
    obtain ⟨m1, hm1, s1, i1⟩ := h.link (mem_masterSet.mpr ⟨rfl, h0⟩)
    rw [masterSet_eq rfl h0, Finset.erase_singleton] at i1
    rw [hm1]
    refine ⟨_, _, rfl, i1.withMaster _ _ 0 0, rfl, rfl, ⟨s1.nPool, s1.alarmBusy, s1.keeps⟩, ?_⟩
    have hi : (laid m C U sz fl).iMaster ≠ 0 := h0
    obtain ⟨hC, hU⟩ := h.iMaster_mem h0
    rw [Layout.linkMaster, if_pos hi]
    exact Layout.ext rfl (laid_link hC hU).symm rfl rfl
  · rw [if_neg h0]
    have h0' := not_not.mp h0
    have hs := h.master
    have hinv := h.toInv
    rw [masterSet_zero h0'] at hinv
    rw [if_pos h0'] at hs
    exact ⟨m, fl, rfl, hinv, h0', hs, Rest.refl U sz m, (if_neg (not_not.mpr h0')).symm⟩

theorem outOfMemory_nil (hq : m.alarmBusy = false) : memsys3OutOfMemory m [] = some m := by
  have hbusy : ¬ m.alarmBusy = true := by
    rw [hq]
    exact Bool.false_ne_true
  rw [memsys3OutOfMemory, if_neg hbusy, ← hq]
  rfl

/-- The largest free chunk of a round becomes the master. -/
theorem Merging.unlinkMaster {sz₀ : ℕ → ℕ} (h : Merging sz₀ [] [] m C U sz fl) (h0 : m.szMaster ≠ 0) :
    ∃ m' fl', memsys3Unlink m m.iMaster = some m' ∧ Good m' C U sz fl' ∧ Same U sz m m' ∧
      laid m' C U sz fl' = (laid m C U sz fl).unlinkMaster := by
  have hi : m.iMaster ≠ 0 := fun hc => h0 (h.candidate.none hc)
  obtain ⟨hC, hU, hs⟩ := h.candidate.some hi
  obtain ⟨m1, hm1, s1, i1⟩ := h.inv.unlink hC hU (Finset.notMem_empty _)
  have hlaid : laid m1 C U sz (Function.update fl (rootOf (sz m.iMaster))
      ((fl (rootOf (sz m.iMaster))).erase m.iMaster)) = (laid m C U sz fl).unlinkMaster := by
    have h0' : (laid m C U sz fl).szMaster ≠ 0 := h0
    rw [Layout.unlinkMaster, if_pos h0']
    exact Layout.ext rfl (laid_unlink hC hU).symm s1.iMaster s1.szMaster
  generalize Function.update fl (rootOf (sz m.iMaster)) _ = fl1 at i1 hlaid
  refine ⟨m1, fl1, hm1, ⟨?_, ?_⟩, s1, hlaid⟩
  · rw [masterSet_eq s1.iMaster hi]
    exact i1
  · rw [s1.iMaster, s1.szMaster, if_neg hi]
    exact hs

/-- A round without releases. -/
theorem Good.coalesce (h : Good m C U sz fl) (hq : m.alarmBusy = false) (hk : 2 ≤ nBlock) :
    ∃ m' C' sz' fl' o, coalesce m nBlock [] = some (m', o) ∧
      ((∃ p, o = some p ∧ Good m' C' (insert p U) sz' fl' ∧ p ∉ U ∧ nBlock ≤ sz' p ∧
          Kept U sz sz' m m' ∧ nBlock ≤ ((laid m C U sz fl).round m.nPool).szMaster) ∨
        o = none ∧ Good m' C' U sz' fl' ∧ m'.szMaster < nBlock ∧ Kept U sz sz' m m' ∧
          Round C U sz C' sz' m' ∧ laid m' C' U sz' fl' = (laid m C U sz fl).round m.nPool) := by
  obtain ⟨m1, fl1, hm1, i1, hi1, hs1, r1, l1⟩ := h.linkMaster
  have hstart : Merging sz [] roots m1 C U sz fl1 := by
    refine ⟨i1, ⟨fun _ => hs1, fun hc => absurd hi1 hc⟩, fun _ _ => le_rfl, fun j hj _ => ?_⟩
    exact .inr (.inl (rootOf_mem (i1.core.bound hj).2))
  obtain ⟨m2, C2, sz2, fl2, hm2, h2, k2, c2, l2⟩ := hstart.all roots
  have hround : (laid m C U sz fl).round m.nPool = (laid m2 C2 U sz2 fl2).unlinkMaster := by
    rw [l2, l1, r1.nPool]
    rfl
  have hk2 : Kept U sz sz2 m m2 := (⟨r1, fun _ _ => rfl⟩ : Kept U sz sz m m1).trans k2
  have hseen : ∀ j ∈ C2, j ∉ U → Seen m2 U sz2 (sz j) j := by
    intro j hj hjU
    rcases h2.seen j hj hjU with hc | hc | hc
    · exact absurd hc List.not_mem_nil
    · exact absurd hc List.not_mem_nil
    · exact hc
  unfold Mem3.coalesce
  rw [outOfMemory_nil hq]
  dsimp only
  rw [hm1]
  dsimp only
  rw [hm2]
  dsimp only
  by_cases h0 : m2.szMaster ≠ 0
  · rw [if_pos h0]
    obtain ⟨m3, fl3, hm3, g3, s3, l3⟩ := h2.unlinkMaster h0
    rw [← l3] at hround
    have hk3 : Kept U sz sz2 m m3 := hk2.trans (s3.kept fun _ _ => rfl)
    rw [hm3]
    dsimp only
    by_cases hle : nBlock ≤ m3.szMaster
    · rw [if_pos hle]
      obtain ⟨m4, p, C4, sz4, hm4, g4, hp, hsize, k4⟩ := g3.fromMaster hk hle
      rw [hm4]
      refine ⟨m4, C4, sz4, fl3, some p, rfl, .inl ⟨p, rfl, g4, hp, hsize, hk3.trans k4, ?_⟩⟩
      rw [hround]
      exact hle
    · rw [if_neg hle]
      refine ⟨m3, C2, sz2, fl3, none, rfl, .inr ⟨rfl, g3, Nat.not_le.mp hle, hk3, ⟨c2, h2.grow, ?_⟩,
        hround.symm⟩⟩
      intro j hj hjU
      exact (hseen j hj hjU).mono s3.szMaster.ge (fun _ _ => rfl) rfl
  · rw [if_neg h0]
    have hs := not_not.mp h0
    have hi : m2.iMaster = 0 := by
      by_contra hc
      obtain ⟨g1, -, g3⟩ := h2.candidate.some hc
      have := (h2.inv.core.bound g1).2
      omega
    refine ⟨m2, C2, sz2, fl2, none, rfl, .inr ⟨rfl, ⟨?_, ?_⟩, by omega, hk2, ⟨c2, h2.grow, hseen⟩,
      (hround.trans (if_neg (not_not.mpr hs))).symm⟩⟩
    · rw [masterSet_zero hi]
      exact h2.inv
    · rw [if_pos hi]
      exact hs

/-- The releases of a round come first. -/
theorem coalesce_releases {m₁ : Mem3Global} (hm : memsys3OutOfMemory m ps = some m₁)
    (hq : m₁.alarmBusy = false) : coalesce m nBlock ps = coalesce m₁ nBlock [] := by
  unfold coalesce
  rw [hm, outOfMemory_nil hq]

end

variable {m m' : Mem3Global} {n i j p k nBlock toFree : ℕ} {nByte : ℤ} {C U M : Finset ℕ} {sz : ℕ → ℕ}
  {fl : Root → List ℕ} {r : Root} {vis rest : List ℕ} {released : List (List ℕ)}

/-- The chunks in use that are not released. -/
def left (U : Finset ℕ) (released : List (List ℕ)) : Finset ℕ := U \ released.flatten.toFinset

/-- A result: a chunk of at least `nBlock` blocks is checked out, or nothing is. -/
def Outcome (m : Mem3Global) (V : Finset ℕ) (sz : ℕ → ℕ) (nBlock : ℕ) : Result → Prop
  | .unfinished => True
  | .null m' => ∃ C' sz' fl', Good m' C' V sz' fl' ∧ Kept V sz sz' m m'
  | .pointer m' p => p ∉ V ∧
      ∃ C' sz' fl', Good m' C' (insert p V) sz' fl' ∧ nBlock ≤ sz' p ∧ Kept V sz sz' m m'

theorem usedUp_nil (r : Result) : usedUp [] r = r := if_pos rfl

theorem usedUp_cons (ps : List ℕ) (r : Result) : usedUp (ps :: released) r = .unfinished :=
  if_neg (List.cons_ne_nil ps released)

theorem left_nil (U : Finset ℕ) : left U [] = U := by
  rw [left, List.flatten_nil, List.toFinset_nil, Finset.sdiff_empty]

theorem left_cons (U : Finset ℕ) (ps : List ℕ) :
    left U (ps :: released) = left (U \ ps.toFinset) released := by
  rw [left, left, List.flatten_cons, List.toFinset_append]
  exact sdiff_sdiff_left.symm

theorem Releases.head {ps : List ℕ} (h : Releases U (ps :: released).flatten) : Releases U ps := by
  rw [List.flatten_cons] at h
  exact ⟨(List.nodup_append.mp h.1).1, fun p hp => h.2 p (List.mem_append_left _ hp)⟩

theorem Releases.tail {ps : List ℕ} (h : Releases U (ps :: released).flatten) :
    Releases (U \ ps.toFinset) released.flatten := by
  rw [List.flatten_cons] at h
  obtain ⟨-, hnd, hdisj⟩ := List.nodup_append.mp h.1
  refine ⟨hnd, fun p hp => Finset.mem_sdiff.mpr ⟨h.2 p (List.mem_append_right _ hp), fun hc => ?_⟩⟩
  exact hdisj p (List.mem_toFinset.mp hc) p hp rfl

/-- One round with its releases. -/
theorem Good.round (h : Good m C U sz fl) (hq : m.alarmBusy = false) (hk : 2 ≤ nBlock) {ps : List ℕ}
    (hps : Releases U ps) :
    ∃ m' C' sz' fl' o, Mem3.coalesce m nBlock ps = some (m', o) ∧ m'.alarmBusy = false ∧
      Kept (U \ ps.toFinset) sz sz' m m' ∧
      ((∃ p, o = some p ∧ Good m' C' (insert p (U \ ps.toFinset)) sz' fl' ∧ p ∉ U \ ps.toFinset ∧
          nBlock ≤ sz' p) ∨
        o = none ∧ Good m' C' (U \ ps.toFinset) sz' fl') := by
  obtain ⟨m1, C1, sz1, fl1, hm1, g1, q1, k1, -⟩ := h.outOfMemory hq hps
  obtain ⟨m2, C2, sz2, fl2, o, hm2, hout⟩ := g1.coalesce q1 hk
  rw [← coalesce_releases hm1 q1] at hm2
  obtain ⟨p, ho, g2, hp, hsize, k2, -⟩ | ⟨ho, g2, -, k2, -⟩ := hout
  · exact ⟨m2, C2, sz2, fl2, o, hm2, k2.alarmBusy.trans q1, k1.trans k2, .inl ⟨p, ho, g2, hp, hsize⟩⟩
  · exact ⟨m2, C2, sz2, fl2, o, hm2, k2.alarmBusy.trans q1, k1.trans k2, .inr ⟨ho, g2⟩⟩

theorem Outcome.trans {V : Finset ℕ} {sz₁ : ℕ → ℕ} {m₁ : Mem3Global} {r : Result}
    (h : Outcome m₁ V sz₁ nBlock r) (hk : Kept V sz sz₁ m m₁) : Outcome m V sz nBlock r := by
  cases r with
  | unfinished => trivial
  | null m' =>
    obtain ⟨C', sz', fl', g, k⟩ := h
    exact ⟨C', sz', fl', g, hk.trans k⟩
  | pointer m' p =>
    obtain ⟨hp, C', sz', fl', g, hs, k⟩ := h
    exact ⟨hp, C', sz', fl', g, hs, hk.trans k⟩

theorem Good.coalesceLoop (released : List (List ℕ)) (h : Good m C U sz fl) (hq : m.alarmBusy = false)
    (hk : 2 ≤ nBlock) (hr : Releases U released.flatten) (toFree : ℕ) :
    ∃ r, coalesceLoop nBlock released toFree m = some r ∧ Outcome m (left U released) sz nBlock r := by
  induction released generalizing m C U sz fl toFree with
  | nil =>
    rw [Mem3.coalesceLoop]
    split
    · exact ⟨_, rfl, trivial⟩
    · refine ⟨_, rfl, ?_⟩
      rw [usedUp_nil, left_nil]
      exact ⟨C, sz, fl, h, Kept.refl U sz m⟩
  | cons ps released ih =>
    rw [Mem3.coalesceLoop]
    split
    · obtain ⟨m1, C1, sz1, fl1, o, hm1, q1, k1, hout⟩ := h.round hq hk hr.head
      have hsub : left U (ps :: released) ⊆ U \ ps.toFinset := by
        rw [left_cons]
        exact Finset.sdiff_subset
      rw [hm1]
      obtain ⟨p, rfl, g1, hp, hs⟩ | ⟨rfl, g1⟩ := hout
      · dsimp only
        refine ⟨_, rfl, ?_⟩
        cases released with
        | nil =>
          rw [usedUp_nil, left_cons, left_nil]
          exact ⟨hp, C1, sz1, fl1, g1, hs, k1⟩
        | cons ps' released =>
          rw [usedUp_cons]
          trivial
      · dsimp only
        obtain ⟨r, hgo, hr'⟩ := ih g1 q1 hr.tail (toFree * 2 % 4294967296)
        rw [← left_cons] at hr'
        exact ⟨r, hgo, hr'.trans (k1.mono hsub)⟩
    · exact ⟨_, rfl, by rw [usedUp_cons]; trivial⟩

/-! The first two steps. -/

theorem Inv.findSize (n : ℕ) (h : Inv m C U M sz fl) (hr : fl r = vis ++ rest) (hn : rest.length ≤ n)
    (hi : toPtr i = rest.head?) : ∃ j, findSize m nBlock n i = some j ∧
      (j = 0 ∧ (∀ y ∈ rest, sz y ≠ nBlock) ∨ j ≠ 0 ∧ j ∈ rest ∧ sz j = nBlock) := by
  induction n generalizing vis rest i with
  | zero =>
    obtain rfl := List.eq_nil_of_length_eq_zero (Nat.le_zero.mp hn)
    obtain rfl := toPtr_eq_none.mp hi
    exact ⟨0, by rw [Mem3.findSize], .inl ⟨rfl, fun y hy => absurd hy List.not_mem_nil⟩⟩
  | succ n ih =>
    cases rest with
    | nil =>
      obtain rfl := toPtr_eq_none.mp hi
      exact ⟨0, by rw [Mem3.findSize], .inl ⟨rfl, fun y hy => absurd hy List.not_mem_nil⟩⟩
    | cons y rest =>
      obtain ⟨rfl, h0⟩ := toPtr_eq_some.mp hi
      have hmem : i ∈ fl r := by rw [hr]; simp
      obtain ⟨⟨hC, -, -⟩, -⟩ := (h.lists.mem r i).mp hmem
      have hstep : Mem3.findSize m nBlock (n + 1) i =
          if size4x m (i - 1) / 4 = nBlock then some i else Mem3.findSize m nBlock n (next m i) := by
        cases i with
        | zero => exact absurd rfl h0
        | succ i => rfl
      rw [hstep, h.core.size i hC]
      split
      · rename_i hs
        exact ⟨i, rfl, .inr ⟨h0, List.mem_cons_self, hs⟩⟩
      · rename_i hs
        have hlinks := h.lists.links r
        rw [hr] at hlinks
        have hr' : fl r = (vis ++ [i]) ++ rest := by
          rw [hr, List.append_assoc]
          rfl
        obtain ⟨j, hj, hcase⟩ := ih hr' (Nat.le_of_succ_le_succ hn) hlinks.next_of_append
        refine ⟨j, hj, hcase.imp ?_ ?_⟩
        · rintro ⟨h1, h2⟩
          exact ⟨h1, List.forall_mem_cons.mpr ⟨hs, h2⟩⟩
        · rintro ⟨h1, h2, h3⟩
          exact ⟨h1, List.mem_cons_of_mem _ h2, h3⟩

theorem rootOf_small {s : ℕ} (hs : 2 ≤ s) (hk : 2 ≤ k) (hle : k ≤ MX_SMALL)
    (h : rootOf s = rootOf k) : s = k := by
  unfold rootOf at h
  rw [if_pos hle] at h
  split at h
  · have heq : s - 2 = k - 2 := by injection h
    omega
  · cases h

/-- The search of the first step finds a chunk of the size, when one is on the lists. -/
theorem Good.find (h : Good m C U sz fl) (hk : 2 ≤ nBlock) :
    ∃ i, (if nBlock ≤ MX_SMALL then some (m.root (rootOf nBlock))
        else Mem3.findSize m nBlock m.nPool (m.root (rootOf nBlock))) = some i ∧
      (i = 0 ∧ (∀ j, Listed C U (masterSet m) j → sz j ≠ nBlock) ∨
        i ≠ 0 ∧ i ∈ fl (rootOf nBlock) ∧ sz i = nBlock) := by
  have hhead := h.lists.head (rootOf nBlock)
  have hlisted {j : ℕ} (hj : Listed C U (masterSet m) j) (hs : sz j = nBlock) :
      j ∈ fl (rootOf nBlock) :=
    (h.lists.mem _ j).mpr ⟨hj, by rw [hs]⟩
  split
  · rename_i hle
    refine ⟨_, rfl, ?_⟩
    by_cases h0 : m.root (rootOf nBlock) = 0
    · refine .inl ⟨h0, fun j hj hs => ?_⟩
      rw [h0, toPtr_zero] at hhead
      have hnil : fl (rootOf nBlock) = [] := List.head?_eq_none_iff.mp hhead.symm
      have hmem := hlisted hj hs
      rw [hnil] at hmem
      exact absurd hmem List.not_mem_nil
    · have hmem : m.root (rootOf nBlock) ∈ fl (rootOf nBlock) := by
        apply List.mem_of_head?
        rw [← hhead, toPtr_of_ne h0]
      obtain ⟨⟨hC, -⟩, hroot⟩ := (h.lists.mem _ _).mp hmem
      exact .inr ⟨h0, hmem, rootOf_small (h.core.bound hC).2 hk hle hroot⟩
  · have hnil : fl (rootOf nBlock) = [] ++ fl (rootOf nBlock) := rfl
    obtain ⟨i, hi, hcase⟩ := h.findSize m.nPool hnil (h.list_le _) hhead
    refine ⟨i, hi, hcase.imp_left ?_⟩
    rintro ⟨h0, hnone⟩
    exact ⟨h0, fun j hj hs => hnone j (hlisted hj hs) hs⟩

/-- The first two steps serve the request, or the third one has to. -/
theorem Good.mallocUnsafe_steps (h : Good m C U sz fl) (hk : 2 ≤ blocksFor nByte) :
    (∃ m' p C' sz' fl', Good m' C' (insert p U) sz' fl' ∧ p ∉ U ∧ blocksFor nByte ≤ sz' p ∧
      Kept U sz sz' m m' ∧
      ((∃ i, Listed C U (masterSet m) i ∧ sz i = blocksFor nByte) ∨ blocksFor nByte ≤ m.szMaster) ∧
      ∀ released, memsys3MallocUnsafe m nByte released = some (usedUp released (.pointer m' p))) ∨
    (∀ j, Listed C U (masterSet m) j → sz j ≠ blocksFor nByte) ∧ m.szMaster < blocksFor nByte ∧
      ∀ released, memsys3MallocUnsafe m nByte released =
        Mem3.coalesceLoop (blocksFor nByte) released (blocksFor nByte * 16 % 4294967296) m := by
  obtain ⟨i, hi, ⟨h0, hnone⟩ | ⟨h0, hmem, hs⟩⟩ := h.find hk
  · by_cases hle : blocksFor nByte ≤ m.szMaster
    · obtain ⟨m', p, C', sz', hm', g, hp, hsize, k⟩ := h.fromMaster hk hle
      refine .inl ⟨m', p, C', sz', fl, g, hp, hsize, k, .inr hle, fun released => ?_⟩
      unfold memsys3MallocUnsafe
      dsimp only
      rw [if_neg (Nat.not_lt.mpr hk), hi]
      dsimp only
      rw [if_neg (not_not.mpr h0), if_pos hle, hm']
      rfl
    · refine .inr ⟨hnone, Nat.not_le.mp hle, fun released => ?_⟩
      unfold memsys3MallocUnsafe
      dsimp only
      rw [if_neg (Nat.not_lt.mpr hk), hi]
      dsimp only
      rw [if_neg (not_not.mpr h0), if_neg hle]
  · obtain ⟨⟨hC, hU, hM⟩, -⟩ := (h.lists.mem _ i).mp hmem
    obtain ⟨i1, s1⟩ := h.unlinkFromList hmem
    obtain ⟨m', hm', s2, i2⟩ := i1.checkout (Finset.mem_insert_self i _)
    rw [Finset.erase_insert hM] at i2
    have hsame := s1.trans s2
    have hset : masterSet m' = masterSet m := by
      unfold masterSet
      rw [hsame.iMaster]
    rw [← hset] at i2
    refine .inl ⟨m', i, C, sz, _, ⟨i2, ?_⟩, hU, hs.ge, hsame.kept fun _ _ => rfl,
      .inl ⟨i, ⟨hC, hU, hM⟩, hs⟩, fun released => ?_⟩
    · rw [hsame.iMaster, hsame.szMaster]
      exact h.master
    · unfold memsys3MallocUnsafe
      dsimp only
      rw [if_neg (Nat.not_lt.mpr hk), hi]
      dsimp only
      rw [hs] at hm'
      rw [if_pos h0, hm']
      rfl

/-- A request that is an `int` with the 11 bytes that are added to it. -/
def Request (nByte : ℤ) : Prop := 0 < nByte ∧ nByte ≤ 2147483636

theorem Request.blocks (h : Request nByte) :
    2 ≤ blocksFor nByte ∧ nByte + 4 ≤ 8 * blocksFor nByte ∧ blocksFor nByte < 268435456 := by
  obtain ⟨h0, h1⟩ := h
  unfold blocksFor
  split
  · omega
  · have hi : i32 (nByte + 11) = nByte + 11 := by
      unfold i32
      omega
    rw [hi, Int.tdiv_eq_ediv_of_nonneg (by omega)]
    omega

theorem Good.mallocUnsafe (h : Good m C U sz fl) (hq : m.alarmBusy = false) (hb : Request nByte)
    (hr : Releases U released.flatten) : ∃ r, memsys3MallocUnsafe m nByte released = some r ∧
      Outcome m (left U released) sz (blocksFor nByte) r := by
  obtain ⟨m', p, C', sz', fl', g, hp, hs, k, -, hgo⟩ | ⟨-, -, hgo⟩ := h.mallocUnsafe_steps hb.blocks.1
  · refine ⟨_, hgo released, ?_⟩
    cases released with
    | nil =>
      rw [usedUp_nil, left_nil]
      exact ⟨hp, C', sz', fl', g, hs, k⟩
    | cons ps released =>
      rw [usedUp_cons]
      trivial
  · rw [hgo]
    exact h.coalesceLoop released hq hb.blocks.1 hr _

end Sqlite.Mem3

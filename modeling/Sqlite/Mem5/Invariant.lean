import Sqlite.Foundation.Dyadic
import Sqlite.Mem5.Freelist

/-! The buddy invariant. Every block is free, live, or held by the operation in progress; the
three kinds together tile the pool. -/
namespace Sqlite.Mem5
open Foundation

/-- The control byte of a free block. -/
def freeCtrl (k : ℕ) : UInt8 := CTRL_FREE ||| .ofNat k

theorem freeCtrl_inj : ∀ j < 32, ∀ k < 32, freeCtrl j = freeCtrl k → j = k := by decide

theorem ofNat_ne_freeCtrl : ∀ j < 32, ∀ k < 32, UInt8.ofNat j ≠ freeCtrl k := by decide

theorem logsize_ofNat : ∀ k < 32, (UInt8.ofNat k &&& CTRL_LOGSIZE).toNat = k := by decide

theorem ofNat_or_free : ∀ k < 32, UInt8.ofNat k ||| CTRL_FREE = freeCtrl k := by decide

/-- The blocks on the freelists. -/
def FreeSet (L : ℕ → List ℕ) : Set (ℕ × ℕ) := {b | b.2 ≤ LOGMAX ∧ b.1 ∈ L b.2}

theorem mem_freeSet {L : ℕ → List ℕ} {i k : ℕ} : (i, k) ∈ FreeSet L ↔ k ≤ LOGMAX ∧ i ∈ L k :=
  Iff.rfl

/-- `L` lists the free blocks of each size, `V` is the set of live blocks and `H` holds what an
operation has taken off the lists and not yet put back. -/
structure Core (m : Mem5Global) (L : ℕ → List ℕ) (V H : Set (ℕ × ℕ)) : Prop where
  atom : 8 ≤ m.szAtom
  small : m.nBlock < 268435456
  lists : ∀ k ≤ LOGMAX, FreelistIs m k (L k)
  free_ctrl : ∀ k ≤ LOGMAX, ∀ i ∈ L k, m.aCtrl i = freeCtrl k
  live_ctrl : ∀ b ∈ V, b.2 ≤ LOGMAX ∧ m.aCtrl b.1 = .ofNat b.2
  apart : ∀ b ∈ H, b ∉ FreeSet L ∧ b ∉ V
  tiling : Tiling m.nBlock (FreeSet L ∪ V ∪ H)
  coalesced : ∀ k ≤ LOGMAX, ∀ i ∈ L k, buddy i k ∉ L k

namespace Core
variable {m : Mem5Global} {L : ℕ → List ℕ} {V H : Set (ℕ × ℕ)} {i k : ℕ}

theorem lists_disjoint (h : Core m L V H) {j : ℕ} (hj : j ≤ LOGMAX) (hk : k ≤ LOGMAX)
    (hne : j ≠ k) {x : ℕ} (hx : x ∈ L j) : x ∉ L k := by
  intro hx'
  have he := (h.free_ctrl j hj x hx).symm.trans (h.free_ctrl k hk x hx')
  unfold LOGMAX at hj hk
  exact hne (freeCtrl_inj j (by omega) k (by omega) he)

theorem live_not_free (h : Core m L V H) {b : ℕ × ℕ} (hb : b ∈ V) : b ∉ FreeSet L := by
  rintro ⟨hk, hi⟩
  obtain ⟨-, hc⟩ := h.live_ctrl b hb
  unfold LOGMAX at hk
  exact ofNat_ne_freeCtrl b.2 (by omega) b.2 (by omega) (hc.symm.trans (h.free_ctrl _ hk _ hi))

theorem free_mem (hk : k ≤ LOGMAX) (hi : i ∈ L k) : (i, k) ∈ FreeSet L ∪ V ∪ H :=
  Or.inl (Or.inl ⟨hk, hi⟩)

theorem index_lt (h : Core m L V H) {b : ℕ × ℕ} (hb : b ∈ FreeSet L ∪ V ∪ H) :
    b.1 < 268435456 := by
  have h1 := h.tiling.inside b hb
  have h2 := Nat.two_pow_pos b.2
  have h3 := h.small
  omega

/-- The logarithm of a block's size is far below `LOGMAX`. -/
theorem log_lt (h : Core m L V H) {b : ℕ × ℕ} (hb : b ∈ FreeSet L ∪ V ∪ H) : b.2 < 28 := by
  have h1 := h.tiling.inside b hb
  have h3 := h.small
  by_contra hlt
  have h2 : 2 ^ 28 ≤ 2 ^ b.2 := Nat.pow_le_pow_right (by omega) (by omega)
  omega

/-- Taking a free block off its list. -/
theorem unlink (h : Core m L V H) (hk : k ≤ LOGMAX) (hi : i ∈ L k) :
    Core (memsys5Unlink m i k) (Function.update L k ((L k).erase i)) V (insert (i, k) H) := by
  have hl := h.lists k hk
  have ht := memsys5Unlink_touches h.atom hl hi
  have hsub : ∀ j x, x ∈ Function.update L k ((L k).erase i) j → x ∈ L j := by
    intro j x hx
    by_cases hj : j = k
    · subst hj
      rw [Function.update_self] at hx
      exact List.mem_of_mem_erase hx
    · rwa [Function.update_of_ne hj] at hx
  have hset : ∀ b, b ∈ FreeSet (Function.update L k ((L k).erase i)) ↔
      b ∈ FreeSet L ∧ b ≠ (i, k) := by
    rintro ⟨x, j⟩
    simp only [mem_freeSet, ne_eq, Prod.mk.injEq, not_and]
    by_cases hj : j = k
    · subst hj
      rw [Function.update_self, hl.nodup.mem_erase_iff]
      tauto
    · rw [Function.update_of_ne hj]
      tauto
  refine ⟨ht.szAtom ▸ h.atom, ht.nBlock ▸ h.small, fun j hj => ?_, fun j hj x hx => ?_,
    fun b hb => ?_, fun b hb => ?_, ?_, fun j hj x hx hx' => ?_⟩
  · by_cases hjk : j = k
    · subst hjk
      rw [Function.update_self]
      exact hl.unlink h.atom hi
    · rw [Function.update_of_ne hjk]
      exact hl.unlink_other h.atom hi (h.lists j hj) hjk
        (fun x hx => h.lists_disjoint hk hj (Ne.symm hjk) hx)
  · rw [memsys5Unlink_aCtrl]
    exact h.free_ctrl j hj x (hsub j x hx)
  · rw [memsys5Unlink_aCtrl]
    exact h.live_ctrl b hb
  · rcases hb with rfl | hb
    · exact ⟨fun e => ((hset _).mp e).2 rfl, fun e => h.live_not_free e ⟨hk, hi⟩⟩
    · exact ⟨fun e => (h.apart b hb).1 ((hset b).mp e).1, (h.apart b hb).2⟩
  · have he : FreeSet (Function.update L k ((L k).erase i)) ∪ V ∪ insert (i, k) H =
        FreeSet L ∪ V ∪ H := by
      ext b
      have hfree : b = (i, k) → b ∈ FreeSet L := fun e => e ▸ ⟨hk, hi⟩
      simp only [Set.mem_union, hset, Set.mem_insert_iff]
      tauto
    rw [he, ht.nBlock]
    exact h.tiling
  · exact h.coalesced j hj x (hsub j x hx) (hsub j _ hx')

/-- Putting a held block on the list of its size, when its buddy is not there. -/
theorem link (h : Core m L V H) (hk : k ≤ LOGMAX) (hH : (i, k) ∈ H) (hc : m.aCtrl i = freeCtrl k)
    (hb : buddy i k ∉ L k) :
    Core (memsys5Link m i k) (Function.update L k (i :: L k)) V (H \ {(i, k)}) := by
  have hl := h.lists k hk
  have ht := memsys5Link_touches (i := i) h.atom hl
  have hiB : (i, k) ∈ FreeSet L ∪ V ∪ H := Or.inr hH
  have hi := h.index_lt hiB
  have hnot : ∀ j ≤ LOGMAX, i ∉ L j := by
    intro j hj hx
    have he : j = k := h.tiling.start_inj (free_mem hj hx) hiB
    exact (h.apart _ hH).1 ⟨hk, he ▸ hx⟩
  have hset : ∀ b, b ∈ FreeSet (Function.update L k (i :: L k)) ↔ b ∈ FreeSet L ∨ b = (i, k) := by
    rintro ⟨x, j⟩
    simp only [mem_freeSet, Prod.mk.injEq]
    by_cases hj : j = k
    · subst hj
      rw [Function.update_self, List.mem_cons]
      tauto
    · rw [Function.update_of_ne hj]
      tauto
  refine ⟨ht.szAtom ▸ h.atom, ht.nBlock ▸ h.small, fun j hj => ?_, fun j hj x hx => ?_,
    fun b hb => ?_, fun b hb => ?_, ?_, fun j hj x hx hx' => ?_⟩
  · by_cases hjk : j = k
    · subst hjk
      rw [Function.update_self]
      exact hl.link h.atom (by omega) (hnot j hj)
    · rw [Function.update_of_ne hjk]
      exact hl.link_other h.atom (by omega) (h.lists j hj) hjk (hnot j hj)
        (fun x hx => h.lists_disjoint hk hj (Ne.symm hjk) hx)
  · rw [memsys5Link_aCtrl]
    rcases (hset (x, j)).mp ⟨hj, hx⟩ with hx | he
    · exact h.free_ctrl j hj x hx.2
    · obtain ⟨rfl, rfl⟩ := Prod.mk.inj he
      exact hc
  · rw [memsys5Link_aCtrl]
    exact h.live_ctrl b hb
  · refine ⟨fun e => ?_, (h.apart b hb.1).2⟩
    rcases (hset b).mp e with e | e
    · exact (h.apart b hb.1).1 e
    · exact hb.2 e
  · have he : FreeSet (Function.update L k (i :: L k)) ∪ V ∪ (H \ {(i, k)}) =
        FreeSet L ∪ V ∪ H := by
      ext b
      have hheld : b = (i, k) → b ∈ H := fun e => e ▸ hH
      simp only [Set.mem_union, hset, Set.mem_sdiff, Set.mem_singleton_iff]
      tauto
    rw [he, ht.nBlock]
    exact h.tiling
  · rcases (hset (x, j)).mp ⟨hj, hx⟩ with hold | he
    · rcases (hset (buddy x j, j)).mp ⟨hj, hx'⟩ with hold' | he'
      · exact h.coalesced j hj x hold.2 hold'.2
      · obtain ⟨hbi, hjk⟩ := Prod.mk.inj he'
        have hal := h.tiling.aligned _ (Or.inl (Or.inl hold))
        have hxi : buddy i k = x := by rw [← hbi, ← hjk]; exact buddy_buddy hal
        exact hb (by rw [hxi, ← hjk]; exact hold.2)
    · obtain ⟨rfl, rfl⟩ := Prod.mk.inj he
      rcases (hset (buddy x j, j)).mp ⟨hj, hx'⟩ with hold' | he'
      · exact hb hold'.2
      · exact buddy_ne x j (Prod.mk.inj he').1

/-- A control byte that no block starts at is free to change. -/
theorem setCtrl (h : Core m L V H) {x : ℕ} (hx : ∀ j, (x, j) ∉ FreeSet L ∧ (x, j) ∉ V) (c : UInt8) :
    Core (m.setCtrl x c) L V H := by
  have hne : ∀ b : ℕ × ℕ, (b ∈ FreeSet L ∨ b ∈ V) → Function.update m.aCtrl x c b.1 = m.aCtrl b.1 := by
    rintro ⟨y, j⟩ hb
    refine Function.update_of_ne ?_ _ _
    rintro rfl
    rcases hb with hb | hb
    · exact (hx j).1 hb
    · exact (hx j).2 hb
  refine ⟨h.atom, h.small, fun j hj => ?_, fun j hj y hy => ?_, fun b hb => ?_, h.apart, h.tiling,
    h.coalesced⟩
  · have hl := h.lists j hj
    exact ⟨hl.isInt, hl.head, hl.links, hl.nodup⟩
  · exact (hne (y, j) (Or.inl ⟨hj, hy⟩)).trans (h.free_ctrl j hj y hy)
  · exact ⟨(h.live_ctrl b hb).1, (hne b (Or.inr hb)).trans (h.live_ctrl b hb).2⟩

/-- No free or live block starts inside a held block. -/
theorem held_start (h : Core m L V H) {b : ℕ × ℕ} (hb : b ∈ H) {x : ℕ} (hx : x ∈ span b) (j : ℕ) :
    (x, j) ∉ FreeSet L ∧ (x, j) ∉ V := by
  have hstart := Tiling.start_mem_span (x, j)
  constructor
  · intro hm
    have he := h.tiling.unique _ (Or.inr hb) _ (Or.inl (Or.inl hm)) x hx hstart
    exact (h.apart b hb).1 (he ▸ hm)
  · intro hm
    have he := h.tiling.unique _ (Or.inr hb) _ (Or.inl (Or.inr hm)) x hx hstart
    exact (h.apart b hb).2 (he ▸ hm)

/-- Regrouping the held blocks into another tiling of the same atoms. -/
theorem rehold (h : Core m L V H) {H' : Set (ℕ × ℕ)} (hT : Tiling m.nBlock (FreeSet L ∪ V ∪ H'))
    (ha : ∀ b ∈ H', b ∉ FreeSet L ∧ b ∉ V) : Core m L V H' :=
  ⟨h.atom, h.small, h.lists, h.free_ctrl, h.live_ctrl, ha, hT, h.coalesced⟩

theorem split (h : Core m L V {(i, k + 1)}) : Core m L V {(i, k), (i + 2 ^ k, k)} := by
  have hp := Nat.two_pow_pos k
  have hin : ∀ x, x = i ∨ x = i + 2 ^ k → x ∈ span (i, k + 1) := by
    intro x hx
    rw [mem_span, pow_succ]
    dsimp only
    omega
  have ha : ∀ b ∈ ({(i, k), (i + 2 ^ k, k)} : Set (ℕ × ℕ)), b ∉ FreeSet L ∧ b ∉ V := by
    rintro b (rfl | rfl)
    · exact h.held_start rfl (hin i (Or.inl rfl)) k
    · exact h.held_start rfl (hin (i + 2 ^ k) (Or.inr rfl)) k
  refine h.rehold (h.tiling.split (Or.inr rfl) (fun b => ?_)) ha
  have hne : b ∈ FreeSet L ∪ V → b ≠ (i, k + 1) := by
    rintro (hb | hb) rfl
    · exact (h.apart _ rfl).1 hb
    · exact (h.apart _ rfl).2 hb
  simp only [Set.mem_union, Set.mem_insert_iff, Set.mem_singleton_iff] at hne ⊢
  tauto

theorem merge {q : ℕ} (h : Core m L V {(q, k), (q + 2 ^ k, k)}) (hq : 2 ^ (k + 1) ∣ q) :
    Core m L V {(q, k + 1)} := by
  have ha : ∀ b ∈ ({(q, k + 1)} : Set (ℕ × ℕ)), b ∉ FreeSet L ∧ b ∉ V := by
    rintro b rfl
    exact h.held_start (Or.inl rfl) (Tiling.start_mem_span (q, k)) (k + 1)
  refine h.rehold (h.tiling.merge hq (Or.inr (Or.inl rfl)) (Or.inr (Or.inr rfl)) (fun b => ?_)) ha
  have hne : b ∈ FreeSet L ∪ V → b ≠ (q, k) ∧ b ≠ (q + 2 ^ k, k) := by
    rintro (hb | hb)
    · exact ⟨fun e => (h.apart _ (Or.inl rfl)).1 (e ▸ hb), fun e => (h.apart _ (Or.inr rfl)).1 (e ▸ hb)⟩
    · exact ⟨fun e => (h.apart _ (Or.inl rfl)).2 (e ▸ hb), fun e => (h.apart _ (Or.inr rfl)).2 (e ▸ hb)⟩
  simp only [Set.mem_union, Set.mem_insert_iff, Set.mem_singleton_iff] at hne ⊢
  tauto

/-- Handing the held block to the client. -/
theorem grant (h : Core m L V {(i, k)}) (hk : k ≤ LOGMAX) (hc : m.aCtrl i = .ofNat k) :
    Core m L (insert (i, k) V) ∅ := by
  have he : FreeSet L ∪ insert (i, k) V ∪ ∅ = FreeSet L ∪ V ∪ {(i, k)} := by
    ext b
    simp only [Set.mem_union, Set.mem_insert_iff, Set.mem_singleton_iff, Set.mem_empty_iff_false]
    tauto
  refine ⟨h.atom, h.small, h.lists, h.free_ctrl, ?_, fun b hb => absurd hb (by simp),
    he ▸ h.tiling, h.coalesced⟩
  rintro b (rfl | hb)
  · exact ⟨hk, hc⟩
  · exact h.live_ctrl b hb

/-- Taking a live block back from the client. -/
theorem take (h : Core m L V ∅) (hb : (i, k) ∈ V) : Core m L (V \ {(i, k)}) {(i, k)} := by
  have he : FreeSet L ∪ (V \ {(i, k)}) ∪ {(i, k)} = FreeSet L ∪ V ∪ ∅ := by
    ext b
    have hlive : b = (i, k) → b ∈ V := fun e => e ▸ hb
    simp only [Set.mem_union, Set.mem_sdiff, Set.mem_singleton_iff, Set.mem_empty_iff_false]
    tauto
  refine ⟨h.atom, h.small, h.lists, h.free_ctrl, fun b hb' => h.live_ctrl b hb'.1, ?_,
    he ▸ h.tiling, h.coalesced⟩
  rintro b rfl
  exact ⟨h.live_not_free hb, fun e => e.2 rfl⟩

end Core
end Sqlite.Mem5

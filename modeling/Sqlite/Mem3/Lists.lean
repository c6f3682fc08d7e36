import Sqlite.Mem3.Invariant

/-! Taking a free chunk off its list, and putting one on. -/
namespace Sqlite.Mem3
open Foundation

variable {m m' : Mem3Global} {n i j b : ℕ} {C U M : Finset ℕ} {sz : ℕ → ℕ} {r : Root}
  {fl : Root → List ℕ} {low high : ℕ → ℕ} {root : Root → ℕ} {F : ℕ → Prop}

/-- The words after `i` was taken out between `p` and `x`. -/
def cutLow (low : ℕ → ℕ) (i p x : ℕ) : ℕ → ℕ :=
  Function.update (if p = 0 then low else Function.update low p x) i 0

def cutHigh (high : ℕ → ℕ) (i p x : ℕ) : ℕ → ℕ :=
  Function.update (if x = 0 then high else Function.update high x p) i 0

theorem cutLow_apply {p x y : ℕ} (hy : y ≠ i) :
    cutLow low i p x y = if toPtr p = some y then x else low y := by
  unfold cutLow
  rw [Function.update_of_ne hy]
  by_cases h0 : p = 0
  · rw [if_pos h0, h0, if_neg (by simp)]
  · rw [if_neg h0, toPtr_of_ne h0]
    by_cases hpy : y = p
    · rw [hpy, Function.update_self, if_pos rfl]
    · rw [Function.update_of_ne hpy, if_neg (fun hc => hpy (Option.some.inj hc).symm)]

theorem cutHigh_apply {p x y : ℕ} (hy : y ≠ i) :
    cutHigh high i p x y = if toPtr x = some y then p else high y := by
  unfold cutHigh
  rw [Function.update_of_ne hy]
  by_cases h0 : x = 0
  · rw [if_pos h0, h0, if_neg (by simp)]
  · rw [if_neg h0, toPtr_of_ne h0]
    by_cases hxy : y = x
    · rw [hxy, Function.update_self, if_pos rfl]
    · rw [Function.update_of_ne hxy, if_neg (fun hc => hxy (Option.some.inj hc).symm)]

/-- The list of `i` loses it, and the others stay. -/
theorem Lists.unlink (h : Lists low high root F sz fl) (hi : i ∈ fl r) :
    Lists (cutLow low i (high i) (low i)) (cutHigh high i (high i) (low i))
      (if high i = 0 then Function.update root r (low i) else root)
      (fun j => F j ∧ j ≠ i) sz (Function.update fl r ((fl r).erase i)) := by
  have hroot : ∀ {r' j}, j ∈ fl r → j ∈ fl r' → r' = r := by
    intro r' j h1 h2
    exact ((h.mem r' j).mp h2).2.symm.trans ((h.mem r j).mp h1).2
  have hsome : ∀ {r' : Root} {y : ℕ}, some y = (none : Option ℕ) → y ∉ fl r' := by
    intro r' y hc
    cases hc
  have hfirst := (h.links r).prev_eq_iff (fun y hc => hsome hc.symm) (h.nodup r) hi
  constructor
  · intro r'
    by_cases hr : r' = r
    · subst hr
      rw [Function.update_self, ← (h.links r').head_unlink]
      by_cases h0 : high i = 0
      · have hhead : (fl r').head? = some i := hfirst.mp (by rw [h0]; rfl)
        rw [if_pos h0, Function.update_self, if_pos hhead]
      · have hhead : ¬ (fl r').head? = some i := by
          intro hc
          exact h0 (toPtr_eq_none.mp (hfirst.mpr hc))
        rw [if_neg h0, if_neg hhead]
        exact h.head r'
    · rw [Function.update_of_ne hr, ← h.head r']
      by_cases h0 : high i = 0
      · rw [if_pos h0, Function.update_of_ne hr]
      · rw [if_neg h0]
  · intro r'
    by_cases hr : r' = r
    · subst hr
      rw [Function.update_self]
      apply (h.links r').unlink (fun y hc => hsome hc.symm) (h.nodup r') hi
      · intro y hy hyi
        rw [cutLow_apply hyi]
        split <;> rfl
      · intro y hy hyi
        rw [cutHigh_apply hyi]
        split <;> rfl
    · rw [Function.update_of_ne hr]
      have hyi : ∀ {y}, y ∈ fl r' → y ≠ i := fun hy hc => hr (hroot hi (hc ▸ hy))
      apply (h.links r').congr
      · intro y hy
        have hout : toPtr (high i) ≠ some y := by
          intro hc
          rcases (h.links r).prev_mem hi hc with hp | hp
          · cases hp
          · exact hr (hroot hp hy)
        rw [cutLow_apply (hyi hy), if_neg hout]
      · intro y hy
        have hout : toPtr (low i) ≠ some y := by
          intro hc
          exact hr (hroot ((h.links r).next_mem hi hc) hy)
        rw [cutHigh_apply (hyi hy), if_neg hout]
  · intro r'
    by_cases hr : r' = r
    · subst hr
      rw [Function.update_self]
      exact (h.nodup r').erase i
    · rw [Function.update_of_ne hr]
      exact h.nodup r'
  · intro r' j
    by_cases hr : r' = r
    · subst hr
      rw [Function.update_self, (h.nodup r').mem_erase_iff, h.mem r' j]
      constructor
      · rintro ⟨h1, h2, h3⟩
        exact ⟨⟨h2, h1⟩, h3⟩
      · rintro ⟨⟨h1, h2⟩, h3⟩
        exact ⟨h2, h1, h3⟩
    · rw [Function.update_of_ne hr, h.mem r' j]
      constructor
      · rintro ⟨h1, h2⟩
        refine ⟨⟨h1, fun hc => ?_⟩, h2⟩
        rw [hc, ((h.mem r i).mp hi).2] at h2
        exact hr h2.symm
      · rintro ⟨⟨h1, -⟩, h2⟩
        exact ⟨h1, h2⟩

/-- What `memsys3UnlinkFromList` writes. -/
theorem unlinkFromList_words :
    prevSize (memsys3UnlinkFromList m i r) = cutLow (prevSize m) i (size4x m i) (prevSize m i) ∧
    size4x (memsys3UnlinkFromList m i r) = cutHigh (size4x m) i (size4x m i) (prevSize m i) ∧
    (memsys3UnlinkFromList m i r).root =
      if size4x m i = 0 then Function.update m.root r (prevSize m i) else m.root := by
  have hx := prevSize_lt m i
  have hp := size4x_lt m i
  unfold memsys3UnlinkFromList cutLow cutHigh next prev setNext setPrev
  by_cases h0 : size4x m i = 0
  · by_cases h1 : prevSize m i = 0
    · simp only [h0, h1, if_true, ne_eq, not_true, if_false]
      rw [prevSize_setSize4x, prevSize_setPrevSize (by decide), size4x_setSize4x (by decide),
        size4x_setPrevSize]
      exact ⟨rfl, rfl, rfl⟩
    · simp only [h0, h1, if_true, ne_eq, not_false_iff, if_false]
      rw [prevSize_setSize4x, prevSize_setPrevSize (by decide), size4x_setSize4x (by decide),
        size4x_setPrevSize, prevSize_setSize4x, size4x_setSize4x (by decide)]
      exact ⟨rfl, rfl, rfl⟩
  · by_cases h1 : prevSize m i = 0
    · simp only [h0, h1, if_true, ne_eq, not_true, if_false]
      rw [prevSize_setSize4x, prevSize_setPrevSize (by decide), size4x_setSize4x (by decide),
        size4x_setPrevSize, prevSize_setPrevSize (by decide), size4x_setPrevSize]
      exact ⟨rfl, rfl, rfl⟩
    · simp only [h0, h1, ne_eq, not_false_iff, if_true, if_false]
      rw [prevSize_setSize4x, prevSize_setPrevSize (by decide), size4x_setSize4x (by decide),
        size4x_setPrevSize, prevSize_setSize4x, size4x_setSize4x hp, prevSize_setPrevSize hx,
        size4x_setPrevSize]
      exact ⟨rfl, rfl, rfl⟩

/-- Only second blocks of free chunks are written. -/
theorem unlinkFromList_same (hb : ∀ b, b = i ∨ b = size4x m i ∨ b = prevSize m i → b ≠ 0 →
      (∀ j ∈ U, ¬ (j ≤ b ∧ b < j + sz j)) ∧ b ≤ m.nPool) (hi : i ≠ 0) :
    Same U sz m (memsys3UnlinkFromList m i r) := by
  have hhigh : ∀ b, (∀ j ∈ U, ¬ (j ≤ b ∧ b < j + sz j)) → ∀ j ∈ U, ¬ (j ≤ b ∧ b + 1 < j + sz j) := by
    intro b hb j hj hc
    exact hb j hj ⟨hc.1, by omega⟩
  unfold memsys3UnlinkFromList next prev setNext setPrev
  simp only
  have hi' := hb i (Or.inl rfl) hi
  have h1 : Same U sz m (if size4x m i = 0 then setRoot m r (prevSize m i)
      else setPrevSize m (size4x m i) (prevSize m i)) := by
    split
    · exact ⟨⟨rfl, rfl, Keeps.refl _ _ _ _⟩, rfl, rfl⟩
    · rename_i h0
      have := hb _ (Or.inr (Or.inl rfl)) h0
      exact Same.setPrevSize this.1 this.2 _
  generalize (if size4x m i = 0 then setRoot m r (prevSize m i)
      else setPrevSize m (size4x m i) (prevSize m i)) = m₁ at h1 ⊢
  have h2 : Same U sz m (if prevSize m i ≠ 0 then setSize4x m₁ (prevSize m i) (size4x m i) else m₁) := by
    split
    · rename_i h0
      have := hb _ (Or.inr (Or.inr rfl)) h0
      exact h1.trans (Same.setSize4x (hhigh _ this.1) (by rw [h1.nPool]; exact this.2) _)
    · exact h1
  generalize (if prevSize m i ≠ 0 then setSize4x m₁ (prevSize m i) (size4x m i) else m₁) = m₂ at h2 ⊢
  have h3 : Same U sz m (setPrevSize m₂ i 0) :=
    h2.trans (Same.setPrevSize hi'.1 (by rw [h2.nPool]; exact hi'.2) 0)
  exact h3.trans (Same.setSize4x (hhigh _ hi'.1) (by rw [h3.nPool]; exact hi'.2) 0)

/-- A chunk is taken off its list. -/
theorem Inv.unlinkFromList (h : Inv m C U M sz fl) (hi : i ∈ fl r) :
    Inv (memsys3UnlinkFromList m i r) C U (insert i M) sz (Function.update fl r ((fl r).erase i)) ∧
      Same U sz m (memsys3UnlinkFromList m i r) := by
  obtain ⟨⟨hC, hU, hM⟩, -⟩ := (h.lists.mem r i).mp hi
  obtain ⟨hle, hlt⟩ := h.index hC
  obtain ⟨w1, w2, w3⟩ := @unlinkFromList_words m i r
  have hlist : ∀ b, b = i ∨ b = size4x m i ∨ b = prevSize m i → b ≠ 0 → b ∈ C ∧ b ∉ U := by
    rintro b (rfl | rfl | rfl) hb
    · exact ⟨hC, hU⟩
    · have hb' : toPtr (size4x m i) = some (size4x m i) := toPtr_of_ne hb
      rcases (h.lists.links r).prev_mem hi hb' with hc | hc
      · cases hc
      · obtain ⟨⟨g1, g2, -⟩, -⟩ := (h.lists.mem r _).mp hc
        exact ⟨g1, g2⟩
    · have hb' : toPtr (prevSize m i) = some (prevSize m i) := toPtr_of_ne hb
      obtain ⟨⟨g1, g2, -⟩, -⟩ := (h.lists.mem r _).mp ((h.lists.links r).next_mem hi hb')
      exact ⟨g1, g2⟩
  have hsame : Same U sz m (memsys3UnlinkFromList m i r) := by
    apply unlinkFromList_same
    · intro b hb h0
      obtain ⟨g1, g2⟩ := hlist b hb h0
      exact ⟨h.core.user_ne g1 g2, (h.index g1).1⟩
    · exact h.pos hC
  refine ⟨⟨?_, ?_, ?_, ?_⟩, hsame⟩
  · rw [hsame.nPool]
    exact h.pool
  · rw [hsame.nPool, w1, w2]
    apply h.core.congr
    intro b hb
    unfold cutLow cutHigh at hb
    by_cases hbi : b = i
    · rw [hbi]
      exact ⟨hC, hU⟩
    rw [Function.update_of_ne hbi, Function.update_of_ne hbi] at hb
    rcases hb with hb | hb
    · split at hb
      · exact absurd rfl hb
      · rename_i h0
        by_cases hbp : b = size4x m i
        · rw [hbp]
          exact hlist _ (Or.inr (Or.inl rfl)) h0
        · exact absurd (Function.update_of_ne hbp _ _) hb
    · split at hb
      · exact absurd rfl hb
      · rename_i h0
        by_cases hbx : b = prevSize m i
        · rw [hbx]
          exact hlist _ (Or.inr (Or.inr rfl)) h0
        · exact absurd (Function.update_of_ne hbx _ _) hb
  · intro j hj
    rcases Finset.mem_insert.mp hj with rfl | hj
    · exact ⟨hC, hU⟩
    · exact h.free j hj
  · rw [w1, w2, w3]
    apply (h.lists.unlink hi).congr (fun _ _ => rfl) (fun _ _ => rfl) ?_
      (fun _ _ => rfl)
    intro j
    unfold Listed
    rw [Finset.mem_insert, not_or]
    constructor
    · rintro ⟨h1, h2, h3, h4⟩
      exact ⟨⟨h1, h2, h4⟩, h3⟩
    · rintro ⟨⟨h1, h2, h4⟩, h3⟩
      exact ⟨h1, h2, h3, h4⟩

theorem Inv.mem_list (h : Inv m C U M sz fl) (hC : i ∈ C) (hU : i ∉ U) (hM : i ∉ M) :
    i ∈ fl (rootOf (sz i)) := (h.lists.mem _ i).mpr ⟨⟨hC, hU, hM⟩, rfl⟩

theorem Inv.unlink (h : Inv m C U M sz fl) (hC : i ∈ C) (hU : i ∉ U) (hM : i ∉ M) :
    ∃ m', memsys3Unlink m i = some m' ∧ Same U sz m m' ∧
      Inv m' C U (insert i M) sz
        (Function.update fl (rootOf (sz i)) ((fl (rootOf (sz i))).erase i)) := by
  obtain ⟨hl, hs⟩ := h.linkable hC hU
  obtain ⟨h1, h2⟩ := h.unlinkFromList (h.mem_list hC hU hM)
  refine ⟨_, ?_, h2, h1⟩
  rw [memsys3Unlink, if_pos hl, hs]

/-- What `memsys3LinkIntoList` writes. -/
theorem linkIntoList_words (hi : i < 4294967296) (hr : m.root r < 4294967296) :
    prevSize (memsys3LinkIntoList m i r) = Function.update (prevSize m) i (m.root r) ∧
    size4x (memsys3LinkIntoList m i r) =
      (if m.root r = 0 then Function.update (size4x m) i 0
        else Function.update (Function.update (size4x m) i 0) (m.root r) i) ∧
    (memsys3LinkIntoList m i r).root = Function.update m.root r i := by
  unfold memsys3LinkIntoList setNext setPrev
  have hroot : (setSize4x (setPrevSize m i (m.root r)) i 0).root r = m.root r := rfl
  simp only [hroot]
  by_cases h0 : m.root r = 0
  · rw [if_neg (not_not.mpr h0), if_pos h0]
    refine ⟨?_, ?_, rfl⟩
    · show prevSize (setSize4x _ _ _) = _
      rw [prevSize_setSize4x, prevSize_setPrevSize hr]
    · show size4x (setSize4x _ _ _) = _
      rw [size4x_setSize4x (by decide), size4x_setPrevSize]
  · rw [if_pos h0, if_neg h0]
    refine ⟨?_, ?_, rfl⟩
    · show prevSize (setSize4x _ _ _) = _
      rw [prevSize_setSize4x, prevSize_setSize4x, prevSize_setPrevSize hr]
    · show size4x (setSize4x _ _ _) = _
      rw [size4x_setSize4x hi, size4x_setSize4x (by decide), size4x_setPrevSize]

/-- A chunk is put at the head of the list of its size. -/
theorem Inv.link (h : Inv m C U M sz fl) (hM : i ∈ M) :
    ∃ m', memsys3Link m i = some m' ∧ Same U sz m m' ∧
      Inv m' C U (M.erase i) sz
        (Function.update fl (rootOf (sz i)) (i :: fl (rootOf (sz i)))) := by
  obtain ⟨hC, hU⟩ := h.free i hM
  obtain ⟨hl, hs⟩ := h.linkable hC hU
  obtain ⟨hle, hlt⟩ := h.index hC
  have hi0 := h.pos hC
  generalize hr : rootOf (sz i) = r
  have hnot : ∀ r', i ∉ fl r' := fun r' hc => ((h.lists.mem r' i).mp hc).1.2.2 hM
  have hhead : m.root r ≠ 0 → m.root r ∈ fl r ∧ m.root r ∈ C ∧ m.root r ∉ U := by
    intro h0
    have hmem : m.root r ∈ fl r := by
      apply List.mem_of_head?
      rw [← h.lists.head r, toPtr_of_ne h0]
    obtain ⟨⟨g1, g2, -⟩, -⟩ := (h.lists.mem r _).mp hmem
    exact ⟨hmem, g1, g2⟩
  have hne : m.root r ≠ i := by
    intro hc
    rw [← hc] at hi0 hnot
    exact hnot r (hhead hi0).1
  have hrlt : m.root r < 4294967296 := by
    by_cases h0 : m.root r = 0
    · omega
    · have := (h.index (hhead h0).2.1).2
      omega
  obtain ⟨w1, w2, w3⟩ := @linkIntoList_words m i r (by omega) hrlt
  have hhigh : ∀ {b}, (∀ j ∈ U, ¬ (j ≤ b ∧ b < j + sz j)) → ∀ j ∈ U, ¬ (j ≤ b ∧ b + 1 < j + sz j) := by
    intro b hb j hj hc
    exact hb j hj ⟨hc.1, by omega⟩
  have hsame : Same U sz m (memsys3LinkIntoList m i r) := by
    have hout := h.core.user_ne hC hU
    have h1 : Same U sz m (setSize4x (setPrevSize m i (m.root r)) i 0) :=
      (Same.setPrevSize hout hle _).trans (Same.setSize4x (hhigh hout) (by exact hle) _)
    have hroot : (setSize4x (setPrevSize m i (m.root r)) i 0).root r = m.root r := rfl
    unfold memsys3LinkIntoList setNext setPrev
    simp only [hroot]
    generalize setSize4x (setPrevSize m i (m.root r)) i 0 = m₁ at h1 ⊢
    by_cases h0 : m.root r = 0
    · rw [if_neg (not_not.mpr h0)]
      exact ⟨⟨h1.nPool, h1.alarmBusy, h1.keeps⟩, h1.iMaster, h1.szMaster⟩
    · rw [if_pos h0]
      obtain ⟨-, g1, g2⟩ := hhead h0
      have h2 := h1.trans (Same.setSize4x (hhigh (h.core.user_ne g1 g2))
        (by rw [h1.nPool]; exact (h.index g1).1) i)
      exact ⟨⟨h2.nPool, h2.alarmBusy, h2.keeps⟩, h2.iMaster, h2.szMaster⟩
  refine ⟨_, by rw [memsys3Link, if_pos hl, hs, hr], hsame, ⟨?_, ?_, ?_, ?_⟩⟩
  · rw [hsame.nPool]
    exact h.pool
  · rw [hsame.nPool, w1, w2]
    apply h.core.congr
    intro b hb
    by_cases hbi : b = i
    · rw [hbi]
      exact ⟨hC, hU⟩
    rw [Function.update_of_ne hbi] at hb
    rcases hb with hb | hb
    · exact absurd rfl hb
    · split at hb
      · exact absurd (Function.update_of_ne hbi _ _) hb
      · rename_i h0
        by_cases hbr : b = m.root r
        · rw [hbr]
          exact (hhead h0).2
        · rw [Function.update_of_ne hbr, Function.update_of_ne hbi] at hb
          exact absurd rfl hb
  · exact fun j hj => h.free j (Finset.mem_of_mem_erase hj)
  · rw [w1, w2, w3]
    have hfh : ∀ y, (if m.root r = 0 then Function.update (size4x m) i 0
        else Function.update (Function.update (size4x m) i 0) (m.root r) i) y =
        if toPtr (m.root r) = some y then i else Function.update (size4x m) i 0 y := by
      intro y
      by_cases h0 : m.root r = 0
      · rw [if_pos h0, h0, if_neg (by simp)]
      · rw [if_neg h0, toPtr_of_ne h0]
        by_cases hy : y = m.root r
        · rw [hy, Function.update_self, if_pos rfl]
        · rw [Function.update_of_ne hy, if_neg (fun hc => hy (Option.some.inj hc).symm)]
    constructor
    · intro r'
      by_cases hrr : r' = r
      · rw [hrr, Function.update_self, Function.update_self]
        exact toPtr_of_ne hi0
      · rw [Function.update_of_ne hrr, Function.update_of_ne hrr]
        exact h.lists.head r'
    · intro r'
      by_cases hrr : r' = r
      · rw [hrr, Function.update_self]
        have hyi : ∀ {y}, y ∈ fl r → y ≠ i := fun hy hc => hnot r (hc ▸ hy)
        apply (h.lists.links r).push (hnot r) ?_ ?_ ?_ ?_ (h.lists.nodup r)
        · rw [Function.update_self]
          exact h.lists.head r
        · rw [hfh, if_neg (fun hc => hne (toPtr_eq_some.mp hc).1), Function.update_self]
          rfl
        · intro y hy
          rw [Function.update_of_ne (hyi hy)]
        · intro y hy
          rw [hfh, Function.update_of_ne (hyi hy), ← h.lists.head r]
          split
          · exact toPtr_of_ne hi0
          · rfl
      · rw [Function.update_of_ne hrr]
        have hyi : ∀ {y}, y ∈ fl r' → y ≠ i := fun hy hc => hnot r' (hc ▸ hy)
        apply (h.lists.links r').congr
        · intro y hy
          rw [Function.update_of_ne (hyi hy)]
        · intro y hy
          have hout : toPtr (m.root r) ≠ some y := by
            intro hc
            obtain ⟨g1, g2⟩ := toPtr_eq_some.mp hc
            have hmem := (hhead (g1.symm ▸ g2)).1
            rw [g1] at hmem
            exact hrr (((h.lists.mem r' y).mp hy).2.symm.trans ((h.lists.mem r y).mp hmem).2)
          rw [hfh, if_neg hout, Function.update_of_ne (hyi hy)]
    · intro r'
      by_cases hrr : r' = r
      · rw [hrr, Function.update_self]
        exact List.nodup_cons.mpr ⟨hnot r, h.lists.nodup r⟩
      · rw [Function.update_of_ne hrr]
        exact h.lists.nodup r'
    · intro r' j
      unfold Listed
      by_cases hji : j = i
      · rw [hji, hr]
        constructor
        · intro hj
          refine ⟨⟨hC, hU, Finset.notMem_erase i M⟩, ?_⟩
          by_contra hrr
          rw [Function.update_of_ne (fun hc => hrr hc.symm)] at hj
          exact hnot r' hj
        · rintro ⟨-, rfl⟩
          rw [Function.update_self]
          exact List.mem_cons_self
      · have hmem : j ∈ Function.update fl r (i :: fl r) r' ↔ j ∈ fl r' := by
          by_cases hrr : r' = r
          · rw [hrr, Function.update_self, List.mem_cons]
            exact ⟨fun hc => hc.resolve_left hji, Or.inr⟩
          · rw [Function.update_of_ne hrr]
        rw [hmem, h.lists.mem r' j, Finset.mem_erase]
        unfold Listed
        constructor
        · rintro ⟨⟨g1, g2, g3⟩, g4⟩
          exact ⟨⟨g1, g2, fun hc => g3 hc.2⟩, g4⟩
        · rintro ⟨⟨g1, g2, g3⟩, g4⟩
          exact ⟨⟨g1, g2, fun hc => g3 ⟨hji, hc⟩⟩, g4⟩

end Sqlite.Mem3

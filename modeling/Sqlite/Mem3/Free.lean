import Sqlite.Mem3.Master

/-! A chunk is given back, and the master grows over its free neighbours. -/
namespace Sqlite.Mem3
open Foundation

variable {m m' : Mem3Global} {n i j p k x : ℕ} {C U M : Finset ℕ} {sz : ℕ → ℕ} {fl : Root → List ℕ}

/-- The bit for the chunk before tells whether there is a used one, or none. -/
theorem Inv.prev_free (h : Inv m C U M sz fl) (hi : i ∈ C) (hb : size4x m (i - 1) &&& 2 = 0) :
    ∃ p ∈ C, p ∉ U ∧ p + sz p = i ∧ prevSize m (i - 1) = sz p := by
  have hnot := mt (h.core.prev i (.inl hi)).mpr (and_two_eq_zero.mp hb)
  obtain ⟨h1, hused⟩ := not_or.mp hnot
  obtain ⟨p, hp, hpi⟩ := h.core.chunks.prev (.inl hi) h1
  have hpU : p ∉ U := fun hc => hused ⟨p, hc, hpi⟩
  refine ⟨p, hp, hpU, hpi, ?_⟩
  have htail := h.core.tail p hp hpU
  rwa [hpi] at htail

/-- The bit of the header behind a chunk tells whether a free one follows. -/
theorem Inv.next_free (h : Inv m C U M sz fl) (hi : i ∈ C)
    (hb : size4x m (i + sz i - 1) &&& 1 = 0) : i + sz i ∈ C ∧ i + sz i ∉ U := by
  have hbit := and_one_eq_zero.mp hb
  rcases h.core.next hi with hn | hn
  · exact ⟨hn, fun hc => hbit ((h.core.used _ hn).mpr hc)⟩
  · rw [hn, Nat.add_sub_cancel] at hbit
    exact absurd h.core.last.2 hbit

theorem Inv.card_le (h : Inv m C U M sz fl) : C.card ≤ m.nPool := by
  have hsub : C ⊆ Finset.range m.nPool := by
    intro i hi
    have hb := h.core.bound hi
    exact Finset.mem_range.mpr (by omega)
  exact (Finset.card_le_card hsub).trans_eq (Finset.card_range m.nPool)

/-- The chunks in use keep their sizes when a free one grows. -/
theorem size_kept (hi : i ∉ U) (s : ℕ) : ∀ j ∈ U, Function.update sz i s j = sz j :=
  fun j hj => Function.update_of_ne (fun hc : j = i => hi (hc ▸ hj)) _ _

/-- The bit for the chunk before depends on the chunks in use only. -/
theorem Inv.prev_bit (h : Inv m C U M sz fl) {C' M' : Finset ℕ} {sz' : ℕ → ℕ} {fl' : Root → List ℕ}
    (h' : Inv m' C' U M' sz' fl') (hs : ∀ j ∈ U, sz' j = sz j) (hi : i ∈ C) (hi' : i ∈ C') :
    size4x m' (i - 1) &&& 2 = size4x m (i - 1) &&& 2 := by
  have hex : (∃ j ∈ U, j + sz' j = i) ↔ ∃ j ∈ U, j + sz j = i := by
    refine exists_congr fun j => and_congr_right fun hj => ?_
    rw [hs j hj]
  have hp := h.core.prev i (.inl hi)
  have hp' := h'.core.prev i (.inl hi')
  rw [hex, ← hp] at hp'
  rw [and_two, and_two]
  omega

theorem Good.expandDown (n : ℕ) (h : Good m C U sz fl) (h0 : m.iMaster ≠ 0) (hn : C.card ≤ n) :
    ∃ m' C' sz' fl', expandDown n m = some m' ∧ Good m' C' U sz' fl' ∧ m'.iMaster ≠ 0 ∧
      Kept U sz sz' m m' ∧ C' ⊆ C := by
  induction n generalizing m C sz fl with
  | zero =>
    obtain ⟨hC, -⟩ := h.iMaster_mem h0
    have hpos := Finset.card_pos.mpr ⟨_, hC⟩
    omega
  | succ n ih =>
    rw [Mem3.expandDown]
    by_cases hb : size4x m (m.iMaster - 1) &&& 2 = 0
    · rw [if_pos hb]
      obtain ⟨hC, hU⟩ := h.iMaster_mem h0
      obtain ⟨p, hp, hpU, hpi, hsize⟩ := h.prev_free hC hb
      have hs : m.szMaster = sz m.iMaster := h.master.trans (if_neg h0)
      have hb' := h.core.bound hp
      have hpM : p ∉ ({m.iMaster} : Finset ℕ) := by
        rw [Finset.mem_singleton]
        omega
      have heq : m.iMaster - sz p = p := by omega
      have hinv := h.toInv
      rw [masterSet_eq rfl h0] at hinv
      obtain ⟨m2, hm2, s2, i2⟩ :=
        (hinv.withMaster m.alarmBusy m.mnMaster p (m.szMaster + sz p)).unlink hp hpU hpM
      have him : m2.iMaster = p := s2.iMaster
      have hsm : m2.szMaster = sz p + sz m.iMaster := by
        rw [s2.szMaster, hs, Nat.add_comm]
      have hmem : m.iMaster ∈ insert p ({m.iMaster} : Finset ℕ) :=
        Finset.mem_insert_of_mem (Finset.mem_singleton_self _)
      obtain ⟨s3, i3⟩ := i2.merge (Finset.mem_insert_self _ _) hmem hpi rfl
      have herase : (insert p ({m.iMaster} : Finset ℕ)).erase m.iMaster = {p} := by
        rw [Finset.erase_insert_of_ne (by omega), Finset.erase_singleton]
        rfl
      rw [herase] at i3
      have hp0 : p ≠ 0 := h.pos hp
      have him3 : (setFree m2 p (sz p + sz m.iMaster) (size4x m2 (p - 1) &&& 2)).iMaster = p := him
      have hgood : Good (setFree m2 p (sz p + sz m.iMaster) (size4x m2 (p - 1) &&& 2))
          (C.erase m.iMaster) U (Function.update sz p (sz p + sz m.iMaster))
          (Function.update fl (rootOf (sz p)) ((fl (rootOf (sz p))).erase p)) := by
        constructor
        · rw [masterSet_eq him3 hp0]
          exact i3
        · rw [him3, if_neg hp0, Function.update_self]
          exact hsm
      have hcard : (C.erase m.iMaster).card ≤ n := by
        rw [Finset.card_erase_of_mem hC]
        omega
      obtain ⟨m', C', sz', fl', hgo, hgood', h0', hkept, hsub⟩ := ih hgood (him3.trans_ne hp0) hcard
      refine ⟨m', C', sz', fl', ?_, hgood', h0', ?_, hsub.trans (Finset.erase_subset _ _)⟩
      · rw [hsize]
        dsimp only
        rw [heq, hm2]
        dsimp only
        rw [him, hsm]
        exact hgo
      · have hs3 : Same U sz _ _ := s2.trans s3
        have hk : Kept U sz (Function.update sz p (sz p + sz m.iMaster)) m _ :=
          ⟨⟨hs3.nPool, hs3.alarmBusy, hs3.keeps⟩, size_kept hpU _⟩
        exact hk.trans hkept
    · rw [if_neg hb]
      exact ⟨m, C, sz, fl, rfl, h, h0, Kept.refl U sz m, Finset.Subset.refl C⟩

theorem Good.expandUp (n : ℕ) (h : Good m C U sz fl) (h0 : m.iMaster ≠ 0) (hn : C.card ≤ n)
    (hx : x = size4x m (m.iMaster - 1) &&& 2) :
    ∃ m' C' sz' fl', expandUp x n m = some m' ∧ Good m' C' U sz' fl' ∧ Kept U sz sz' m m' ∧
      C' ⊆ C := by
  induction n generalizing m C sz fl with
  | zero =>
    obtain ⟨hC, -⟩ := h.iMaster_mem h0
    have hpos := Finset.card_pos.mpr ⟨_, hC⟩
    omega
  | succ n ih =>
    rw [Mem3.expandUp]
    have hs : m.szMaster = sz m.iMaster := h.master.trans (if_neg h0)
    obtain ⟨hC, hU⟩ := h.iMaster_mem h0
    by_cases hb : size4x m (m.iMaster + m.szMaster - 1) &&& 1 = 0
    · rw [if_pos hb]
      rw [hs] at hb
      obtain ⟨hj, hjU⟩ := h.next_free hC hb
      have hb' := h.core.bound hC
      have hjM : m.iMaster + sz m.iMaster ∉ ({m.iMaster} : Finset ℕ) := by
        rw [Finset.mem_singleton]
        omega
      have hinv := h.toInv
      rw [masterSet_eq rfl h0] at hinv
      obtain ⟨m2, hm2, s2, i2⟩ := hinv.unlink hj hjU hjM
      have hsize := i2.core.size _ hj
      have hmem : m.iMaster ∈ insert (m.iMaster + sz m.iMaster) ({m.iMaster} : Finset ℕ) :=
        Finset.mem_insert_of_mem (Finset.mem_singleton_self _)
      have hx2 : x = size4x m2 (m.iMaster - 1) &&& 2 :=
        hx.trans (hinv.prev_bit i2 (fun _ _ => rfl) hC hC).symm
      obtain ⟨s3, i3⟩ := i2.merge hmem (Finset.mem_insert_self _ _) rfl hx2
      rw [Finset.erase_insert hjM] at i3
      have hs3 := s2.trans s3
      have him : m2.iMaster = m.iMaster := s2.iMaster
      have hsm : m2.szMaster = sz m.iMaster := s2.szMaster.trans hs
      generalize sz (m.iMaster + sz m.iMaster) = k at *
      have hgood : Good
          (setFree { m2 with iMaster := m.iMaster, szMaster := sz m.iMaster + k } m.iMaster (sz m.iMaster + k) x)
          (C.erase (m.iMaster + sz m.iMaster)) U (Function.update sz m.iMaster (sz m.iMaster + k))
          (Function.update fl (rootOf k) ((fl (rootOf k)).erase (m.iMaster + sz m.iMaster))) := by
        constructor
        · have hset : masterSet (setFree { m2 with iMaster := m.iMaster, szMaster := sz m.iMaster + k } m.iMaster
              (sz m.iMaster + k) x) = {m.iMaster} := by
            exact masterSet_eq rfl h0
          rw [hset]
          exact i3.withMaster m2.alarmBusy m2.mnMaster m.iMaster (sz m.iMaster + k)
        · show sz m.iMaster + k = if m.iMaster = 0 then 0 else Function.update sz m.iMaster _ m.iMaster
          rw [if_neg h0, Function.update_self]
      have hcard : (C.erase (m.iMaster + sz m.iMaster)).card ≤ n := by
        rw [Finset.card_erase_of_mem hj]
        omega
      have hi' : m.iMaster ∈ C.erase (m.iMaster + sz m.iMaster) := by
        rw [Finset.mem_erase]
        exact ⟨by omega, hC⟩
      have hx3 : x = size4x (setFree { m2 with iMaster := m.iMaster, szMaster := sz m.iMaster + k } m.iMaster
          (sz m.iMaster + k) x) (m.iMaster - 1) &&& 2 :=
        hx2.trans (i2.prev_bit hgood.toInv (size_kept hU _) hC hi').symm
      obtain ⟨m', C', sz', fl', hgo, hgood', hkept, hsub⟩ := ih hgood h0 hcard hx3
      refine ⟨m', C', sz', fl', ?_, hgood', ?_, hsub.trans (Finset.erase_subset _ _)⟩
      · rw [hs]
        dsimp only
        rw [hm2]
        dsimp only
        rw [him, hsm, hsize]
        exact hgo
      · have hk : Kept U sz (Function.update sz m.iMaster (sz m.iMaster + k)) m
            (setFree { m2 with iMaster := m.iMaster, szMaster := sz m.iMaster + k } m.iMaster
              (sz m.iMaster + k) x) :=
          ⟨⟨hs3.nPool, hs3.alarmBusy, hs3.keeps⟩, size_kept hU _⟩
        exact hk.trans hkept
    · rw [if_neg hb]
      exact ⟨m, C, sz, fl, rfl, h, Kept.refl U sz m, Finset.Subset.refl C⟩

/-- A chunk in use is given back. -/
theorem Good.freeUnsafe (h : Good m C U sz fl) (hi : i ∈ U) :
    ∃ m' C' sz' fl', memsys3FreeUnsafe m i = some m' ∧ Good m' C' (U.erase i) sz' fl' ∧
      Kept (U.erase i) sz sz' m m' ∧ C' ⊆ C := by
  have hC := h.core.sub hi
  have hb := h.core.bound hC
  have hpos := h.core.pos hC
  have hsize := h.core.size i hC
  have hused := (h.core.used i hC).mpr hi
  obtain ⟨s1, i1⟩ := h.giveBack hi
  have hx : size4x m (i - 1) &&& 0xFFFFFFFE < 4294967296 :=
    Nat.lt_of_le_of_lt Nat.and_le_left (size4x_lt m _)
  have hcond : 0 < i ∧ i < m.nPool ∧ size4x m (i - 1) &&& 1 = 1 ∧ i + sz i ≤ m.nPool + 1 := by
    rw [Nat.and_one_is_mod]
    exact ⟨hpos, by omega, hused, hb.1⟩
  unfold memsys3FreeUnsafe
  rw [hsize]
  dsimp only
  rw [if_pos hcond, size4x_after hb.2 hx]
  have hiM : i ∉ masterSet m := fun hc => (h.free i hc).2 hi
  obtain ⟨m2, hm2, s2, i2⟩ := i1.link (Finset.mem_insert_self i _)
  rw [Finset.erase_insert hiM] at i2
  have hs := s1.trans s2
  have hset : masterSet m2 = masterSet m := by
    unfold masterSet
    rw [hs.iMaster]
  have hmaster : m2.szMaster = if m2.iMaster = 0 then 0 else sz m2.iMaster := by
    rw [hs.szMaster, hs.iMaster]
    exact h.master
  have hgood : Good m2 C (U.erase i) sz _ := ⟨hset ▸ i2, hmaster⟩
  have hk : Kept (U.erase i) sz sz m m2 := hs.kept fun _ _ => rfl
  unfold setTags at hm2
  rw [hm2]
  dsimp only
  by_cases h0 : m2.iMaster ≠ 0
  · rw [if_pos h0]
    obtain ⟨m3, C3, sz3, fl3, hm3, g3, h03, k3, c3⟩ := hgood.expandDown m2.nPool h0 hgood.card_le
    rw [hm3]
    dsimp only
    obtain ⟨m4, C4, sz4, fl4, hm4, g4, k4, c4⟩ := g3.expandUp m3.nPool h03 g3.card_le rfl
    exact ⟨m4, C4, sz4, fl4, hm4, g4, (hk.trans k3).trans k4, c4.trans c3⟩
  · rw [if_neg h0]
    exact ⟨m2, C, sz, _, rfl, hgood, hk, Finset.Subset.refl C⟩

end Sqlite.Mem3

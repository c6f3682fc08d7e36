import Sqlite.Mem3.Lists

/-! Changes to headers: chunks are merged, split, checked out and given back. -/
namespace Sqlite.Mem3
open Foundation

variable {m m' : Mem3Global} {n i j b k x : ℕ} {C U U' M : Finset ℕ} {sz : ℕ → ℕ} {r : Root}
  {fl : Root → List ℕ} {low low' high high' : ℕ → ℕ}

/-- Every border begins with a header of its own. -/
theorem Core.header_ne (h : Core n low high C U sz) (hi : i ∈ C ∨ i = n + 1)
    (hj : j ∈ C ∨ j = n + 1) (hne : i ≠ j) : i - 1 ≠ j - 1 := by
  have hpos : ∀ {k}, k ∈ C ∨ k = n + 1 → 1 ≤ k := by
    rintro k (hk | rfl)
    · exact h.pos hk
    · omega
  have := hpos hi
  have := hpos hj
  omega

/-- The header of a chunk is no data but for its first word. -/
theorem Core.header_user (h : Core n low high C U sz) {V : Finset ℕ} (hV : V ⊆ C)
    (hi : i ∈ C ∨ i = n + 1) : ∀ j ∈ V, ¬ (j ≤ i - 1 ∧ i - 1 + 1 < j + sz j) := by
  rintro j hj ⟨h1, h2⟩
  have hj1 := h.pos (hV hj)
  have := h.chunks.le_of_lt (hV hj) hi (by omega)
  omega

/-- The first word after a chunk is data of this chunk only. -/
theorem Core.tail_user (h : Core n low high C U sz) {V : Finset ℕ} (hV : V ⊆ C) (hi : i ∈ C)
    (hu : i ∉ V) : ∀ j ∈ V, ¬ (j ≤ i + sz i - 1 ∧ i + sz i - 1 < j + sz j) := by
  rintro j hj ⟨h1, h2⟩
  have hb := h.bound hi
  have := h.chunks.le_of_lt (hV hj) (h.next hi) (by omega)
  have he := h.chunks.eq_of_end (hV hj) hi (by omega)
  exact hu (he ▸ hj)

/-- A chunk is checked out or given back. -/
theorem Core.setUse (h : Core n low high C U sz) (hi : i ∈ C) (hsub : U' ⊆ C)
    (hU : ∀ j, j ≠ i → (j ∈ U' ↔ j ∈ U))
    (hlow : ∀ b, b ≠ i + sz i - 1 → low' b = low b)
    (hhigh : ∀ b, b ≠ i - 1 → b ≠ i + sz i - 1 → high' b = high b)
    (hsize : high' (i - 1) / 4 = sz i) (hused : high' (i - 1) % 2 = 1 ↔ i ∈ U')
    (hprev : high' (i - 1) / 2 % 2 = high (i - 1) / 2 % 2)
    (hend : high' (i + sz i - 1) / 4 = high (i + sz i - 1) / 4 ∧
      high' (i + sz i - 1) % 2 = high (i + sz i - 1) % 2)
    (hbit : high' (i + sz i - 1) / 2 % 2 = 1 ↔ i ∈ U')
    (htail : i ∉ U' → low' (i + sz i - 1) = sz i) : Core n low' high' C U' sz := by
  have hnext := h.next hi
  have hb := h.bound hi
  have hhead : ∀ {j}, j ∈ C ∨ j = n + 1 → j ≠ i → j ≠ i + sz i → high' (j - 1) = high (j - 1) := by
    intro j hj h1 h2
    exact hhigh _ (h.header_ne hj (Or.inl hi) h1) (h.header_ne hj hnext h2)
  constructor
  · exact h.chunks
  · exact hsub
  · intro j hj
    by_cases hji : j = i
    · rw [hji]
      exact hsize
    by_cases hje : j = i + sz i
    · rw [hje, hend.1, ← hje]
      exact h.size j hj
    · rw [hhead (Or.inl hj) hji hje]
      exact h.size j hj
  · intro j hj
    by_cases hji : j = i
    · rw [hji]
      exact hused
    rw [hU j hji]
    by_cases hje : j = i + sz i
    · rw [hje, hend.2, ← hje]
      exact h.used j hj
    · rw [hhead (Or.inl hj) hji hje]
      exact h.used j hj
  · intro j hj
    by_cases hje : j = i + sz i
    · rw [hje, hbit]
      constructor
      · exact fun hc => Or.inr ⟨i, hc, rfl⟩
      · rintro (hc | ⟨l, hl, hle⟩)
        · have := h.pos hi
          omega
        · rwa [h.chunks.eq_of_end (hsub hl) hi hle] at hl
    · have hex : (∃ l ∈ U', l + sz l = j) ↔ ∃ l ∈ U, l + sz l = j := by
        constructor
        · rintro ⟨l, hl, hle⟩
          have hli : l ≠ i := fun hc => hje (by rw [← hle, hc])
          exact ⟨l, (hU l hli).mp hl, hle⟩
        · rintro ⟨l, hl, hle⟩
          have hli : l ≠ i := fun hc => hje (by rw [← hle, hc])
          exact ⟨l, (hU l hli).mpr hl, hle⟩
      rw [hex, ← h.prev j hj]
      by_cases hji : j = i
      · rw [hji, hprev]
      · rw [hhead hj hji hje]
  · by_cases hne : n + 1 = i + sz i
    · have hn : n = i + sz i - 1 := by omega
      have hl := h.last
      rw [hn] at hl ⊢
      rw [hend.1, hend.2]
      exact hl
    · have hn : high' n = high n := by
        apply hhigh
        · omega
        · omega
      rw [hn]
      exact h.last
  · intro j hj hu
    by_cases hji : j = i
    · rw [hji] at hu ⊢
      exact htail hu
    · have hne : j + sz j ≠ i + sz i := fun hc => hji (h.chunks.eq_of_end hj hi hc)
      rw [hlow _ (h.header_ne (h.next hj) hnext hne)]
      exact h.tail j hj (fun hc => hu ((hU j hji).mpr hc))

/-- The three writes that check a chunk out, or give it back. -/
def setTags (m : Mem3Global) (i k x y : ℕ) : Mem3Global :=
  setSize4x (setPrevSize (setSize4x m (i - 1) x) (i + k - 1) k) (i + k - 1) y

theorem setTags_words {y : ℕ} (hk : k < 4294967296) (hx : x < 4294967296) (hy : y < 4294967296) :
    prevSize (setTags m i k x y) = Function.update (prevSize m) (i + k - 1) k ∧
    size4x (setTags m i k x y) =
      Function.update (Function.update (size4x m) (i - 1) x) (i + k - 1) y := by
  unfold setTags
  rw [prevSize_setSize4x, prevSize_setPrevSize hk, prevSize_setSize4x, size4x_setSize4x hy,
    size4x_setPrevSize, size4x_setSize4x hx]
  exact ⟨rfl, rfl⟩

/-- The second header is read after the first one was written. -/
theorem size4x_after (hk : 2 ≤ k) (hx : x < 4294967296) :
    size4x (setPrevSize (setSize4x m (i - 1) x) (i + k - 1) k) (i + k - 1) =
      size4x m (i + k - 1) := by
  have hne : i + k - 1 ≠ i - 1 := by omega
  rw [size4x_setPrevSize, size4x_setSize4x hx, Function.update_of_ne hne]

theorem Inv.setTags_same (h : Inv m C U M sz fl) {V : Finset ℕ} (hV : V ⊆ C) (hi : i ∈ C)
    (hu : i ∉ V) (x y : ℕ) : Same V sz m (setTags m i (sz i) x y) := by
  have hb := h.core.bound hi
  have h1 : Same V sz m (setSize4x m (i - 1) x) :=
    Same.setSize4x (h.core.header_user hV (Or.inl hi)) (by omega) _
  have h2 := h1.trans (Same.setPrevSize (h.core.tail_user hV hi hu) (by rw [h1.nPool]; omega) (sz i))
  exact h2.trans
    (Same.setSize4x (h.core.header_user hV (h.core.next hi)) (by rw [h2.nPool]; omega) y)

/-- The headers after a change of use of one chunk; the lists stay. -/
theorem Inv.tagged (h : Inv m C U M sz fl) {M' : Finset ℕ} {y : ℕ} (hi : i ∈ C)
    (hout : ¬ Listed C U M i) (hsub : U' ⊆ C) (hU : ∀ j, j ≠ i → (j ∈ U' ↔ j ∈ U))
    (hM : ∀ j, j ≠ i → (j ∈ M' ↔ j ∈ M)) (hiM : i ∈ U' ↔ i ∉ M')
    (hx : x < 4294967296) (hy : y < 4294967296)
    (hsize : x / 4 = sz i) (hused : x % 2 = 1 ↔ i ∈ U')
    (hprev : x / 2 % 2 = size4x m (i - 1) / 2 % 2)
    (hend : y / 4 = size4x m (i + sz i - 1) / 4 ∧ y % 2 = size4x m (i + sz i - 1) % 2)
    (hbit : y / 2 % 2 = 1 ↔ i ∈ U') : Inv (setTags m i (sz i) x y) C U' M' sz fl := by
  have hb := h.core.bound hi
  have hp := h.pool
  obtain ⟨w1, w2⟩ := @setTags_words m i (sz i) x y (by omega) hx hy
  have hne : i - 1 ≠ i + sz i - 1 := by
    have := h.core.pos hi
    omega
  have hlist : ∀ j, Listed C U' M' j ↔ Listed C U M j := by
    intro j
    by_cases hji : j = i
    · rw [hji]
      constructor
      · rintro ⟨-, h1, h2⟩
        exact absurd (hiM.mpr h2) h1
      · exact fun hc => absurd hc hout
    · unfold Listed
      rw [hU j hji, hM j hji]
  constructor
  · exact hp
  · rw [w1, w2]
    apply h.core.setUse hi hsub hU
    · intro b hb
      exact Function.update_of_ne hb _ _
    · intro b h1 h2
      rw [Function.update_of_ne h2, Function.update_of_ne h1]
    · rw [Function.update_of_ne hne, Function.update_self]
      exact hsize
    · rw [Function.update_of_ne hne, Function.update_self]
      exact hused
    · rw [Function.update_of_ne hne, Function.update_self]
      exact hprev
    · rw [Function.update_self]
      exact hend
    · rw [Function.update_self]
      exact hbit
    · intro _
      exact Function.update_self ..
  · intro j hj
    by_cases hji : j = i
    · rw [hji] at hj ⊢
      exact ⟨hi, fun hc => (hiM.mp hc) hj⟩
    · rw [hU j hji]
      exact h.free j ((hM j hji).mp hj)
  · rw [w1, w2]
    apply h.lists.congr ?_ ?_ hlist (fun _ _ => rfl)
    · intro j hj
      exact Function.update_of_ne (h.core.block_ne hj.1 (h.core.next hi)) _ _
    · intro j hj
      rw [Function.update_of_ne (h.core.block_ne hj.1 (h.core.next hi)),
        Function.update_of_ne (h.core.block_ne hj.1 (Or.inl hi))]

theorem Inv.checkout (h : Inv m C U M sz fl) (hM : i ∈ M) :
    ∃ m', memsys3Checkout m i (sz i) = some m' ∧ Same U sz m m' ∧
      Inv m' C (insert i U) (M.erase i) sz fl := by
  obtain ⟨hC, hU⟩ := h.free i hM
  have hb := h.core.bound hC
  have hp := h.pool
  have hcond : 1 ≤ i ∧ size4x m (i - 1) / 4 = sz i ∧ prevSize m (i + sz i - 1) = sz i :=
    ⟨h.core.pos hC, h.core.size i hC, h.core.tail i hC hU⟩
  have hx := used_header (sz i) (size4x m (i - 1))
  have hx' : sz i * 4 ||| 1 ||| (size4x m (i - 1) &&& 2) < 4294967296 := by omega
  have hy := or_two (size4x m (i + sz i - 1))
  have hy' := size4x_lt m (i + sz i - 1)
  refine ⟨setTags m i (sz i) (sz i * 4 ||| 1 ||| (size4x m (i - 1) &&& 2))
    (size4x m (i + sz i - 1) ||| 2), ?_, h.setTags_same h.core.sub hC hU _ _, ?_⟩
  · rw [memsys3Checkout, if_pos hcond]
    simp only
    rw [size4x_after (by omega) hx']
    rfl
  · apply h.tagged hC (fun hc => hc.2.2 hM)
    · exact Finset.insert_subset hC h.core.sub
    · intro j hj
      rw [Finset.mem_insert]
      exact ⟨fun hc => hc.resolve_left hj, Or.inr⟩
    · intro j hj
      rw [Finset.mem_erase]
      exact ⟨fun hc => hc.2, fun hc => ⟨hj, hc⟩⟩
    · exact ⟨fun _ => Finset.notMem_erase i M, fun _ => Finset.mem_insert_self i U⟩
    · exact hx'
    · omega
    · omega
    · exact ⟨fun _ => Finset.mem_insert_self i U, fun _ => by omega⟩
    · omega
    · omega
    · exact ⟨fun _ => Finset.mem_insert_self i U, fun _ => by omega⟩

/-- The writes of `memsys3FreeUnsafe` before the chunk is linked. -/
theorem Inv.giveBack (h : Inv m C U M sz fl) (hU : i ∈ U) :
    Same (U.erase i) sz m (setTags m i (sz i) (size4x m (i - 1) &&& 0xFFFFFFFE)
      (size4x m (i + sz i - 1) &&& 0xFFFFFFFD)) ∧
    Inv (setTags m i (sz i) (size4x m (i - 1) &&& 0xFFFFFFFE)
      (size4x m (i + sz i - 1) &&& 0xFFFFFFFD)) C (U.erase i) (insert i M) sz fl := by
  have hC := h.core.sub hU
  have hx' := size4x_lt m (i - 1)
  have hx := clear_used hx'
  have hy' := size4x_lt m (i + sz i - 1)
  have hy := clear_prev hy'
  have hsub : U.erase i ⊆ C := (Finset.erase_subset i U).trans h.core.sub
  have hsz := h.core.size i hC
  have hnot : i ∉ U.erase i := Finset.notMem_erase i U
  refine ⟨h.setTags_same hsub hC hnot _ _, ?_⟩
  apply h.tagged hC (fun hc => hc.2.1 hU) hsub
  · intro j hj
    rw [Finset.mem_erase]
    exact ⟨fun hc => hc.2, fun hc => ⟨hj, hc⟩⟩
  · intro j hj
    rw [Finset.mem_insert]
    exact ⟨fun hc => hc.resolve_left hj, Or.inr⟩
  · exact ⟨fun hc => absurd hc hnot, fun hc => absurd (Finset.mem_insert_self i M) hc⟩
  · omega
  · omega
  · omega
  · exact ⟨fun hc => by omega, fun hc => absurd hc hnot⟩
  · omega
  · omega
  · exact ⟨fun hc => by omega, fun hc => absurd hc hnot⟩

/-- Two free neighbours become one chunk. -/
theorem Inv.merge (h : Inv m C U M sz fl) (hi : i ∈ M) (hj : j ∈ M) (he : i + sz i = j)
    (hx : x = size4x m (i - 1) &&& 2) :
    Same U sz m (setFree m i (sz i + sz j) x) ∧
    Inv (setFree m i (sz i + sz j) x) (C.erase j) U (M.erase j)
      (Function.update sz i (sz i + sz j)) fl := by
  obtain ⟨hiC, hiU⟩ := h.free i hi
  obtain ⟨hjC, hjU⟩ := h.free j hj
  have hbi := h.core.bound hiC
  have hbj := h.core.bound hjC
  have hpos := h.core.pos hiC
  have hp := h.pool
  have hend : i + (sz i + sz j) - 1 = j + sz j - 1 := by omega
  have hij : i ≠ j := by omega
  subst hx
  have hv := free_header (sz i + sz j) (size4x m (i - 1))
  have w1 : prevSize (setFree m i (sz i + sz j) (size4x m (i - 1) &&& 2)) =
      Function.update (prevSize m) (j + sz j - 1) (sz i + sz j) := by
    unfold setFree
    rw [hend, prevSize_setPrevSize (by omega), prevSize_setSize4x]
  have w2 : size4x (setFree m i (sz i + sz j) (size4x m (i - 1) &&& 2)) =
      Function.update (size4x m) (i - 1)
        ((sz i + sz j) * 4 + size4x m (i - 1) / 2 % 2 * 2) := by
    unfold setFree
    rw [size4x_setPrevSize, size4x_setSize4x (by omega), hv]
  have hself : Function.update sz i (sz i + sz j) i = sz i + sz j := Function.update_self ..
  have hsz : ∀ {l}, l ≠ i → Function.update sz i (sz i + sz j) l = sz l :=
    fun hl => Function.update_of_ne hl _ _
  have hne : ∀ {l}, l ∈ U → l ≠ i := fun hl hc => hiU (hc ▸ hl)
  have hhead : ∀ {l}, l ∈ C ∨ l = m.nPool + 1 → l ≠ i → l - 1 ≠ i - 1 :=
    fun hl hli => h.core.header_ne hl (Or.inl hiC) hli
  constructor
  · have h1 : Same U sz m (setSize4x m (i - 1) ((sz i + sz j) * 4 ||| (size4x m (i - 1) &&& 2))) :=
      Same.setSize4x (h.core.header_user h.core.sub (Or.inl hiC)) (by omega) _
    have h2 := h1.trans (Same.setPrevSize (h.core.tail_user h.core.sub hjC hjU)
      (by rw [h1.nPool]; omega) (sz i + sz j))
    rw [← hend] at h2
    exact h2
  have w3 : (setFree m i (sz i + sz j) (size4x m (i - 1) &&& 2)).nPool = m.nPool := rfl
  constructor
  · exact hp
  · rw [w1, w2, w3]
    constructor
    · exact h.core.chunks.merge hiC hjC he
    · exact fun l hl => Finset.mem_erase.mpr ⟨fun hc => hjU (hc ▸ hl), h.core.sub hl⟩
    · intro l hl
      obtain ⟨hlj, hlC⟩ := Finset.mem_erase.mp hl
      by_cases hli : l = i
      · rw [hli, hself, Function.update_self]
        omega
      · rw [hsz hli, Function.update_of_ne (hhead (Or.inl hlC) hli)]
        exact h.core.size l hlC
    · intro l hl
      obtain ⟨hlj, hlC⟩ := Finset.mem_erase.mp hl
      by_cases hli : l = i
      · rw [hli, Function.update_self]
        exact ⟨fun hc => by omega, fun hc => absurd hc hiU⟩
      · rw [Function.update_of_ne (hhead (Or.inl hlC) hli)]
        exact h.core.used l hlC
    · intro l hl
      have hlC : l ∈ C ∨ l = m.nPool + 1 := hl.imp_left Finset.mem_of_mem_erase
      have hex : (∃ a ∈ U, a + Function.update sz i (sz i + sz j) a = l) ↔ ∃ a ∈ U, a + sz a = l := by
        constructor
        · rintro ⟨a, ha, hal⟩
          exact ⟨a, ha, by rwa [hsz (hne ha)] at hal⟩
        · rintro ⟨a, ha, hal⟩
          exact ⟨a, ha, by rwa [hsz (hne ha)]⟩
      rw [hex, ← h.core.prev l hlC]
      by_cases hli : l = i
      · have hbit : ((sz i + sz j) * 4 + size4x m (i - 1) / 2 % 2 * 2) / 2 % 2 =
          size4x m (i - 1) / 2 % 2 := by omega
        rw [hli, Function.update_self, hbit]
      · rw [Function.update_of_ne (hhead hlC hli)]
    · have hn : m.nPool ≠ i - 1 := by omega
      rw [Function.update_of_ne hn]
      exact h.core.last
    · intro l hl hu
      obtain ⟨hlj, hlC⟩ := Finset.mem_erase.mp hl
      by_cases hli : l = i
      · rw [hli, hself, hend, Function.update_self]
      · have hle : l + sz l ≠ j + sz j := fun hc => hlj (h.core.chunks.eq_of_end hlC hjC hc)
        rw [hsz hli, Function.update_of_ne (h.core.header_ne (h.core.next hlC) (h.core.next hjC) hle)]
        exact h.core.tail l hlC hu
  · intro l hl
    obtain ⟨hlj, hlM⟩ := Finset.mem_erase.mp hl
    obtain ⟨g1, g2⟩ := h.free l hlM
    exact ⟨Finset.mem_erase.mpr ⟨hlj, g1⟩, g2⟩
  · rw [w1, w2]
    apply h.lists.congr
    · intro l hl
      exact Function.update_of_ne (h.core.block_ne hl.1 (h.core.next hjC)) _ _
    · intro l hl
      exact Function.update_of_ne (h.core.block_ne hl.1 (Or.inl hiC)) _ _
    · intro l
      unfold Listed
      rw [Finset.mem_erase, Finset.mem_erase]
      constructor
      · rintro ⟨⟨h1, h2⟩, h3, h4⟩
        exact ⟨h2, h3, fun hc => h4 ⟨h1, hc⟩⟩
      · rintro ⟨h1, h2, h3⟩
        exact ⟨⟨fun hc => h3 (hc ▸ hj), h1⟩, h2, fun hc => h3 hc.2⟩
    · intro l hl
      exact hsz (fun hc => hl.2.2 (hc ▸ hi))

end Sqlite.Mem3

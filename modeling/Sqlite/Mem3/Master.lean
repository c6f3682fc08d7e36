import Sqlite.Mem3.Headers

/-! The master between the calls, and the chunks that are taken from it. -/
namespace Sqlite.Mem3
open Foundation

section

/-! A chunk is cut off from the end of the master. -/

variable {m m' : Mem3Global} {n i k x y : ℕ} {C U M : Finset ℕ} {sz : ℕ → ℕ} {fl : Root → List ℕ}
  {low low' high high' : ℕ → ℕ}

/-- The writes of `memsys3FromMaster`, for the master at `i` with `s` blocks. -/
def carve (m : Mem3Global) (i s k : ℕ) : Mem3Global :=
  let m := setPrevSize m (i + s - 1) k
  let m := setSize4x m (i + s - 1) (size4x m (i + s - 1) ||| 2)
  let m := setSize4x m (i + s - k - 1) (k * 4 + 1)
  let m := setPrevSize m (i + s - k - 1) (s - k)
  setSize4x m (i - 1) ((s - k) * 4 ||| (size4x m (i - 1) &&& 2))

/-- The sizes after that. -/
def carved (sz : ℕ → ℕ) (i k : ℕ) : ℕ → ℕ :=
  Function.update (Function.update sz i (sz i - k)) (i + (sz i - k)) k

theorem carved_new : carved sz i k (i + (sz i - k)) = k := Function.update_self ..

theorem carved_old (h : sz i - k ≠ 0) : carved sz i k i = sz i - k := by
  have hne : i ≠ i + (sz i - k) := by omega
  unfold carved
  rw [Function.update_of_ne hne, Function.update_self]

theorem carved_of_ne {j : ℕ} (h1 : j ≠ i) (h2 : j ≠ i + (sz i - k)) : carved sz i k j = sz j := by
  unfold carved
  rw [Function.update_of_ne h2, Function.update_of_ne h1]

theorem carve_words {s : ℕ} (hi : 1 ≤ i) (hk : 2 ≤ k) (hks : k + 2 ≤ s)
    (hs : i + s < 268435458) : ∃ x, x % 2 = 0 ∧ x / 4 = s - k ∧
      x / 2 % 2 = size4x m (i - 1) / 2 % 2 ∧
      prevSize (carve m i s k) =
        Function.update (Function.update (prevSize m) (i + s - 1) k) (i + s - k - 1) (s - k) ∧
      size4x (carve m i s k) = Function.update (Function.update (Function.update (size4x m)
        (i + s - 1) (size4x m (i + s - 1) ||| 2)) (i + s - k - 1) (k * 4 + 1)) (i - 1) x := by
  have hlt := size4x_lt m (i + s - 1)
  have hor := or_two (size4x m (i + s - 1))
  have h1 : i - 1 ≠ i + s - k - 1 := by omega
  have h2 : i - 1 ≠ i + s - 1 := by omega
  have hv := free_header (s - k) (size4x m (i - 1))
  refine ⟨(s - k) * 4 ||| (size4x m (i - 1) &&& 2), by omega, by omega, by omega, ?_, ?_⟩
  · unfold carve
    simp only
    rw [prevSize_setSize4x, prevSize_setPrevSize (by omega), prevSize_setSize4x,
      prevSize_setSize4x, prevSize_setPrevSize (by omega)]
  · unfold carve
    simp only
    have hx : size4x (setPrevSize (setSize4x (setSize4x (setPrevSize m (i + s - 1) k) (i + s - 1)
        (size4x (setPrevSize m (i + s - 1) k) (i + s - 1) ||| 2)) (i + s - k - 1) (k * 4 + 1))
        (i + s - k - 1) (s - k)) = Function.update (Function.update (size4x m) (i + s - 1)
          (size4x m (i + s - 1) ||| 2)) (i + s - k - 1) (k * 4 + 1) := by
      rw [size4x_setPrevSize, size4x_setSize4x (by omega), size4x_setPrevSize,
        size4x_setSize4x (by omega), size4x_setPrevSize]
    have hy : size4x (setPrevSize (setSize4x (setSize4x (setPrevSize m (i + s - 1) k) (i + s - 1)
        (size4x (setPrevSize m (i + s - 1) k) (i + s - 1) ||| 2)) (i + s - k - 1) (k * 4 + 1))
        (i + s - k - 1) (s - k)) (i - 1) = size4x m (i - 1) := by
      rw [hx, Function.update_of_ne h1, Function.update_of_ne h2]
    rw [hy, size4x_setSize4x (by omega), hx]

/-- A used chunk of `k` blocks at the end of a free one. -/
theorem Core.carve (h : Core n low high C U sz) (hi : i ∈ C) (hu : i ∉ U) (hk : 2 ≤ k)
    (hks : k + 2 ≤ sz i) (hlow : ∀ b, b ≠ i + (sz i - k) - 1 → b ≠ i + sz i - 1 → low' b = low b)
    (hhigh : ∀ b, b ≠ i - 1 → b ≠ i + (sz i - k) - 1 → b ≠ i + sz i - 1 → high' b = high b)
    (hmid : low' (i + (sz i - k) - 1) = sz i - k) (hnew : high' (i + (sz i - k) - 1) = k * 4 + 1)
    (hold : high' (i - 1) / 4 = sz i - k ∧ high' (i - 1) % 2 = 0)
    (hprev : high' (i - 1) / 2 % 2 = high (i - 1) / 2 % 2)
    (hend : high' (i + sz i - 1) / 4 = high (i + sz i - 1) / 4 ∧
      high' (i + sz i - 1) % 2 = high (i + sz i - 1) % 2 ∧ high' (i + sz i - 1) / 2 % 2 = 1) :
    Core n low' high' (insert (i + (sz i - k)) C) (insert (i + (sz i - k)) U) (carved sz i k) := by
  have hb := h.bound hi
  have hpos := h.pos hi
  have hself := @carved_new i k sz
  have hself' : carved sz i k i = sz i - k := carved_old (by omega)
  have hchunks : Chunks 1 (n + 1) (insert (i + (sz i - k)) C) (carved sz i k) := h.chunks.split hi hk hks
  have hnext := h.next hi
  generalize hq : i + (sz i - k) = q at *
  have hqC : q ∉ C := by
    intro hc
    have := h.chunks.apart i hi q hc (by omega)
    omega
  have hsz : ∀ {l}, l ∈ C → l ≠ i → carved sz i k l = sz l :=
    fun hl hli => carved_of_ne hli (fun hc => hqC (by rw [← hq, ← hc]; exact hl))
  have hhead : ∀ {j}, j ∈ C ∨ j = n + 1 → j ≠ i → j ≠ i + sz i → high' (j - 1) = high (j - 1) := by
    intro j hj h1 h2
    refine hhigh _ (h.header_ne hj (.inl hi) h1) ?_ (h.header_ne hj hnext h2)
    have hjpos : 1 ≤ j := by
      rcases hj with hj | rfl
      · exact h.pos hj
      · omega
    intro hc
    have hjq : j = q := by omega
    rcases hj with hj | rfl
    · exact hqC (hjq ▸ hj)
    · omega
  have hqe : q + k = i + sz i := by omega
  have hborder : ∀ {l}, l ∈ C ∨ l = n + 1 → l ≠ q := by
    rintro l (hl | rfl)
    · exact fun hc => hqC (hc ▸ hl)
    · omega
  have hex : ∀ l, (∃ j ∈ insert q U, j + carved sz i k j = l) ↔ l = i + sz i ∨ ∃ j ∈ U, j + sz j = l := by
    have hUsz : ∀ {j}, j ∈ U → carved sz i k j = sz j := fun hj => hsz (h.sub hj) fun hc => hu (hc ▸ hj)
    intro l
    constructor
    · rintro ⟨j, hj, hjl⟩
      rcases Finset.mem_insert.mp hj with rfl | hj
      · rw [hself] at hjl
        exact .inl (hjl.symm.trans hqe)
      · rw [hUsz hj] at hjl
        exact .inr ⟨j, hj, hjl⟩
    · rintro (rfl | ⟨j, hj, hjl⟩)
      · exact ⟨q, Finset.mem_insert_self _ _, by rw [hself, hqe]⟩
      · exact ⟨j, Finset.mem_insert_of_mem hj, by rw [hUsz hj, hjl]⟩
  constructor
  · exact hchunks
  · exact Finset.insert_subset_insert q h.sub
  · intro j hj
    rcases Finset.mem_insert.mp hj with rfl | hj
    · rw [hnew, hself]
      omega
    by_cases hji : j = i
    · rw [hji, hself']
      exact hold.1
    rw [hsz hj hji]
    by_cases hje : j = i + sz i
    · rw [hje, hend.1, ← hje]
      exact h.size j hj
    · rw [hhead (.inl hj) hji hje]
      exact h.size j hj
  · intro j hj
    rcases Finset.mem_insert.mp hj with rfl | hj
    · rw [hnew]
      exact ⟨fun _ => Finset.mem_insert_self _ _, fun _ => by omega⟩
    have hjq : j ≠ q := fun hc => hqC (hc ▸ hj)
    rw [Finset.mem_insert, or_iff_right hjq]
    by_cases hji : j = i
    · rw [hji, hold.2]
      exact ⟨fun hc => by omega, fun hc => absurd hc hu⟩
    by_cases hje : j = i + sz i
    · rw [hje, hend.2.1, ← hje]
      exact h.used j hj
    · rw [hhead (.inl hj) hji hje]
      exact h.used j hj
  · intro l hl
    rw [hex]
    by_cases hlq : l = q
    · have hbit : ¬ (k * 4 + 1) / 2 % 2 = 1 := by omega
      rw [hlq, hnew]
      refine iff_of_false hbit ?_
      rintro (hc | hc | ⟨j, hj, hjl⟩)
      · omega
      · omega
      · exact hborder (h.next (h.sub hj)) hjl
    have hlC : l ∈ C ∨ l = n + 1 := hl.imp_left fun hc => (Finset.mem_insert.mp hc).resolve_left hlq
    by_cases hle : l = i + sz i
    · rw [hle]
      exact iff_of_true hend.2.2 (.inr (.inl rfl))
    rw [or_iff_right hle, ← h.prev l hlC]
    by_cases hli : l = i
    · rw [hli, hprev]
    · rw [hhead hlC hli hle]
  · by_cases hne : n + 1 = i + sz i
    · have hn : n = i + sz i - 1 := by omega
      have hl := h.last
      rw [hn] at hl ⊢
      rw [hend.1, hend.2.1]
      exact hl
    · have hn : high' n = high n := hhigh n (by omega) (by omega) (by omega)
      rw [hn]
      exact h.last
  · intro j hj hju
    rcases Finset.mem_insert.mp hj with rfl | hj
    · exact absurd (Finset.mem_insert_self _ _) hju
    by_cases hji : j = i
    · rw [hji, hself', hq]
      exact hmid
    rw [hsz hj hji]
    have hne : j + sz j ≠ i + sz i := fun hc => hji (h.chunks.eq_of_end hj hi hc)
    have hjU : j ∉ U := fun hc => hju (Finset.mem_insert_of_mem hc)
    have hjq := hborder (h.next hj)
    have hjpos := h.pos hj
    rw [hlow _ (by omega) (h.header_ne (h.next hj) hnext hne)]
    exact h.tail j hj hjU

theorem Inv.carve (h : Inv m C U M sz fl) (hM : i ∈ M) (hk : 2 ≤ k) (hks : k + 2 ≤ sz i) :
    Same U sz m (carve m i (sz i) k) ∧
      Inv (carve m i (sz i) k) (insert (i + (sz i - k)) C) (insert (i + (sz i - k)) U) M
        (carved sz i k) fl := by
  obtain ⟨hC, hU⟩ := h.free i hM
  have hb := h.core.bound hC
  have hpos := h.core.pos hC
  have hp := h.pool
  have hq : i + sz i - k = i + (sz i - k) := by omega
  obtain ⟨x, hx1, hx2, hx3, w1, w2⟩ := @carve_words m i k (sz i) hpos hk hks (by omega)
  rw [hq] at w1 w2
  have hor := or_two (size4x m (i + sz i - 1))
  have h1 : i - 1 ≠ i + (sz i - k) - 1 := by omega
  have h2 : i - 1 ≠ i + sz i - 1 := by omega
  have h3 : i + (sz i - k) - 1 ≠ i + sz i - 1 := by omega
  have hqC : i + (sz i - k) ∉ C := by
    intro hc
    have := h.core.chunks.apart i hC _ hc (by omega)
    omega
  have hout : ∀ j ∈ U, ¬ (j ≤ i + (sz i - k) - 1 ∧ i + (sz i - k) - 1 < j + sz j) := by
    rintro j hj ⟨hle, hlt⟩
    have hne : j ≠ i := fun hc => hU (hc ▸ hj)
    rcases Nat.lt_or_gt_of_ne hne with hji | hji
    · have := h.core.chunks.apart j (h.core.sub hj) i hC hji
      omega
    · have := h.core.chunks.apart i hC j (h.core.sub hj) hji
      omega
  constructor
  · unfold Mem3.carve
    dsimp only
    rw [hq]
    have s1 : Same U sz m (setPrevSize m (i + sz i - 1) k) :=
      Same.setPrevSize (h.core.tail_user h.core.sub hC hU) (by omega) k
    generalize setPrevSize m (i + sz i - 1) k = m1 at s1 ⊢
    have s2 := s1.trans (Same.setSize4x (h.core.header_user h.core.sub (h.core.next hC))
      (by rw [s1.nPool]; omega) (size4x m1 (i + sz i - 1) ||| 2))
    generalize setSize4x m1 (i + sz i - 1) (size4x m1 (i + sz i - 1) ||| 2) = m2 at s2 ⊢
    have s3 := s2.trans (Same.setSize4x (fun j hj hc => hout j hj ⟨hc.1, by omega⟩)
      (by rw [s2.nPool]; omega) (k * 4 + 1))
    generalize setSize4x m2 (i + (sz i - k) - 1) (k * 4 + 1) = m3 at s3 ⊢
    have s4 := s3.trans (Same.setPrevSize hout (by rw [s3.nPool]; omega) (sz i - k))
    exact s4.trans (Same.setSize4x (h.core.header_user h.core.sub (.inl hC))
      (by rw [s4.nPool]; omega) _)
  constructor
  · exact hp
  · refine h.core.carve hC hU hk hks ?_ ?_ ?_ ?_ ⟨?_, ?_⟩ ?_ ⟨?_, ?_, ?_⟩
    · intro b hb1 hb2
      rw [w1, Function.update_of_ne hb1, Function.update_of_ne hb2]
    · intro b hb1 hb2 hb3
      rw [w2, Function.update_of_ne hb1, Function.update_of_ne hb2, Function.update_of_ne hb3]
    · rw [w1, Function.update_self]
    · rw [w2, Function.update_of_ne h1.symm, Function.update_self]
    · rw [w2, Function.update_self]
      exact hx2
    · rw [w2, Function.update_self]
      exact hx1
    · rw [w2, Function.update_self]
      exact hx3
    · rw [w2, Function.update_of_ne h2.symm, Function.update_of_ne h3.symm, Function.update_self]
      omega
    · rw [w2, Function.update_of_ne h2.symm, Function.update_of_ne h3.symm, Function.update_self]
      omega
    · rw [w2, Function.update_of_ne h2.symm, Function.update_of_ne h3.symm, Function.update_self]
      omega
  · intro j hj
    obtain ⟨hjC, hjU⟩ := h.free j hj
    refine ⟨Finset.mem_insert_of_mem hjC, fun hc => ?_⟩
    rcases Finset.mem_insert.mp hc with rfl | hc
    · exact hqC hjC
    · exact hjU hc
  · have hbefore {l : ℕ} (hl : l ∈ C) (hlU : l ∉ U) (hli : l ≠ i) : l ≠ i + (sz i - k) - 1 := by
      intro hc
      rcases Nat.lt_or_gt_of_ne hli with hlt | hlt
      · have := h.core.chunks.apart l hl i hC hlt
        have := (h.core.bound hl).2
        omega
      · have := h.core.chunks.apart i hC l hl hlt
        omega
    apply h.lists.congr
    · intro l hl
      have hli : l ≠ i := fun hc => hl.2.2 (hc ▸ hM)
      rw [w1, Function.update_of_ne (hbefore hl.1 hl.2.1 hli),
        Function.update_of_ne (h.core.block_ne hl.1 (h.core.next hC))]
    · intro l hl
      have hli : l ≠ i := fun hc => hl.2.2 (hc ▸ hM)
      rw [w2, Function.update_of_ne (h.core.block_ne hl.1 (.inl hC)),
        Function.update_of_ne (hbefore hl.1 hl.2.1 hli),
        Function.update_of_ne (h.core.block_ne hl.1 (h.core.next hC))]
    · intro l
      unfold Listed
      rw [Finset.mem_insert, Finset.mem_insert]
      constructor
      · rintro ⟨hl1, hl2, hl3⟩
        obtain ⟨hlq, hlU⟩ := not_or.mp hl2
        exact ⟨hl1.resolve_left hlq, hlU, hl3⟩
      · rintro ⟨hl1, hl2, hl3⟩
        have hlq : l ≠ i + (sz i - k) := fun hc => hqC (hc ▸ hl1)
        exact ⟨.inr hl1, not_or.mpr ⟨hlq, hl2⟩, hl3⟩
    · intro l hl
      exact carved_of_ne (fun hc => hl.2.2 (hc ▸ hM)) (fun hc => hqC (hc ▸ hl.1))

end

variable {m m' m'' : Mem3Global} {i k p : ℕ} {C U V M : Finset ℕ} {sz sz' sz'' : ℕ → ℕ}
  {fl : Root → List ℕ}

/-- The free chunks that are on no list: the master, when there is one. -/
def masterSet (m : Mem3Global) : Finset ℕ := if m.iMaster = 0 then ∅ else {m.iMaster}

theorem masterSet_zero (h : m.iMaster = 0) : masterSet m = ∅ := if_pos h

theorem masterSet_eq (h : m.iMaster = i) (h0 : i ≠ 0) : masterSet m = {i} := by
  unfold masterSet
  rw [h, if_neg h0]

theorem mem_masterSet : i ∈ masterSet m ↔ i = m.iMaster ∧ i ≠ 0 := by
  unfold masterSet
  split
  · rename_i h
    rw [h]
    exact ⟨fun hc => absurd hc (Finset.notMem_empty i), fun hc => absurd hc.1 hc.2⟩
  · rename_i h
    rw [Finset.mem_singleton]
    exact ⟨fun hc => ⟨hc, hc ▸ h⟩, fun hc => hc.1⟩

/-- The pool between the calls. -/
structure Good (m : Mem3Global) (C U : Finset ℕ) (sz : ℕ → ℕ) (fl : Root → List ℕ) : Prop extends
    Inv m C U (masterSet m) sz fl where
  master : m.szMaster = if m.iMaster = 0 then 0 else sz m.iMaster

/-- The bytes and the sizes of the chunks in `V` are the same. -/
structure Kept (V : Finset ℕ) (sz sz' : ℕ → ℕ) (m m' : Mem3Global) : Prop extends Rest V sz m m' where
  sizes : ∀ j ∈ V, sz' j = sz j

theorem Kept.refl (V : Finset ℕ) (sz : ℕ → ℕ) (m : Mem3Global) : Kept V sz sz m m :=
  ⟨Rest.refl V sz m, fun _ _ => rfl⟩

theorem Kept.trans (h : Kept V sz sz' m m') (h' : Kept V sz' sz'' m' m'') : Kept V sz sz'' m m'' := by
  have hrest : Rest V sz m' m'' := h'.toRest.mono (Finset.Subset.refl V) fun j hj => (h.sizes j hj).symm
  exact ⟨h.toRest.trans hrest, fun j hj => (h'.sizes j hj).trans (h.sizes j hj)⟩

theorem Kept.mono (h : Kept V sz sz' m m') (hsub : U ⊆ V) : Kept U sz sz' m m' :=
  ⟨h.toRest.mono hsub fun _ _ => rfl, fun j hj => h.sizes j (hsub hj)⟩

theorem Same.kept (h : Same V sz m m') (hs : ∀ j ∈ V, sz' j = sz j) : Kept V sz sz' m m' :=
  ⟨h.toRest, hs⟩

/-- The master and the flag are no words of the pool. -/
theorem Inv.withMaster (h : Inv m C U M sz fl) (busy : Bool) (mn a s : ℕ) :
    Inv { m with alarmBusy := busy, mnMaster := mn, iMaster := a, szMaster := s } C U M sz fl :=
  ⟨h.pool, h.core, h.free, h.lists⟩

theorem Good.iMaster_mem (h : Good m C U sz fl) (h0 : m.iMaster ≠ 0) :
    m.iMaster ∈ C ∧ m.iMaster ∉ U := h.free _ (mem_masterSet.mpr ⟨rfl, h0⟩)

/-- A master that is large enough serves the request. -/
theorem Good.fromMaster (h : Good m C U sz fl) (hk : 2 ≤ k) (hle : k ≤ m.szMaster) :
    ∃ m' p C' sz', memsys3FromMaster m k = some (m', p) ∧ Good m' C' (insert p U) sz' fl ∧ p ∉ U ∧
      k ≤ sz' p ∧ Kept U sz sz' m m' := by
  have h0 : m.iMaster ≠ 0 := by
    intro h0
    have hs := h.master
    rw [if_pos h0] at hs
    omega
  have hs : m.szMaster = sz m.iMaster := h.master.trans (if_neg h0)
  obtain ⟨hC, hU⟩ := h.iMaster_mem h0
  have hM : m.iMaster ∈ masterSet m := mem_masterSet.mpr ⟨rfl, h0⟩
  have hb := h.core.bound hC
  unfold memsys3FromMaster
  rw [if_neg (Nat.not_lt.mpr hle)]
  by_cases hall : m.szMaster - 1 ≤ k
  · rw [if_pos hall]
    obtain ⟨m1, hm1, hsame, hinv⟩ := h.checkout hM
    rw [masterSet_eq rfl h0, Finset.erase_singleton] at hinv
    rw [hs, hm1]
    refine ⟨_, m.iMaster, C, sz, rfl, ⟨?_, rfl⟩, hU, by omega, ?_⟩
    · exact hinv.withMaster m1.alarmBusy 0 0 0
    · exact ⟨⟨hsame.nPool, hsame.alarmBusy, hsame.keeps⟩, fun _ _ => rfl⟩
  · rw [if_neg hall]
    have hks : k + 2 ≤ sz m.iMaster := by omega
    obtain ⟨hsame, hinv⟩ := h.carve hM hk hks
    have hold : carved sz m.iMaster k m.iMaster = sz m.iMaster - k := carved_old (by omega)
    have hq : m.iMaster + (sz m.iMaster - k) ∉ C := by
      intro hc
      have := h.core.chunks.apart _ hC _ hc (by omega)
      omega
    have hp : m.iMaster + m.szMaster - k = m.iMaster + (sz m.iMaster - k) := by omega
    have hset : masterSet { Mem3.carve m m.iMaster m.szMaster k with
        szMaster := m.szMaster - k, mnMaster := min (m.szMaster - k) m.mnMaster } = masterSet m := rfl
    refine ⟨{ Mem3.carve m m.iMaster m.szMaster k with
        szMaster := m.szMaster - k, mnMaster := min (m.szMaster - k) m.mnMaster },
      m.iMaster + m.szMaster - k, insert (m.iMaster + (sz m.iMaster - k)) C,
      carved sz m.iMaster k, rfl, ⟨?_, ?_⟩, ?_, ?_, ?_⟩
    · rw [hset, hp, hs]
      exact hinv.withMaster _ _ m.iMaster _
    · show m.szMaster - k = if m.iMaster = 0 then 0 else carved sz m.iMaster k m.iMaster
      rw [if_neg h0, hold, hs]
    · rw [hp]
      exact fun hc => hq (h.core.sub hc)
    · rw [hp, carved_new]
    · rw [← hs] at hsame
      refine ⟨⟨hsame.nPool, hsame.alarmBusy, hsame.keeps⟩, fun j hj => carved_of_ne ?_ ?_⟩
      · exact fun hc => hU (hc ▸ hj)
      · exact fun hc => hq (hc ▸ h.core.sub hj)

end Sqlite.Mem3

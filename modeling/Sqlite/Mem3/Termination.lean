import Mathlib.Order.Lattice.Nat
import Sqlite.Mem3.Rounds

/-! When `memsys3MallocUnsafe` returns. -/
namespace Sqlite.Mem3
open Foundation

variable {s : Client} {m m' m₀ : Mem3Global} {i j k n p t nBlock : ℕ} {C C' U : Finset ℕ} {sz sz' : ℕ → ℕ}
  {fl fl' : Root → List ℕ} {nHeap nByte : ℤ} {z : ℕ → UInt8} {ρ : ℕ → List ℕ}

/-- The releases of the first `k` rounds. -/
def firstRounds (ρ : ℕ → List ℕ) (k : ℕ) : List (List ℕ) := (List.range k).map ρ

/-- `sqlite3_release_memory` frees live chunks, each once. -/
def Client.Frees (s : Client) (ρ : ℕ → List ℕ) : Prop :=
  ∀ k, (firstRounds ρ k).flatten.Nodup ∧ ∀ q ∈ (firstRounds ρ k).flatten, s.live q ≠ none

/-- The call returns after some number of rounds. -/
def Terminates (m : Mem3Global) (nByte : ℤ) (ρ : ℕ → List ℕ) : Prop :=
  ∃ k r, memsys3MallocUnsafe m nByte (firstRounds ρ k) = some r ∧ r ≠ .unfinished

theorem firstRounds_length : (firstRounds ρ k).length = k := by
  rw [firstRounds, List.length_map, List.length_range]

theorem firstRounds_succ : firstRounds ρ (k + 1) = firstRounds ρ k ++ [ρ k] := by
  rw [firstRounds, firstRounds, List.range_succ, List.map_append]
  rfl

theorem firstRounds_take (h : k ≤ n) : (firstRounds ρ n).take k = firstRounds ρ k := by
  rw [firstRounds, firstRounds, ← List.map_take, List.take_range, Nat.min_eq_left h]

theorem firstRounds_nil : firstRounds (fun _ => []) k = List.replicate k [] := by
  rw [firstRounds, List.map_const', List.length_range]

theorem frees_nothing (s : Client) : s.Frees fun _ => [] := by
  intro k
  rw [firstRounds_nil]
  have hnil : (List.replicate k ([] : List ℕ)).flatten = [] := List.flatten_replicate_nil
  rw [hnil]
  exact ⟨List.nodup_nil, fun q hq => absurd hq List.not_mem_nil⟩

theorem firstRounds_add (h : ∀ j, n ≤ j → ρ j = []) :
    firstRounds ρ (n + k) = firstRounds ρ n ++ List.replicate k [] := by
  induction k with
  | zero => rw [List.replicate_zero, List.append_nil, Nat.add_zero]
  | succ k ih =>
    rw [← Nat.add_assoc, firstRounds_succ, ih, h _ (Nat.le_add_right n k), List.replicate_succ',
      List.append_assoc]

/-- Nothing is left to release from some round on. -/
theorem releases_end (h : ∀ k, Releases U (firstRounds ρ k).flatten) : ∃ n, ∀ j, n ≤ j → ρ j = [] := by
  let f : ℕ → ℕ := fun k => (firstRounds ρ k).flatten.length
  have hsucc : ∀ k, f (k + 1) = f k + (ρ k).length := by
    intro k
    show (firstRounds ρ (k + 1)).flatten.length = _
    rw [firstRounds_succ, List.flatten_append, List.flatten_singleton, List.length_append]
  have hmono : Monotone f := by
    apply monotone_nat_of_le_succ
    intro k
    rw [hsucc]
    exact Nat.le_add_right _ _
  have hbdd : BddAbove (Set.range f) := by
    refine ⟨U.card, ?_⟩
    rintro x ⟨k, rfl⟩
    show (firstRounds ρ k).flatten.length ≤ U.card
    rw [← List.toFinset_card_of_nodup (h k).1]
    exact Finset.card_le_card fun q hq => (h k).2 q (List.mem_toFinset.mp hq)
  -- the round by which the most is released
  obtain ⟨n, hn⟩ := Nat.sSup_mem (Set.range_nonempty f) hbdd
  refine ⟨n, fun j hj => ?_⟩
  have hle : f (j + 1) ≤ sSup (Set.range f) := le_csSup hbdd ⟨j + 1, rfl⟩
  have hnj := hmono hj
  rw [hsucc] at hle
  exact List.eq_nil_of_length_eq_zero (by omega)

theorem Terminates.of_ends (hgo : ∀ released, memsys3MallocUnsafe m nByte released =
      coalesceLoop nBlock released t m) (h : Ends nBlock t m (firstRounds ρ n)) :
    Terminates m nByte ρ := by
  obtain ⟨k, hk, r, hr, hne⟩ := h
  rw [firstRounds_length] at hk
  rw [firstRounds_take hk] at hr
  exact ⟨k, r, by rw [hgo, hr], hne⟩

/-- A counter that comes to its limit ends the loop. -/
theorem Good.ends_of_limit (h : Good m C U sz fl) (hq : m.alarmBusy = false) (hk : 2 ≤ nBlock)
    (ht : t < 4294967296) (hr : Releases U (firstRounds ρ n).flatten)
    (hlim : m.nPool * 16 % 4294967296 ≤ t * 2 ^ n % 4294967296) :
    Ends nBlock t m (firstRounds ρ n) := by
  rcases h.steps hq hk ht hr with hend | ⟨m₁, C₁, sz₁, fl₁, g₁, q₁, k₁, hgo⟩
  · exact hend
  · apply Ends.of_null hgo
    rw [firstRounds_length, k₁.nPool]
    exact hlim

/-- A state whose free chunks are joined has none that could be joined once more. -/
theorem Joined.starts (h : Joined m.nPool C U C' sz') (g : Good m C U sz fl) :
    ∀ j ∈ C', j ∉ U → Starts U sz' j := by
  refine fun j hj hjU => (h.2 j hj hjU).resolve_right fun hc => ?_
  have h1 := Finset.card_le_card (Finset.filter_subset (fun i => j ≤ i ∧ i < j + sz' j) C)
  have h2 := g.card_le
  have h3 := Nat.lt_two_pow_self (n := m.nPool)
  omega

/-- Rounds enough join each run of free chunks, so one with the blocks ends the loop. -/
theorem Good.ends_of_clear {a b : ℕ} (h : Good m C U sz fl) (hq : m.alarmBusy = false)
    (hk : 2 ≤ nBlock) (ht : t < 4294967296) (hr : ∀ k, Releases U (firstRounds ρ k).flatten) (ha : 1 ≤ a)
    (hb : b ≤ m.nPool + 1) (hab : nBlock ≤ b - a) (hc : Clear U sz a b) :
    ∃ n, Ends nBlock t m (firstRounds ρ n) := by
  by_cases hlim : ∃ n, m.nPool * 16 % 4294967296 ≤ t * 2 ^ n % 4294967296
  · obtain ⟨n, hn⟩ := hlim
    exact ⟨n, h.ends_of_limit hq hk ht (hr n) hn⟩
  obtain ⟨n, hn⟩ := releases_end hr
  rcases h.steps hq hk ht (hr n) with hend | ⟨m₁, C₁, sz₁, fl₁, g₁, q₁, k₁, hgo⟩
  · exact ⟨n, hend⟩
  have hsub : Mem3.left U (firstRounds ρ n) ⊆ U := Finset.sdiff_subset
  have hc₁ : Clear (Mem3.left U (firstRounds ρ n)) sz₁ a b := hc.mono hsub k₁.sizes
  have hpool := k₁.nPool
  obtain ⟨k, -, m₂, p, C₂, sz₂, fl₂, hp, -⟩ | ⟨k, -, hk'⟩ |
    ⟨m₂, C₂, sz₂, fl₂, g₂, -, k₂, j₂, hs₂, -⟩ :=
      g₁.rounds m₁.nPool q₁ hk (Nat.mod_lt (t * 2 ^ (firstRounds ρ n).length) (by decide))
  · refine ⟨n + k, ?_⟩
    rw [firstRounds_add hn]
    apply Ends.of_eq
    · rw [hgo, hp]
    · exact fun hc => Result.noConfusion hc
  · rw [hpool, firstRounds_length, Nat.mod_mul_mod, Nat.mul_assoc, ← pow_add] at hk'
    exact absurd ⟨n + k, hk'⟩ hlim
  · exfalso
    have h1 : 1 ≤ m₁.nPool := by omega
    obtain ⟨hlt, hle⟩ := hs₂ h1
    have hb₂ : b ≤ m₂.nPool + 1 := by
      rw [k₂.nPool, hpool]
      exact hb
    obtain ⟨i, hi, hiU, hia, hbi⟩ := g₂.whole (j₂.starts g₁) ha (by omega) hb₂
      (hc₁.mono (Finset.Subset.refl _) k₂.sizes)
    have := hle i hi hiU
    omega

/-- The blocks of a chunk that a call checked out were free. -/
theorem Good.run_of_pointer (h : Good m C U sz fl) (h' : Good m' C' (insert p U) sz' fl') (hp : p ∉ U)
    (h0 : 0 < nBlock) (hn : nBlock ≤ sz' p) (hk : Kept U sz sz' m m') :
    ∃ a b l, FreeRun m a b l ∧ nBlock ≤ b - a := by
  have hpC := h'.core.sub (Finset.mem_insert_self p U)
  have hb := h'.core.bound hpC
  have hpos := h'.core.pos hpC
  rw [hk.nPool] at hb
  have hc : Clear U sz p (p + sz' p) := by
    intro j hj
    have hjC := h'.core.sub (Finset.mem_insert_of_mem hj)
    have hne : j ≠ p := fun hc => hp (hc ▸ hj)
    rw [← hk.sizes j hj]
    rcases Nat.lt_or_gt_of_ne hne with hlt | hlt
    · exact .inl (h'.core.chunks.apart j hjC p hpC hlt)
    · exact .inr (h'.core.chunks.apart p hpC j hjC hlt)
  have hsize : 0 < sz' p := h0.trans_le hn
  obtain ⟨a, b, l, hr, hle⟩ := h.run_of_clear hpos (by omega) hb.1 hc
  exact ⟨a, b, l, hr, by omega⟩

/-- Without the adjacent free blocks, and with a counter below its limit, the loop goes on. -/
theorem Good.unfinished (h : Good m C U sz fl) (hq : m.alarmBusy = false) (hk : 2 ≤ blocksFor nByte)
    (hrun : ¬ ∃ a b l, FreeRun m a b l ∧ blocksFor nByte ≤ b - a)
    (hlim : ∀ k, blocksFor nByte * 16 * 2 ^ k % 4294967296 < m.nPool * 16 % 4294967296) (n : ℕ) :
    memsys3MallocUnsafe m nByte (List.replicate n []) = some .unfinished := by
  obtain ⟨m', p, C', sz', fl', g, hp, hs, k, -, -⟩ | ⟨-, -, hgo⟩ := h.mallocUnsafe_steps hk
  · exact absurd (h.run_of_pointer g hp (by omega) hs k) hrun
  have ht : blocksFor nByte * 16 % 4294967296 < 4294967296 := Nat.mod_lt _ (by decide)
  have hcount : ∀ k, blocksFor nByte * 16 % 4294967296 * 2 ^ k % 4294967296 =
      blocksFor nByte * 16 * 2 ^ k % 4294967296 := fun k => Nat.mod_mul_mod _ _ _
  obtain ⟨k, -, m', p, C', sz', fl', -, g, hp, hs, k'⟩ | ⟨k, -, hk'⟩ |
    ⟨m', C', sz', fl', -, -, k', -, -, hc⟩ := h.rounds n hq hk ht
  · exact absurd (h.run_of_pointer g hp (by omega) hs k') hrun
  · rw [hcount] at hk'
    exact absurd (hlim k) (Nat.not_lt.mpr hk')
  · have hnil := hc []
    rw [List.append_nil, List.length_replicate, hcount, coalesceLoop_nil, k'.nPool,
      if_pos (hlim n)] at hnil
    rw [hgo, hnil]

/-- The call returns, whatever is released, just when there are enough adjacent free blocks or the
counter comes to its limit. -/
theorem memsys3MallocUnsafe_terminates_iff (hm : memsys3Init nHeap z = some m₀)
    (hn : nHeap ≤ 2147483647) (hs : Client.Reachable m₀ s) (hb : Request nByte) :
    (∀ ρ, s.Frees ρ → Terminates s.mem nByte ρ) ↔
      (∃ a b l, FreeRun s.mem a b l ∧ blocksFor nByte ≤ b - a) ∨
      ∃ k, s.mem.nPool * 16 % 4294967296 ≤ blocksFor nByte * 16 * 2 ^ k % 4294967296 := by
  obtain ⟨h2, -, hlt⟩ := hb.blocks
  rcases (hs.holds hm hn).2 with h | ⟨C, U, sz, fl, h⟩
  · constructor
    · refine fun _ => .inr ⟨0, ?_⟩
      have hpool := h.pool
      rw [pow_zero]
      omega
    · refine fun _ ρ _ => ⟨0, .null s.mem, ?_, fun hc => Result.noConfusion hc⟩
      rw [h.mallocUnsafe hb]
      exact congrArg some (usedUp_nil _)
  constructor
  · intro hall
    by_contra hc
    obtain ⟨hrun, hlim⟩ := not_or.mp hc
    obtain ⟨k, r, hr, hne⟩ := hall _ (frees_nothing s)
    have hbelow : ∀ k, blocksFor nByte * 16 * 2 ^ k % 4294967296 < s.mem.nPool * 16 % 4294967296 :=
      fun k => Nat.not_le.mp fun hc => hlim ⟨k, hc⟩
    rw [firstRounds_nil, h.unfinished h.busy h2 hrun hbelow] at hr
    exact hne (Option.some.inj hr).symm
  · intro hcond ρ hρ
    have hr : ∀ k, Releases U (firstRounds ρ k).flatten := fun k => h.releases (hρ k).1 (hρ k).2
    obtain ⟨m', p, C', sz', fl', -, -, -, -, -, hgo⟩ | ⟨-, -, hgo⟩ := h.mallocUnsafe_steps h2
    · exact ⟨0, .pointer m' p, hgo _, fun hc => Result.noConfusion hc⟩
    have ht : blocksFor nByte * 16 % 4294967296 < 4294967296 := Nat.mod_lt _ (by decide)
    rcases hcond with ⟨a, b, l, hrun, hab⟩ | ⟨k, hk⟩
    · obtain ⟨ha, hbn, hc⟩ := h.run_bounds hrun
      obtain ⟨n, hend⟩ := h.ends_of_clear h.busy h2 ht hr ha hbn hab hc
      exact Terminates.of_ends hgo hend
    · rw [← Nat.mod_mul_mod (blocksFor nByte * 16)] at hk
      exact Terminates.of_ends hgo (h.ends_of_limit h.busy h2 ht (hr k) hk)

/-- A pool of `n` blocks as it was initialised. -/
def pool (n : ℕ) : Client :=
  ⟨setSize4x (setPrevSize (setSize4x ⟨n, fun _ => 0, false, n, 1, n, fun _ => 0⟩ 0 (n * 4 + 2)) n n) n 1,
    fun _ => none⟩

theorem memsys3Init_pool (n : ℕ) (hn : 8 * (n : ℤ) + 16 ≤ 2147483647) :
    memsys3Init (8 * n + 16) (fun _ => 0) = some (pool n).mem := by
  obtain ⟨m₀, hm₀⟩ := memsys3Init_of_le (by omega) hn fun _ => 0
  obtain ⟨-, k, hk, rfl⟩ := memsys3Init_some hm₀ hn
  obtain rfl : k = n := by omega
  exact hm₀

/-- The next state of a run. -/
def Client.next (s : Client) (op : Op) : Client := ((s.step op).join).getD s

theorem Client.Reachable.next {op : Op} (h : Client.Reachable m s) (ha : s.Admits op)
    (hs : (s.step op).join.isSome = true) : Client.Reachable m (s.next op) := by
  obtain ⟨s', hs'⟩ := Option.isSome_iff_exists.mp hs
  have hnext : s.next op = s' := by rw [Client.next, hs', Option.getD_some]
  rw [hnext]
  exact h.step ha (Option.join_eq_some_iff.mp hs')

theorem Client.Reachable.malloc (h : Client.Reachable m s) (hb : Request nByte)
    (hs : (s.step (.malloc nByte [])).join.isSome = true) :
    Client.Reachable m (s.next (.malloc nByte [])) :=
  h.next ⟨hb, List.nodup_nil, fun _ hq => absurd hq List.not_mem_nil⟩ hs

theorem Client.Reachable.free (h : Client.Reachable m s) (hp : s.live p ≠ none)
    (hs : (s.step (.free p)).join.isSome = true) : Client.Reachable m (s.next (.free p)) := h.next hp hs

/-- The ten blocks of a pool were checked out in pairs, and all but the last pair were given back. -/
def fragmented : Client :=
  let s := (((((pool 10).next (.malloc 8 [])).next (.malloc 8 [])).next (.malloc 8 [])).next
    (.malloc 8 [])).next (.malloc 8 [])
  (((s.next (.free 3)).next (.free 1)).next (.free 5)).next (.free 7)

theorem fragmented_reachable : Client.Reachable (pool 10).mem fragmented := by
  have h8 : Request 8 := ⟨by decide, by decide⟩
  have h₀ : Client.Reachable (pool 10).mem (pool 10) := .init
  have h₂ := (h₀.malloc h8 (by decide +kernel)).malloc h8 (by decide +kernel)
  have h₄ := (h₂.malloc h8 (by decide +kernel)).malloc h8 (by decide +kernel)
  have h₅ := h₄.malloc h8 (by decide +kernel)
  refine (((h₅.free ?_ ?_).free ?_ ?_).free ?_ ?_).free ?_ ?_
  all_goals decide +kernel

theorem fragmented_run : FreeRun fragmented.mem 1 9 [1, 3, 5, 7] := by
  have hsize : ∀ i ∈ [1, 3, 5, 7], chunkSize fragmented.mem i = 2 := by decide +kernel
  have hfree : ∀ i ∈ [1, 3, 5, 7], size4x fragmented.mem (i - 1) % 2 = 0 := by decide +kernel
  refine ⟨⟨[], .done⟩, ?_, hfree⟩
  have hwalk : Walk (fun _ => 2) 9 1 [1, 3, 5, 7] := .chunk (.chunk (.chunk (.chunk .done)))
  exact hwalk.congr hsize

/-- The free chunks have two blocks each, and there is no master: the loop is entered for the eight
blocks. -/
theorem memsys3MallocUnsafe_terminates_iff_fragmented :
    memsys3Init 96 (fun _ => 0) = some (pool 10).mem ∧ Client.Reachable (pool 10).mem fragmented ∧
      ∀ ρ, fragmented.Frees ρ → Terminates fragmented.mem 60 ρ := by
  have hinit : memsys3Init 96 (fun _ => 0) = some (pool 10).mem := memsys3Init_pool 10 (by decide)
  refine ⟨hinit, fragmented_reachable, ?_⟩
  exact (memsys3MallocUnsafe_terminates_iff hinit (by decide) fragmented_reachable
    ⟨by decide, by decide⟩).mpr (.inl ⟨1, 9, _, fragmented_run, by decide⟩)

theorem doubling (k : ℕ) : 2 * 16 * 2 ^ k % 4294967296 ≤ 2147483648 := by
  by_cases hk : k ≤ 26
  · have hpow : 2 ^ k ≤ 2 ^ 26 := Nat.pow_le_pow_right (by decide) hk
    have hle := Nat.mod_le (2 * 16 * 2 ^ k) 4294967296
    omega
  · obtain ⟨d, rfl⟩ := Nat.exists_eq_add_of_le' (Nat.not_le.mp hk)
    rw [pow_add]
    omega

/-- The counter is doubled to 0 in a pool of more than `2 ^ 27` blocks that are all in use. -/
theorem memsys3MallocUnsafe_loops :
    ∃ m₀ s, memsys3Init 1073741848 (fun _ => 0) = some m₀ ∧ Client.Reachable m₀ s ∧ Request 1 ∧
      ¬ ∀ ρ, s.Frees ρ → Terminates s.mem 1 ρ := by
  have h16 : (16 : ℤ) ≤ 1073741848 := by decide
  obtain ⟨m₀, hm₀⟩ := memsys3Init_of_le h16 (by decide) fun _ => 0
  obtain ⟨-, n, hn, rfl⟩ := memsys3Init_some hm₀ (by decide)
  obtain rfl : n = 134217729 := by omega
  have h := Holds.init (n := 134217729) (by decide) (by decide) fun _ => 0
  generalize hm : setSize4x (setPrevSize (setSize4x ⟨134217729, fun _ => 0, false, 134217729, 1,
    134217729, fun _ => 0⟩ 0 (134217729 * 4 + 2)) 134217729 134217729) 134217729 1 = m₀ at hm₀ h
  have hmaster : m₀.szMaster = 134217729 := by rw [← hm]; rfl
  have hpool : m₀.nPool = 134217729 := by rw [← hm]; rfl
  have g₀ : Good m₀ {1} ∅ (fun _ => 134217729) fun _ => [] := h.toGood
  have hbusy : m₀.alarmBusy = false := h.busy
  have hall : blocksFor 1073741828 = 134217729 := by decide
  have hall2 : 2 ≤ blocksFor 1073741828 := by decide
  -- the whole pool is asked for
  obtain ⟨m', p, C', sz', fl', g, hp, hs, k, -, hgo⟩ | ⟨-, hlt, -⟩ := g₀.mallocUnsafe_steps hall2
  swap
  · exact absurd hlt (by omega)
  have hone : Client.step ⟨m₀, fun _ => none⟩ (.malloc 1073741828 []) = some (some
      ⟨m', Function.update (Client.remaining ⟨m₀, fun _ => none⟩ []) p (some 1073741828)⟩) := by
    have hmalloc : memsys3Malloc m₀ 1073741828 [] = some (.pointer m' p) := by
      rw [memsys3Malloc, if_pos (by decide), hgo, usedUp_nil]
    simp only [Client.step, hmalloc]
  have hreq : Request 1073741828 := ⟨by decide, by decide⟩
  have hadmits : Client.Admits ⟨m₀, fun _ => none⟩ (.malloc 1073741828 []) :=
    ⟨hreq, List.nodup_nil, fun q hq => absurd hq List.not_mem_nil⟩
  refine ⟨m₀, _, hm₀, .step .init hadmits hone, ⟨by decide, by decide⟩, fun hend => ?_⟩
  obtain ⟨d, r, hr, hne⟩ := hend _ (frees_nothing _)
  have hb := g.core.bound (g.core.sub (Finset.mem_insert_self p ∅))
  have hrun : ¬ ∃ a b l, FreeRun m' a b l ∧ blocksFor 1 ≤ b - a := by
    rintro ⟨a, b, l, hrun, hab⟩
    obtain ⟨h1, h2, h3⟩ := g.run_bounds hrun
    have hp' := h3 p (Finset.mem_insert_self p ∅)
    have htwo : blocksFor 1 = 2 := rfl
    rw [k.nPool, hpool] at h2 hb
    omega
  have hlim : ∀ d, blocksFor 1 * 16 * 2 ^ d % 4294967296 < m'.nPool * 16 % 4294967296 := by
    intro d
    rw [k.nPool, hpool]
    exact Nat.lt_of_le_of_lt (doubling d) (by decide)
  rw [firstRounds_nil, g.unfinished (k.alarmBusy.trans hbusy) (by decide) hrun hlim] at hr
  exact hne (Option.some.inj hr).symm

end Sqlite.Mem3

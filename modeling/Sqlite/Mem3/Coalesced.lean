import Sqlite.Mem3.Termination

/-! When `memsys3MallocUnsafe` finds the adjacent free blocks that there are. -/
namespace Sqlite.Mem3
open Foundation

section

variable {s : Client} {m m' m₀ : Mem3Global} {a b i j k n p t nBlock : ℕ} {C C' U : Finset ℕ}
  {sz sz' : ℕ → ℕ} {fl fl' : Root → List ℕ} {nHeap nByte : ℤ} {z : ℕ → UInt8} {l : List ℕ}
  {ps : List ℕ} {released more : List (List ℕ)}

/-- The chunks from `i` on, by their headers. -/
def chunksFrom (m : Mem3Global) : ℕ → ℕ → List ℕ
  | 0, _ => []
  | n + 1, i => if i ≤ m.nPool then i :: chunksFrom m n (i + chunkSize m i) else []

/-- The chunks that are linked behind `i`, with `i`. -/
def linkedFrom (m : Mem3Global) : ℕ → ℕ → List ℕ
  | 0, _ => []
  | n + 1, i => if i = 0 then [] else i :: linkedFrom m n (next m i)

/-- The free chunks by the words of the pool. -/
def layoutOf (m : Mem3Global) : Layout :=
  ⟨fun i => if i ∈ chunksFrom m m.nPool 1 ∧ size4x m (i - 1) % 2 = 0 then chunkSize m i else 0,
    fun r => linkedFrom m m.nPool (m.root r), m.iMaster, m.szMaster⟩

/-- The loop has time for `n + 1` rounds, and after them a chunk has the blocks. -/
def RoundsServe (m : Mem3Global) (nBlock n : ℕ) : Prop :=
  (∀ k ≤ n, nBlock * 16 * 2 ^ k % 4294967296 < m.nPool * 16 % 4294967296) ∧
    nBlock ≤ (Layout.rounds m.nPool (n + 1) (layoutOf m)).szMaster

/-- The first or the second step serves the request, or the joins of the third do. -/
def Served (m : Mem3Global) (nBlock : ℕ) : Prop :=
  (∃ i, FreeRun m i (i + nBlock) [i]) ∨ nBlock ≤ m.szMaster ∨ ∃ n, RoundsServe m nBlock n

/-- Some adjacent free chunks have the blocks. -/
def HasRun (m : Mem3Global) (nBlock : ℕ) : Prop := ∃ a b l, FreeRun m a b l ∧ nBlock ≤ b - a

/-- A chunk is returned when there are the blocks for it, and null only when there are not; nothing is
released. -/
def CoalescesFirst (m : Mem3Global) (nByte : ℤ) : Prop :=
  (HasRun m (blocksFor nByte) →
    ∃ k m' p, memsys3MallocUnsafe m nByte (List.replicate k []) = some (.pointer m' p)) ∧
  ∀ k m', memsys3MallocUnsafe m nByte (List.replicate k []) = some (.null m') →
    ¬ HasRun m (blocksFor nByte)

theorem chunksFrom_eq (hw : Walk (chunkSize m) (m.nPool + 1) i l) (hl : ∀ j ∈ l, 0 < chunkSize m j)
    (hn : m.nPool + 1 - i ≤ n) : chunksFrom m n i = l := by
  induction hw generalizing n with
  | done =>
    cases n with
    | zero => rfl
    | succ n => exact if_neg (Nat.not_succ_le_self _)
  | @chunk i l hw ih =>
    have hpos := hl i List.mem_cons_self
    have hle := hw.le
    cases n with
    | zero => omega
    | succ n =>
      rw [chunksFrom, if_pos (by omega), ih (fun j hj => hl j (List.mem_cons_of_mem _ hj)) (by omega)]

theorem linkedFrom_eq {p : Option ℕ}
    (hl : Links (fun i => toPtr (next m i)) (fun i => toPtr (prev m i)) p l)
    (hi : toPtr i = l.head?) (hn : l.length ≤ n) : linkedFrom m n i = l := by
  induction l generalizing n i p with
  | nil =>
    obtain rfl := toPtr_eq_none.mp hi
    cases n <;> rfl
  | cons j l ih =>
    obtain ⟨rfl, h0⟩ := toPtr_eq_some.mp hi
    obtain ⟨-, hnext, hl⟩ := hl
    cases n with
    | zero => exact absurd hn (Nat.not_succ_le_zero _)
    | succ n => rw [linkedFrom, if_neg h0, ih hl hnext (Nat.le_of_succ_le_succ hn)]

theorem Good.layoutOf_eq (h : Good m C U sz fl) : layoutOf m = laid m C U sz fl := by
  obtain ⟨l, hw, hl⟩ := h.core.chunks.walk
  have hsize : ∀ i ∈ l, chunkSize m i = sz i := fun i hi => h.chunkSize_eq i ((hl i).mp hi)
  have hchunks : chunksFrom m m.nPool 1 = l := by
    refine chunksFrom_eq (hw.congr hsize) (fun j hj => ?_) (by omega)
    have := (h.core.bound ((hl j).mp hj)).2
    rw [hsize j hj]
    omega
  refine Layout.ext (funext fun i => ?_) (funext fun r => ?_) rfl rfl
  · show (if i ∈ chunksFrom m m.nPool 1 ∧ size4x m (i - 1) % 2 = 0 then chunkSize m i else 0) =
      if i ∈ C ∧ i ∉ U then sz i else 0
    rw [hchunks]
    by_cases hi : i ∈ C
    · have hfree : size4x m (i - 1) % 2 = 0 ↔ i ∉ U := by
        rw [← h.core.used i hi]
        omega
      rw [h.chunkSize_eq i hi]
      exact if_congr (and_congr (hl i) hfree) rfl rfl
    · rw [if_neg fun hc => hi ((hl i).mp hc.1), if_neg fun hc => hi hc.1]
  · exact linkedFrom_eq (h.lists.links r) (h.lists.head r) (h.list_le r)

/-- The loop comes to a chunk when the joins do, and there is time. -/
theorem Good.pointer_of_rounds (h : Good m C U sz fl) (hq : m.alarmBusy = false) (hk : 2 ≤ nBlock)
    (ht : t < 4294967296) (htime : ∀ k ≤ n, t * 2 ^ k % 4294967296 < m.nPool * 16 % 4294967296)
    (hs : nBlock ≤ (Layout.rounds m.nPool (n + 1) (laid m C U sz fl)).szMaster) :
    ∃ k m' p, Mem3.coalesceLoop nBlock (List.replicate k []) t m = some (.pointer m' p) := by
  induction n generalizing m C sz fl t with
  | zero =>
    have hlt := htime 0 le_rfl
    rw [pow_zero, Nat.mul_one, Nat.mod_eq_of_lt ht] at hlt
    obtain ⟨m₁, C₁, sz₁, fl₁, o, hm, ⟨p, rfl, -⟩ | ⟨-, -, hsmall, -, -, hl⟩⟩ := h.coalesce hq hk
    · exact ⟨1, m₁, p, coalesceLoop_some hlt hm⟩
    · rw [Layout.rounds, Layout.rounds, ← hl] at hs
      exact absurd hsmall (Nat.not_lt.mpr hs)
  | succ n ih =>
    have hlt := htime 0 (Nat.zero_le _)
    rw [pow_zero, Nat.mul_one, Nat.mod_eq_of_lt ht] at hlt
    obtain ⟨m₁, C₁, sz₁, fl₁, o, hm, ⟨p, rfl, -⟩ | ⟨rfl, g₁, -, k₁, -, hl⟩⟩ := h.coalesce hq hk
    · exact ⟨1, m₁, p, coalesceLoop_some hlt hm⟩
    rw [Layout.rounds, ← hl, ← k₁.nPool] at hs
    obtain ⟨k, m', p, hgo⟩ := ih g₁ (k₁.alarmBusy.trans hq) (Nat.mod_lt (t * 2) (by decide))
      (fun k hk => by
        rw [Nat.mod_mul_mod, Nat.mul_assoc, ← pow_succ', k₁.nPool]
        exact htime (k + 1) (Nat.succ_le_succ hk)) hs
    exact ⟨k + 1, m', p, by rw [List.replicate_succ, coalesceLoop_none hlt hm, hgo]⟩

/-- A chunk that the loop comes to is one that the joins came to in time. -/
theorem Good.rounds_of_pointer (h : Good m C U sz fl) (hq : m.alarmBusy = false) (hk : 2 ≤ nBlock)
    (ht : t < 4294967296)
    (hp : Mem3.coalesceLoop nBlock (List.replicate k []) t m = some (.pointer m' p)) :
    ∃ n, (∀ k ≤ n, t * 2 ^ k % 4294967296 < m.nPool * 16 % 4294967296) ∧
      nBlock ≤ (Layout.rounds m.nPool (n + 1) (laid m C U sz fl)).szMaster := by
  induction k generalizing m C sz fl t with
  | zero =>
    rw [List.replicate_zero, coalesceLoop_nil] at hp
    split at hp <;> exact Result.noConfusion (Option.some.inj hp)
  | succ k ih =>
    rw [List.replicate_succ] at hp
    by_cases hlt : t < m.nPool * 16 % 4294967296
    · have hfirst : t * 2 ^ 0 % 4294967296 < m.nPool * 16 % 4294967296 := by
        rwa [pow_zero, Nat.mul_one, Nat.mod_eq_of_lt ht]
      obtain ⟨m₁, C₁, sz₁, fl₁, o, hm, ⟨q, rfl, -, -, -, -, hs⟩ | ⟨rfl, g₁, -, k₁, -, hl⟩⟩ :=
        h.coalesce hq hk
      · refine ⟨0, fun j hj => ?_, hs⟩
        rw [Nat.le_zero.mp hj]
        exact hfirst
      · rw [coalesceLoop_none hlt hm] at hp
        obtain ⟨n, htime, hs⟩ := ih g₁ (k₁.alarmBusy.trans hq) (Nat.mod_lt _ (by decide)) hp
        rw [hl, k₁.nPool] at hs
        refine ⟨n + 1, fun j hj => ?_, hs⟩
        cases j with
        | zero => exact hfirst
        | succ j =>
          have hj := htime j (Nat.le_of_succ_le_succ hj)
          rwa [Nat.mod_mul_mod, Nat.mul_assoc, ← pow_succ', k₁.nPool] at hj
    · rw [Mem3.coalesceLoop, if_neg hlt, usedUp_cons] at hp
      exact Result.noConfusion (Option.some.inj hp)

/-- A loop that has ended does not go on. -/
theorem coalesceLoop_append {r : Result} (h : coalesceLoop nBlock released t m = some r)
    (hne : r ≠ .unfinished) :
    coalesceLoop nBlock (released ++ ps :: more) t m = some .unfinished := by
  induction released generalizing t m with
  | nil =>
    rw [coalesceLoop_nil] at h
    by_cases ht : t < m.nPool * 16 % 4294967296
    · rw [if_pos ht] at h
      exact absurd (Option.some.inj h).symm hne
    · rw [List.nil_append, coalesceLoop, if_neg ht, usedUp_cons]
  | cons qs released ih =>
    rw [coalesceLoop] at h
    rw [List.cons_append, coalesceLoop]
    by_cases ht : t < m.nPool * 16 % 4294967296
    · rw [if_pos ht] at h ⊢
      cases hc : coalesce m nBlock qs with
      | none =>
        rw [hc] at h
        exact absurd h.symm (Option.some_ne_none r)
      | some mo =>
        obtain ⟨m₁, o⟩ := mo
        rw [hc] at h
        cases o with
        | none => exact ih h
        | some p =>
          dsimp only
          cases released with
          | nil => rw [List.nil_append, usedUp_cons]
          | cons qs' released => rw [List.cons_append, usedUp_cons]
    · rw [if_neg ht, usedUp_cons] at h
      exact absurd (Option.some.inj h).symm hne

theorem coalesceLoop_unique {r r' : Result} (h : coalesceLoop nBlock (List.replicate k []) t m = some r)
    (hne : r ≠ .unfinished) (h' : coalesceLoop nBlock (List.replicate n []) t m = some r')
    (hne' : r' ≠ .unfinished) : r = r' := by
  have hlt : ∀ {k n : ℕ} {r r' : Result}, coalesceLoop nBlock (List.replicate k []) t m = some r →
      r ≠ .unfinished → coalesceLoop nBlock (List.replicate n []) t m = some r' →
      r' ≠ .unfinished → ¬ k < n := by
    intro k n r r' h hne h' hne' hlt
    obtain ⟨d, rfl⟩ := Nat.exists_eq_add_of_lt hlt
    rw [Nat.add_assoc, List.replicate_add, List.replicate_succ, coalesceLoop_append h hne] at h'
    exact hne' (Option.some.inj h').symm
  have hkn := hlt h hne h' hne'
  have hnk := hlt h' hne' h hne
  obtain rfl : k = n := by omega
  exact Option.some.inj (h.symm.trans h')

/-- A heap without room for a chunk has no run of free chunks. -/
theorem Tiny.no_run (h : Tiny s) (h2 : 2 ≤ nBlock) : ¬ HasRun s.mem nBlock := by
  have hstay : ∀ {c i : ℕ} {l : List ℕ}, Walk (chunkSize s.mem) c i l → 1 ≤ i ∧ i ≤ s.mem.nPool + 1 →
      c ≤ s.mem.nPool + 1 := by
    intro c i l hw
    induction hw with
    | done => exact fun hc => hc.2
    | @chunk i l hw ih =>
      rintro ⟨h1, hle⟩
      have hpool := h.pool
      have hlast : chunkSize s.mem (s.mem.nPool + 1) = 0 := by
        rw [chunkSize, Nat.add_sub_cancel, h.last]
      rcases hle.eq_or_lt with rfl | hlt
      · rw [hlast] at ih
        exact ih ⟨h1, le_rfl⟩
      · obtain rfl : i = 1 := by omega
        have hfirst : chunkSize s.mem 1 = 1 := by
          rw [chunkSize, Nat.sub_self, (h.tags (by omega)).1]
        rw [hfirst] at ih
        exact ih ⟨by omega, by omega⟩
  rintro ⟨a, b, l, ⟨⟨l₀, hw₀⟩, hw, -⟩, hle⟩
  have hpool := h.pool
  have ha := hw₀.le
  have hb := hstay (hw₀.append hw) ⟨le_rfl, by omega⟩
  omega

/-- What the first step finds: a free chunk of just the blocks. -/
theorem Good.listed_of_run (h : Good m C U sz fl) (hr : FreeRun m i (i + nBlock) [i]) (h2 : 2 ≤ nBlock)
    (hlt : m.szMaster < nBlock) : Listed C U (masterSet m) i ∧ sz i = nBlock := by
  obtain ⟨-, -, hw, hl, hc⟩ := h.run hr
  obtain ⟨hiC, -⟩ := (hl i).mp List.mem_cons_self
  have hsum := hw.sum
  rw [List.map_singleton, List.sum_singleton] at hsum
  have hsize : sz i = nBlock := by omega
  refine ⟨⟨hiC, fun hiU => ?_, fun hiM => ?_⟩, hsize⟩
  · have := hc i hiU
    omega
  · obtain ⟨hi, h0⟩ := mem_masterSet.mp hiM
    have hm := h.master
    rw [if_neg (hi ▸ h0), ← hi, hsize] at hm
    omega

theorem Good.run_of_listed (h : Good m C U sz fl) (hi : Listed C U (masterSet m) i)
    (hs : sz i = nBlock) : FreeRun m i (i + nBlock) [i] := by
  obtain ⟨hC, hU, -⟩ := hi
  refine ⟨h.border (.inl hC), .chunk ?_, fun j hj => ?_⟩
  · rw [h.chunkSize_eq i hC, hs]
    exact .done
  · rw [List.mem_singleton.mp hj]
    have hbit := mt (h.core.used i hC).mp hU
    omega

/-- The call is right in just the states in which the request is served, or there are no blocks for
it. -/
theorem memsys3MallocUnsafe_coalesces_iff (hm : memsys3Init nHeap z = some m₀) (hn : nHeap ≤ 2147483647)
    (hs : Client.Reachable m₀ s) (hb : Request nByte) :
    CoalescesFirst s.mem nByte ↔ Served s.mem (blocksFor nByte) ∨ ¬ HasRun s.mem (blocksFor nByte) := by
  obtain ⟨h2, -, hlt28⟩ := hb.blocks
  rcases (hs.holds hm hn).2 with h | ⟨C, U, sz, fl, h⟩
  · have hno := h.no_run h2
    exact ⟨fun _ => .inr hno, fun _ => ⟨fun hrun => absurd hrun hno, fun _ _ _ => hno⟩⟩
  have ht : blocksFor nByte * 16 % 4294967296 < 4294967296 := Nat.mod_lt _ (by decide)
  have hmod : ∀ k, blocksFor nByte * 16 % 4294967296 * 2 ^ k % 4294967296 =
      blocksFor nByte * 16 * 2 ^ k % 4294967296 := fun k => Nat.mod_mul_mod _ _ _
  constructor
  · rintro ⟨hpointer, -⟩
    rw [or_iff_not_imp_right, not_not]
    intro hrun
    obtain ⟨k, m', p, hp⟩ := hpointer hrun
    obtain ⟨-, -, -, -, -, -, -, -, -, ⟨i, hi, hsize⟩ | hle, -⟩ | ⟨-, -, hgo⟩ := h.mallocUnsafe_steps h2
    · exact .inl ⟨i, h.run_of_listed hi hsize⟩
    · exact .inr (.inl hle)
    · rw [hgo] at hp
      obtain ⟨n, htime, hserve⟩ := h.rounds_of_pointer h.busy h2 ht hp
      rw [← h.layoutOf_eq] at hserve
      exact .inr (.inr ⟨n, fun k hk => hmod k ▸ htime k hk, hserve⟩)
  · rintro (hserved | hno)
    swap
    · exact ⟨fun hrun => absurd hrun hno, fun _ _ _ => hno⟩
    obtain ⟨m', p, C', sz', fl', -, -, -, -, -, hgo⟩ | ⟨hlist, hlt, hgo⟩ := h.mallocUnsafe_steps h2
    · refine ⟨fun _ => ⟨0, m', p, by rw [hgo]; rfl⟩, fun k m₁ hnull => ?_⟩
      rw [hgo] at hnull
      cases k with
      | zero => exact Result.noConfusion (Option.some.inj hnull)
      | succ k =>
        rw [List.replicate_succ, usedUp_cons] at hnull
        exact Result.noConfusion (Option.some.inj hnull)
    · have hpointer : ∃ k m' p, coalesceLoop (blocksFor nByte) (List.replicate k [])
          (blocksFor nByte * 16 % 4294967296) s.mem = some (.pointer m' p) := by
        rcases hserved with ⟨i, hi⟩ | hle | ⟨n, htime, hserve⟩
        · obtain ⟨h3, h4⟩ := h.listed_of_run hi h2 hlt
          exact absurd h4 (hlist i h3)
        · exact absurd hlt (Nat.not_lt.mpr hle)
        · rw [h.layoutOf_eq] at hserve
          exact h.pointer_of_rounds h.busy h2 ht (fun k hk => (hmod k).symm ▸ htime k hk) hserve
      obtain ⟨k, m', p, hp⟩ := hpointer
      refine ⟨fun _ => ⟨k, m', p, by rw [hgo, hp]⟩, fun k' m₁ hnull => ?_⟩
      rw [hgo] at hnull
      have hne : Result.pointer m' p ≠ .unfinished := fun hc => Result.noConfusion hc
      have hne' : Result.null m₁ ≠ .unfinished := fun hc => Result.noConfusion hc
      exact Result.noConfusion (coalesceLoop_unique hp hne hnull hne')

theorem memsys3MallocUnsafe_coalesces_iff_fragmented :
    memsys3Init 96 (fun _ => 0) = some (pool 10).mem ∧ Client.Reachable (pool 10).mem fragmented ∧
      RoundsServe fragmented.mem (blocksFor 60) 0 ∧ CoalescesFirst fragmented.mem 60 := by
  have hinit : memsys3Init 96 (fun _ => 0) = some (pool 10).mem := memsys3Init_pool 10 (by decide)
  have hserve : RoundsServe fragmented.mem (blocksFor 60) 0 := by
    refine ⟨fun k hk => ?_, ?_⟩
    · rw [Nat.le_zero.mp hk]
      decide +kernel
    · decide +kernel
  refine ⟨hinit, fragmented_reachable, hserve, ?_⟩
  exact (memsys3MallocUnsafe_coalesces_iff hinit (by decide) fragmented_reachable
    ⟨by decide, by decide⟩).mpr (.inl (.inr (.inr ⟨0, hserve⟩)))

def Result.isNull : Result → Bool
  | .null _ => true
  | _ => false

/-- A pool of four blocks, in two chunks that were checked out and given back. -/
def givenBack : Client :=
  ((((pool 4).next (.malloc 8 [])).next (.malloc 8 [])).next (.free 3)).next (.free 1)

/-- There is no time for a round when the whole pool is asked for. -/
theorem memsys3MallocUnsafe_gives_up :
    ∃ m₀ s, memsys3Init 48 (fun _ => 0) = some m₀ ∧ Client.Reachable m₀ s ∧ Request 28 ∧
      ¬ CoalescesFirst s.mem 28 := by
  have h8 : Request 8 := ⟨by decide, by decide⟩
  have h₀ : Client.Reachable (pool 4).mem (pool 4) := .init
  have h₂ := (h₀.malloc h8 (by decide +kernel)).malloc h8 (by decide +kernel)
  refine ⟨_, givenBack, memsys3Init_pool 4 (by decide), (h₂.free ?_ ?_).free ?_ ?_,
    ⟨by decide, by decide⟩, fun hc => ?_⟩
  · decide +kernel
  · decide +kernel
  · decide +kernel
  · decide +kernel
  · have hnull : (memsys3MallocUnsafe givenBack.mem 28 (List.replicate 0 [])).map Result.isNull =
        some true := by decide +kernel
    have h1 : chunkSize givenBack.mem 1 = 2 := by decide +kernel
    have h3 : chunkSize givenBack.mem 3 = 2 := by decide +kernel
    have hfree : ∀ i ∈ [1, 3], size4x givenBack.mem (i - 1) % 2 = 0 := by decide +kernel
    have hwalk : Walk (chunkSize givenBack.mem) 5 1 [1, 3] := by
      refine .chunk ?_
      rw [h1]
      refine .chunk ?_
      rw [h3]
      exact .done
    have hrun : HasRun givenBack.mem (blocksFor 28) :=
      ⟨1, 5, [1, 3], ⟨⟨[], .done⟩, hwalk, hfree⟩, by decide⟩
    obtain ⟨r, hr, hnull'⟩ := Option.map_eq_some_iff.mp hnull
    cases r with
    | null m' => exact hc.2 0 m' hr hrun
    | pointer m' p => exact absurd hnull' Bool.false_ne_true
    | unfinished => exact absurd hnull' Bool.false_ne_true

end

/-! Soundness of the allocator over whole runs. -/

variable {s : Client} {m m₀ : Mem3Global} {i p q : ℕ} {C U : Finset ℕ} {sz : ℕ → ℕ} {fl : Root → List ℕ}
  {nHeap : ℤ} {z : ℕ → UInt8}

namespace Client

/-- The headers give the chunks `l`, which fill the pool; the lists `fl` have the free ones but for the
master, each that of its size; live chunks are apart and as large as was asked for. -/
structure Sound (s : Client) (l : List ℕ) (fl : Root → List ℕ) : Prop where
  walk : Walk (chunkSize s.mem) (s.mem.nPool + 1) 1 l
  used : ∀ i ∈ l, size4x s.mem (i - 1) % 2 = 1 ↔ s.live i ≠ none
  first : 1 ∈ l → size4x s.mem 0 / 2 % 2 = 1
  prevUsed : ∀ i ∈ l, size4x s.mem (i + chunkSize s.mem i - 1) / 2 % 2 = size4x s.mem (i - 1) % 2
  prevSize : ∀ i ∈ l, s.live i = none → prevSize s.mem (i + chunkSize s.mem i - 1) = chunkSize s.mem i
  master : s.mem.szMaster ≠ 0 → s.mem.iMaster ∈ l ∧ s.live s.mem.iMaster = none ∧
    s.mem.szMaster = chunkSize s.mem s.mem.iMaster
  head : ∀ r, toPtr (s.mem.root r) = (fl r).head?
  links : ∀ r, Links (fun i => toPtr (Mem3.next s.mem i)) (fun i => toPtr (Mem3.prev s.mem i)) none
    (fl r)
  nodup : ∀ r, (fl r).Nodup
  listed : ∀ r i, i ∈ fl r ↔
    i ∈ l ∧ s.live i = none ∧ i ≠ s.mem.iMaster ∧ rootOf (chunkSize s.mem i) = r
  owner : ∀ p, s.live p ≠ none → p ∈ l
  fits : ∀ p n, s.live p = some n → n ≤ memsys3Size s.mem p
  apart : ∀ p q, s.live p ≠ none → s.live q ≠ none → p < q → 8 * p + memsys3Size s.mem p ≤ 8 * q

end Client

theorem Holds.sound (h : Holds s C U sz fl) : ∃ l, s.Sound l fl := by
  obtain ⟨l, hw, hl⟩ := h.core.chunks.walk
  have hsize : ∀ i ∈ l, chunkSize s.mem i = sz i := fun i hi => h.chunkSize_eq i ((hl i).mp hi)
  have hnone : ∀ {i}, i ∉ U ↔ s.live i = none := by
    intro i
    rw [h.live i]
    exact not_not
  refine ⟨l, ?_, ?_, ?_, ?_, ?_, ?_, h.lists.head, h.lists.links, h.lists.nodup, ?_, ?_, ?_, ?_⟩
  · exact hw.congr hsize
  · intro i hi
    rw [← h.live i]
    exact h.core.used i ((hl i).mp hi)
  · intro h1
    exact (h.core.prev 1 (.inl ((hl 1).mp h1))).mpr (.inl rfl)
  · intro i hi
    have hiC := (hl i).mp hi
    have hb := h.core.bound hiC
    have hpos := h.core.pos hiC
    have hused := h.core.used i hiC
    have hprev := h.core.prev (i + sz i) (h.core.next hiC)
    rw [hsize i hi]
    have hiff : (i + sz i = 1 ∨ ∃ j ∈ U, j + sz j = i + sz i) ↔ i ∈ U := by
      constructor
      · rintro (hc | ⟨j, hj, hji⟩)
        · omega
        · exact h.core.chunks.eq_of_end (h.core.sub hj) hiC hji ▸ hj
      · exact fun hiU => .inr ⟨i, hiU, rfl⟩
    rw [hiff, ← hused] at hprev
    clear hiff
    omega
  · intro i hi hlive
    rw [hsize i hi]
    exact h.core.tail i ((hl i).mp hi) (hnone.mpr hlive)
  · intro h0
    have hi0 : s.mem.iMaster ≠ 0 := by
      intro hc
      have hm := h.master
      rw [if_pos hc] at hm
      exact h0 hm
    obtain ⟨hC, hU⟩ := h.iMaster_mem hi0
    have hmem := (hl _).mpr hC
    refine ⟨hmem, hnone.mp hU, ?_⟩
    rw [hsize _ hmem, h.master, if_neg hi0]
  · intro r i
    rw [h.lists.mem r i]
    unfold Listed
    rw [mem_masterSet, hl i, hnone]
    constructor
    · rintro ⟨⟨h1, h2, h3⟩, h4⟩
      refine ⟨h1, h2, fun hc => h3 ⟨hc, h.pos h1⟩, ?_⟩
      rwa [hsize i ((hl i).mpr h1)]
    · rintro ⟨h1, h2, h3, h4⟩
      refine ⟨⟨h1, h2, fun hc => h3 hc.1⟩, ?_⟩
      rwa [hsize i ((hl i).mpr h1)] at h4
  · exact fun p hp => (hl p).mpr (h.core.sub ((h.live p).mpr hp))
  · intro p n hp
    have hpU : p ∈ U := (h.live p).mpr fun hc => Option.some_ne_none n (hp.symm.trans hc)
    have hf := h.fits p n hp
    have hs := memsys3Size_eq h.toInv (h.core.sub hpU)
    omega
  · intro p q hp hq hlt
    have hpC := h.core.sub ((h.live p).mpr hp)
    have hapart := h.core.chunks.apart p hpC q (h.core.sub ((h.live q).mpr hq)) hlt
    have hs := memsys3Size_eq h.toInv hpC
    omega

/-- The one chunk is the master, which is on no list. -/
theorem Tiny.sound (h : Tiny s) : ∃ l fl, s.Sound l fl := by
  have hlive : ∀ {p}, ¬ s.live p ≠ none := fun {p} => not_not.mpr (h.live p)
  have hfit : ∀ {p n}, s.live p ≠ some n :=
    fun {p n} hc => Option.some_ne_none n (hc.symm.trans (h.live p))
  have hhead : ∀ r, toPtr (s.mem.root r) = none := fun r => by rw [h.root r, toPtr_zero]
  have hpool := h.pool
  by_cases h1 : s.mem.nPool = 1
  · obtain ⟨hfirst, htail⟩ := h.tags h1
    have hlast := h.last
    rw [h1] at hlast
    have hsize : chunkSize s.mem 1 = 1 := by rw [chunkSize, Nat.sub_self, hfirst]
    refine ⟨[1], fun _ => [], ?_, ?_, ?_, ?_, ?_, ?_, hhead, fun _ => trivial, fun _ => List.nodup_nil,
      ?_, fun p hp => absurd hp hlive, fun p n hp => absurd hp hfit, fun p q hp => absurd hp hlive⟩
    · rw [h1]
      refine .chunk ?_
      rw [hsize]
      exact .done
    · intro i hi
      rw [List.mem_singleton.mp hi, Nat.sub_self, hfirst]
      exact ⟨fun hc => absurd hc (by decide), fun hc => absurd hc hlive⟩
    · intro _
      rw [hfirst]
    · intro i hi
      rw [List.mem_singleton.mp hi, hsize, Nat.add_sub_cancel, Nat.sub_self, hfirst, hlast]
    · intro i hi _
      rw [List.mem_singleton.mp hi, hsize, Nat.add_sub_cancel, htail]
    · intro _
      rw [h.iMaster, h.szMaster, hsize, h1]
      exact ⟨List.mem_singleton_self 1, h.live 1, rfl⟩
    · intro r i
      refine ⟨fun hi => absurd hi List.not_mem_nil, fun hi => ?_⟩
      rw [h.iMaster] at hi
      exact absurd (List.mem_singleton.mp hi.1) hi.2.2.1
  · have h0 : s.mem.nPool = 0 := by omega
    have hno : ∀ {P : ℕ → Prop}, ∀ i ∈ ([] : List ℕ), P i := fun i hi => absurd hi List.not_mem_nil
    refine ⟨[], fun _ => [], ?_, hno, fun hi => absurd hi List.not_mem_nil, hno, hno, ?_, hhead,
      fun _ => trivial, fun _ => List.nodup_nil, ?_, fun p hp => absurd hp hlive,
      fun p n hp => absurd hp hfit, fun p q hp => absurd hp hlive⟩
    · rw [h0]
      exact .done
    · rw [h.szMaster, h0]
      exact fun hc => absurd rfl hc
    · exact fun r i => ⟨fun hi => absurd hi List.not_mem_nil, fun hi => absurd hi.1 List.not_mem_nil⟩

/-- The heap is initialised; the state after any run is sound, and each further call goes well and leaves
the other live chunks alone. -/
def SoundHeap (nHeap : ℤ) (z : ℕ → UInt8) : Prop :=
  ∃ m₀, memsys3Init nHeap z = some m₀ ∧ ∀ s, Client.Reachable m₀ s → s.mem.nPool = m₀.nPool ∧
    (∃ l fl, s.Sound l fl) ∧
    ∀ op, s.Admits op → ∃ r, s.step op = some r ∧ ∀ s', r = some s' → s.Keeps s' op

theorem memsys3_sound_iff (nHeap : ℤ) (z : ℕ → UInt8) (hn : nHeap ≤ 2147483647) :
    SoundHeap nHeap z ↔ 16 ≤ nHeap := by
  constructor
  · rintro ⟨m₀, hm, -⟩
    exact (memsys3Init_some hm hn).1
  · intro h16
    obtain ⟨m₀, hm⟩ := memsys3Init_of_le h16 hn z
    refine ⟨m₀, hm, fun s hs => ?_⟩
    obtain ⟨hpool, h | ⟨C, U, sz, fl, h⟩⟩ := hs.holds hm hn
    · refine ⟨hpool, h.sound, fun op ha => ?_⟩
      obtain ⟨r, hr, hall⟩ := h.step ha
      exact ⟨r, hr, fun s' hs' => (hall s' hs').1⟩
    · obtain ⟨l, hl⟩ := h.sound
      refine ⟨hpool, ⟨l, fl, hl⟩, fun op ha => ?_⟩
      obtain ⟨r, hr, hall⟩ := h.step ha
      exact ⟨r, hr, fun s' hs' => (hall s' hs').1⟩

theorem memsys3_sound_iff_kilobyte :
    ∃ m₀, memsys3Init 1024 (fun _ => 0) = some m₀ ∧ ∃ l fl, Client.Sound ⟨m₀, fun _ => none⟩ l fl := by
  obtain ⟨m₀, hm, hall⟩ := (memsys3_sound_iff 1024 (fun _ => 0) (by decide)).mpr (by decide)
  exact ⟨m₀, hm, (hall _ .init).2.1⟩

/-- In a heap of one block the number of blocks wraps, and the last one is far behind the heap. -/
theorem memsys3Init_outside : ¬ SoundHeap 8 fun _ => 0 := by
  rintro ⟨m₀, hm, -⟩
  have h16 := (memsys3Init_some hm (by decide)).1
  omega

end Sqlite.Mem3

import Sqlite.Foundation.Chunks
import Sqlite.Mem3.Run

/-! The third step of `memsys3MallocUnsafe`, over all its rounds. -/
namespace Sqlite.Mem3
open Foundation

section

/-! Runs of adjacent free chunks. -/

variable {m m' : Mem3Global} {a b i j k p : ℕ} {C U V M : Finset ℕ} {sz sz' : ℕ → ℕ}
  {fl : Root → List ℕ} {l : List ℕ}

/-- The blocks of a chunk, by its header. -/
def chunkSize (m : Mem3Global) (i : ℕ) : ℕ := size4x m (i - 1) / 4

/-- The chunks `l` are adjacent, fill the blocks from `a` up to `b`, and are free. -/
structure FreeRun (m : Mem3Global) (a b : ℕ) (l : List ℕ) : Prop where
  border : ∃ l₀, Walk (chunkSize m) a 1 l₀
  walk : Walk (chunkSize m) b a l
  free : ∀ i ∈ l, size4x m (i - 1) % 2 = 0

/-- The chunks in use have no block from `a` up to `b`. -/
def Clear (U : Finset ℕ) (sz : ℕ → ℕ) (a b : ℕ) : Prop := ∀ j ∈ U, j + sz j ≤ a ∨ b ≤ j

theorem Clear.mono (h : Clear U sz a b) (hsub : V ⊆ U) (hs : ∀ j ∈ V, sz' j = sz j) :
    Clear V sz' a b := by
  intro j hj
  rw [hs j hj]
  exact h j (hsub hj)

theorem Inv.chunkSize_eq (h : Inv m C U M sz fl) : ∀ i ∈ C, chunkSize m i = sz i :=
  fun i hi => h.core.size i hi

/-- The walk to a border. -/
theorem Inv.border (h : Inv m C U M sz fl) (ha : a ∈ C ∨ a = m.nPool + 1) :
    ∃ l₀, Walk (chunkSize m) a 1 l₀ := by
  have hle : 1 ≤ a := by
    rcases ha with ha | rfl
    · exact h.core.pos ha
    · omega
  obtain ⟨l₀, hw, hl⟩ := h.core.chunks.walk_between ha (a - 1) (.inl h.core.chunks.first) hle le_rfl
  exact ⟨l₀, hw.congr fun i hi => h.chunkSize_eq i (hl i hi).1⟩

/-- A run of free chunks is made of chunks of the pool. -/
theorem Inv.run (h : Inv m C U M sz fl) (hr : FreeRun m a b l) :
    (a ∈ C ∨ a = m.nPool + 1) ∧ (b ∈ C ∨ b = m.nPool + 1) ∧ Walk sz b a l ∧
      (∀ j, j ∈ l ↔ j ∈ C ∧ a ≤ j ∧ j < b) ∧ Clear U sz a b := by
  obtain ⟨⟨l₀, hw₀⟩, hw, hfree⟩ := hr
  have hlast : chunkSize m (m.nPool + 1) = 0 := h.core.last.1
  have ha := h.core.chunks.border_of_walk h.chunkSize_eq hlast hw₀ (.inl h.core.chunks.first)
  have hb := h.core.chunks.border_of_walk h.chunkSize_eq hlast hw ha
  have hend : m.nPool + 1 ∉ l := by
    intro hc
    have hbit := hfree _ hc
    have hused := h.core.last.2
    rw [Nat.add_sub_cancel] at hbit
    omega
  obtain ⟨hw', hl⟩ := h.core.chunks.of_walk h.chunkSize_eq hw ha hend
  refine ⟨ha, hb, hw', hl, fun j hj => ?_⟩
  by_contra hc
  obtain ⟨h1, h2⟩ := not_or.mp hc
  have hjC := h.core.sub hj
  have haj : a ≤ j := by
    by_contra hlt
    exact h1 (h.core.chunks.le_of_lt hjC ha (Nat.not_le.mp hlt))
  have hbit := hfree j ((hl j).mpr ⟨hjC, haj, Nat.not_le.mp h2⟩)
  have hused := (h.core.used j hjC).mpr hj
  omega

theorem Inv.run_bounds (h : Inv m C U M sz fl) (hr : FreeRun m a b l) :
    1 ≤ a ∧ b ≤ m.nPool + 1 ∧ Clear U sz a b := by
  obtain ⟨ha, hb, -, -, hc⟩ := h.run hr
  refine ⟨?_, ?_, hc⟩
  · rcases ha with ha | rfl
    · exact h.core.pos ha
    · omega
  · rcases hb with hb | rfl
    · have := (h.core.bound hb).1
      omega
    · exact le_rfl

/-- The free chunks around blocks that no chunk in use has. -/
theorem Inv.run_of_clear (h : Inv m C U M sz fl) (ha : 1 ≤ a) (hab : a < b) (hb : b ≤ m.nPool + 1)
    (hc : Clear U sz a b) : ∃ a' b' l, FreeRun m a' b' l ∧ b - a ≤ b' - a' := by
  obtain ⟨i, hi, hia, hai⟩ := h.core.chunks.cover ha (Nat.lt_of_lt_of_le hab hb)
  obtain ⟨j, hj, hjb, hbj⟩ := h.core.chunks.cover (x := b - 1) (by omega) (by omega)
  have hij : i ≤ j := by
    by_contra hlt
    have := h.core.chunks.apart j hj i hi (by omega)
    omega
  have hle : i ≤ j + sz j := hij.trans (Nat.le_add_right _ _)
  obtain ⟨l, hw, hl⟩ := h.core.chunks.walk_between (h.core.next hj) (j + sz j - i) (.inl hi) hle le_rfl
  refine ⟨i, j + sz j, l, ⟨h.border (.inl hi), ?_, fun k hk => ?_⟩, by omega⟩
  · exact hw.congr fun k hk => h.chunkSize_eq k (hl k hk).1
  · obtain ⟨hkC, hik, hkj⟩ := hl k hk
    have hkU : k ∉ U := by
      intro hkU
      rcases hc k hkU with hend | hstart
      · rcases hik.eq_or_lt with rfl | hlt
        · omega
        · have := h.core.chunks.apart i hi k hkC hlt
          omega
      · have := h.core.chunks.apart j hj k hkC (by omega)
        omega
    have hbit := mt (h.core.used k hkC).mp hkU
    omega

/-- A free chunk with no free chunk after it, when every free one starts a run, fills the run. -/
theorem Inv.whole (h : Inv m C U M sz fl) (hs : ∀ j ∈ C, j ∉ U → Starts U sz j) (ha : 1 ≤ a)
    (hab : a < b) (hb : b ≤ m.nPool + 1) (hc : Clear U sz a b) :
    ∃ i ∈ C, i ∉ U ∧ i ≤ a ∧ b ≤ i + sz i := by
  obtain ⟨i, hi, hia, hai⟩ := h.core.chunks.cover ha (Nat.lt_of_lt_of_le hab hb)
  have hiU : i ∉ U := by
    intro hiU
    have := hc i hiU
    omega
  refine ⟨i, hi, hiU, hia, ?_⟩
  by_contra hlt
  have hn : i + sz i ∈ C := (h.core.next hi).resolve_right (by omega)
  have hnU : i + sz i ∉ U := by
    intro hnU
    have := hc _ hnU
    have := (h.core.bound hn).2
    omega
  rcases hs _ hn hnU with h1 | ⟨k, hk, hki⟩
  · have := (h.core.bound hi).2
    have := h.core.pos hi
    omega
  · exact hiU (h.core.chunks.eq_of_end (h.core.sub hk) hi hki ▸ hk)

end

variable {m m' m₁ m₂ : Mem3Global} {i j k n p t nBlock : ℕ} {C C₁ C₂ U : Finset ℕ} {sz sz₁ sz₂ : ℕ → ℕ}
  {fl fl₁ fl₂ : Root → List ℕ} {ps : List ℕ} {released : List (List ℕ)}

/-! The loop, unrolled. -/

theorem coalesceLoop_nil : coalesceLoop nBlock [] t m =
    if t < m.nPool * 16 % 4294967296 then some .unfinished else some (.null m) := by
  rw [coalesceLoop]
  split
  · rfl
  · rw [usedUp_nil]

theorem coalesceLoop_done (ht : m.nPool * 16 % 4294967296 ≤ t) :
    coalesceLoop nBlock [] t m = some (.null m) := by
  rw [coalesceLoop_nil, if_neg (Nat.not_lt.mpr ht)]

theorem coalesceLoop_none (ht : t < m.nPool * 16 % 4294967296)
    (h : coalesce m nBlock ps = some (m₁, none)) : coalesceLoop nBlock (ps :: released) t m =
      coalesceLoop nBlock released (t * 2 % 4294967296) m₁ := by
  rw [coalesceLoop, if_pos ht, h]

theorem coalesceLoop_some (ht : t < m.nPool * 16 % 4294967296)
    (h : coalesce m nBlock ps = some (m₁, some p)) :
    coalesceLoop nBlock [ps] t m = some (.pointer m₁ p) := by
  rw [coalesceLoop, if_pos ht, h]
  rfl

theorem double (n : ℕ) : t * 2 ^ n % 4294967296 * 2 % 4294967296 = t * 2 ^ (n + 1) % 4294967296 := by
  rw [Nat.mod_mul_mod, pow_succ, Nat.mul_assoc]

/-- The loop comes to the state `m'`, and goes on from there. -/
def Continues (nBlock t : ℕ) (m : Mem3Global) (released : List (List ℕ)) (m' : Mem3Global) : Prop :=
  ∀ more, coalesceLoop nBlock (released ++ more) t m =
    coalesceLoop nBlock more (t * 2 ^ released.length % 4294967296) m'

theorem Continues.nil (ht : t < 4294967296) : Continues nBlock t m [] m := by
  intro more
  rw [List.length_nil, pow_zero, Nat.mul_one, Nat.mod_eq_of_lt ht]
  rfl

theorem Continues.next (h : Continues nBlock t m released m₁)
    (ht : t * 2 ^ released.length % 4294967296 < m₁.nPool * 16 % 4294967296)
    (hc : coalesce m₁ nBlock ps = some (m₂, none)) : Continues nBlock t m (released ++ [ps]) m₂ := by
  intro more
  rw [List.append_assoc, List.cons_append, List.nil_append, h, coalesceLoop_none ht hc, double,
    List.length_append, List.length_singleton]

/-- The loop ends with the releases, or before. -/
def Ends (nBlock t : ℕ) (m : Mem3Global) (released : List (List ℕ)) : Prop :=
  ∃ k ≤ released.length, ∃ r, coalesceLoop nBlock (released.take k) t m = some r ∧ r ≠ .unfinished

theorem Ends.append (h : Ends nBlock t m released) (more : List (List ℕ)) :
    Ends nBlock t m (released ++ more) := by
  obtain ⟨k, hk, r, hr, hne⟩ := h
  refine ⟨k, ?_, r, ?_, hne⟩
  · rw [List.length_append]
    omega
  · rw [List.take_append_of_le_length hk]
    exact hr

theorem Ends.of_eq {r : Result} (h : coalesceLoop nBlock released t m = some r)
    (hne : r ≠ .unfinished) : Ends nBlock t m released := by
  refine ⟨released.length, le_rfl, r, ?_, hne⟩
  rw [List.take_length]
  exact h

theorem Ends.of_pointer (h : Continues nBlock t m released m₁)
    (ht : t * 2 ^ released.length % 4294967296 < m₁.nPool * 16 % 4294967296)
    (hc : coalesce m₁ nBlock ps = some (m₂, some p)) : Ends nBlock t m (released ++ [ps]) := by
  apply Ends.of_eq (r := .pointer m₂ p)
  · rw [h, coalesceLoop_some ht hc]
  · exact fun hc => Result.noConfusion hc

theorem Ends.of_null (h : Continues nBlock t m released m₁)
    (ht : m₁.nPool * 16 % 4294967296 ≤ t * 2 ^ released.length % 4294967296) :
    Ends nBlock t m released := by
  apply Ends.of_eq (r := .null m₁)
  · have hnil := h []
    rwa [List.append_nil, coalesceLoop_done ht] at hnil
  · exact fun hc => Result.noConfusion hc

theorem Releases.append (h : Releases U (released ++ [ps]).flatten) :
    Releases U released.flatten ∧ Releases (left U released) ps := by
  rw [List.flatten_append, List.flatten_singleton] at h
  obtain ⟨hnd, hsub⟩ := h
  obtain ⟨h1, h2, hdisj⟩ := List.nodup_append.mp hnd
  refine ⟨⟨h1, fun p hp => hsub p (List.mem_append_left _ hp)⟩, h2, fun p hp => ?_⟩
  refine Finset.mem_sdiff.mpr ⟨hsub p (List.mem_append_right _ hp), fun hc => ?_⟩
  exact hdisj p (List.mem_toFinset.mp hc) p hp rfl

theorem left_append : left U (released ++ [ps]) = left U released \ ps.toFinset := by
  rw [left, left, List.flatten_append, List.flatten_singleton, List.toFinset_append]
  exact sdiff_sdiff_left.symm

/-- The loop ends, or it comes to a state with the chunks that are left. -/
theorem Good.steps (h : Good m C U sz fl) (hq : m.alarmBusy = false) (hk : 2 ≤ nBlock)
    (ht : t < 4294967296) (hr : Releases U released.flatten) :
    Ends nBlock t m released ∨ ∃ m' C' sz' fl', Good m' C' (left U released) sz' fl' ∧
      m'.alarmBusy = false ∧ Kept (left U released) sz sz' m m' ∧ Continues nBlock t m released m' := by
  induction released using List.reverseRecOn with
  | nil =>
    rw [left_nil]
    exact .inr ⟨m, C, sz, fl, h, hq, Kept.refl U sz m, Continues.nil ht⟩
  | append_singleton released ps ih =>
    obtain ⟨hr', hps⟩ := hr.append
    rw [left_append]
    rcases ih hr' with hend | ⟨m₁, C₁, sz₁, fl₁, g₁, q₁, k₁, hgo⟩
    · exact .inl (hend.append [ps])
    by_cases hlt : t * 2 ^ released.length % 4294967296 < m₁.nPool * 16 % 4294967296
    · obtain ⟨m₂, C₂, sz₂, fl₂, o, hm, q₂, k₂, ⟨p, rfl, -⟩ | ⟨rfl, g₂⟩⟩ := g₁.round q₁ hk hps
      · exact .inl (Ends.of_pointer hgo hlt hm)
      · exact .inr ⟨m₂, C₂, sz₂, fl₂, g₂, q₂, (k₁.mono Finset.sdiff_subset).trans k₂, hgo.next hlt hm⟩
    · exact .inl ((Ends.of_null hgo (Nat.not_lt.mp hlt)).append [ps])

/-! Rounds without releases. -/

/-- Each chunk of `C'` has `2 ^ n` ones of `C`, but those that start a run. -/
def Joined (n : ℕ) (C U C' : Finset ℕ) (sz' : ℕ → ℕ) : Prop :=
  C' ⊆ C ∧ ∀ j ∈ C', j ∉ U → Starts U sz' j ∨
    2 ^ n ≤ (C.filter fun i => j ≤ i ∧ i < j + sz' j).card

theorem Joined.zero (hs : ∀ j ∈ C, 2 ≤ sz j) : Joined 0 C U C sz := by
  refine ⟨Finset.Subset.refl C, fun j hj _ => .inr ?_⟩
  have h2 := hs j hj
  have hmem : j ∈ C.filter fun i => j ≤ i ∧ i < j + sz j :=
    Finset.mem_filter.mpr ⟨hj, le_rfl, by omega⟩
  exact Finset.card_pos.mpr ⟨j, hmem⟩

theorem Starts.congr (hs : ∀ l ∈ U, sz₂ l = sz₁ l) : Starts U sz₂ j ↔ Starts U sz₁ j := by
  unfold Starts
  refine or_congr_right (exists_congr fun l => and_congr_right fun hl => ?_)
  rw [hs l hl]

/-- A round joins each chunk that has a free one before it with that or with the one after it. -/
theorem Joined.round (h : Joined n C U C₁ sz₁) (g₁ : Good m₁ C₁ U sz₁ fl₁) (g₂ : Good m₂ C₂ U sz₂ fl₂)
    (hpool : m₂.nPool = m₁.nPool) (hs : ∀ l ∈ U, sz₂ l = sz₁ l) (hr : Round C₁ U sz₁ C₂ sz₂ m₂) :
    Joined (n + 1) C U C₂ sz₂ := by
  refine ⟨hr.sub.trans h.1, fun j hj hjU => ?_⟩
  by_cases hstart : Starts U sz₂ j
  · exact .inl hstart
  have hgrown := (hr.seen j hj hjU).grown.resolve_left hstart
  rw [Starts.congr hs] at hstart
  have hj₁ := hr.sub hj
  have hend : j + sz₂ j ∈ C₁ ∨ j + sz₂ j = m₁.nPool + 1 := by
    rw [← hpool]
    exact (g₂.core.next hj).imp_left fun hc => hr.sub hc
  have hb := g₂.core.bound hj
  rw [hpool] at hb
  -- the chunk after `j` at the beginning of the round
  have hk : j + sz₁ j ∈ C₁ := (g₁.core.next hj₁).resolve_right (by omega)
  have hle := g₁.core.chunks.le_of_lt hk hend (by omega)
  have hb₁ := g₁.core.bound hj₁
  have hkU : j + sz₁ j ∉ U := by
    intro hc
    have := g₂.core.chunks.apart j hj _ (g₂.core.sub hc) (by omega)
    omega
  have hkstart : ¬ Starts U sz₁ (j + sz₁ j) := by
    rintro (hc | ⟨l, hl, hlj⟩)
    · have := g₁.core.pos hj₁
      omega
    · exact hjU (g₁.core.chunks.eq_of_end (g₁.core.sub hl) hj₁ hlj ▸ hl)
  have hcard₁ := (h.2 j hj₁ hjU).resolve_left hstart
  have hcard₂ := (h.2 _ hk hkU).resolve_left hkstart
  generalize hmid : j + sz₁ j = k at *
  right
  have hdisj : Disjoint (C.filter fun i => j ≤ i ∧ i < k)
      (C.filter fun i => k ≤ i ∧ i < k + sz₁ k) := by
    refine Finset.disjoint_left.mpr fun i hi hi' => ?_
    have h1 := (Finset.mem_filter.mp hi).2
    have h2 := (Finset.mem_filter.mp hi').2
    omega
  have hsub : (C.filter fun i => j ≤ i ∧ i < k) ∪ (C.filter fun i => k ≤ i ∧ i < k + sz₁ k) ⊆
      C.filter fun i => j ≤ i ∧ i < j + sz₂ j := by
    intro i hi
    rcases Finset.mem_union.mp hi with hi | hi
    · obtain ⟨h1, h2⟩ := Finset.mem_filter.mp hi
      exact Finset.mem_filter.mpr ⟨h1, by omega⟩
    · obtain ⟨h1, h2⟩ := Finset.mem_filter.mp hi
      exact Finset.mem_filter.mpr ⟨h1, by omega⟩
  have hle' := Finset.card_le_card hsub
  rw [Finset.card_union_of_disjoint hdisj] at hle'
  rw [pow_succ]
  omega

/-- What the loop comes to in its first `n` rounds, when nothing is released: a chunk, or null since the
counter has reached its limit, or a state where the free chunks are joined. -/
theorem Good.rounds (n : ℕ) (h : Good m C U sz fl) (hq : m.alarmBusy = false) (hk : 2 ≤ nBlock)
    (ht : t < 4294967296) :
    (∃ k ≤ n, ∃ m' p C' sz' fl',
      Mem3.coalesceLoop nBlock (List.replicate k []) t m = some (.pointer m' p) ∧
      Good m' C' (insert p U) sz' fl' ∧ p ∉ U ∧ nBlock ≤ sz' p ∧ Kept U sz sz' m m') ∨
    (∃ k < n, m.nPool * 16 % 4294967296 ≤ t * 2 ^ k % 4294967296) ∨
    ∃ m' C' sz' fl', Good m' C' U sz' fl' ∧ m'.alarmBusy = false ∧ Kept U sz sz' m m' ∧
      Joined n C U C' sz' ∧ (1 ≤ n → m'.szMaster < nBlock ∧ ∀ j ∈ C', j ∉ U → sz' j ≤ m'.szMaster) ∧
      Continues nBlock t m (List.replicate n []) m' := by
  induction n with
  | zero =>
    refine .inr (.inr ⟨m, C, sz, fl, h, hq, Kept.refl U sz m, ?_, fun hc => absurd hc (by decide), ?_⟩)
    · exact Joined.zero fun j hj => (h.core.bound hj).2
    · exact Continues.nil ht
  | succ n ih =>
    rcases ih with ⟨k, hkn, hp⟩ | ⟨k, hkn, hnull⟩ | ⟨m₁, C₁, sz₁, fl₁, g₁, q₁, k₁, j₁, -, hgo⟩
    · exact .inl ⟨k, by omega, hp⟩
    · exact .inr (.inl ⟨k, by omega, hnull⟩)
    by_cases hlt : t * 2 ^ n % 4294967296 < m.nPool * 16 % 4294967296
    · have hlt' : t * 2 ^ (List.replicate n ([] : List ℕ)).length % 4294967296 <
          m₁.nPool * 16 % 4294967296 := by
        rw [List.length_replicate, k₁.nPool]
        exact hlt
      obtain ⟨m₂, C₂, sz₂, fl₂, o, hm, ⟨p, rfl, g₂, hp, hs₂, k₂, -⟩ | ⟨rfl, g₂, hs₂, k₂, hr, -⟩⟩ :=
        g₁.coalesce q₁ hk
      · refine .inl ⟨n + 1, le_rfl, m₂, p, C₂, sz₂, fl₂, ?_, g₂, hp, hs₂, k₁.trans k₂⟩
        rw [List.replicate_succ', hgo, coalesceLoop_some hlt' hm]
      · refine .inr (.inr ⟨m₂, C₂, sz₂, fl₂, g₂, k₂.alarmBusy.trans q₁, k₁.trans k₂, ?_, ?_, ?_⟩)
        · exact j₁.round g₁ g₂ k₂.nPool k₂.sizes hr
        · exact fun _ => ⟨hs₂, fun j hj hjU => (hr.seen j hj hjU).le⟩
        · rw [List.replicate_succ']
          exact hgo.next hlt' hm
    · exact .inr (.inl ⟨n, by omega, Nat.not_lt.mp hlt⟩)

end Sqlite.Mem3

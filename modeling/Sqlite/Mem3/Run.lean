import Sqlite.Mem3.Malloc

/-! Runs of the allocator: a client calls it on live pointers and writes into its own chunks. -/
namespace Sqlite.Mem3
open Foundation

section

/-! Writes into the chunks in use, and `memsys3Realloc`. -/

variable {m m' : Mem3Global} {n i j p q k nBlock : ℕ} {nByte : ℤ} {C U V M : Finset ℕ} {sz : ℕ → ℕ}
  {fl : Root → List ℕ} {released : List (List ℕ)} {z : ℕ → UInt8}

theorem getLE_congr {f g : ℕ → UInt8} {a : ℕ} (h : ∀ d < 4, f (a + d) = g (a + d)) :
    getLE f a = getLE g a := by
  have h0 := h 0 (by decide)
  rw [Nat.add_zero] at h0
  unfold getLE
  rw [h0, h 1 (by decide), h 2 (by decide), h 3 (by decide)]

/-- The bytes of the chunks in use are no words of the allocator. -/
theorem Inv.poke (h : Inv m C U M sz fl)
    (hz : ∀ x, z x ≠ m.aPool x → ∃ p ∈ U, 8 * p ≤ x ∧ x + 4 < 8 * (p + sz p)) :
    Inv { m with aPool := z } C U M sz fl := by
  have hhigh : ∀ i, i ∈ C ∨ i = m.nPool + 1 →
      size4x { m with aPool := z } (i - 1) = size4x m (i - 1) := by
    intro i hi
    refine getLE_congr fun d hd => ?_
    by_contra hc
    obtain ⟨p, hp, h1, h2⟩ := hz _ hc
    have hpos : 1 ≤ i := by
      rcases hi with hi | rfl
      · exact h.core.pos hi
      · omega
    have := h.core.chunks.le_of_lt (h.core.sub hp) hi (by omega)
    omega
  have hfree : ∀ i ∈ C, i ∉ U → ∀ x, 8 * i ≤ x → x < 8 * i + 8 → z x = m.aPool x := by
    intro i hi hiU x hx1 hx2
    by_contra hc
    obtain ⟨p, hp, h1, h2⟩ := hz _ hc
    have hne : p ≠ i := fun hc => hiU (hc ▸ hp)
    rcases Nat.lt_or_gt_of_ne hne with hlt | hlt
    · have := h.core.chunks.apart p (h.core.sub hp) i hi hlt
      omega
    · omega
  constructor
  · exact h.pool
  · constructor
    · exact h.core.chunks
    · exact h.core.sub
    · intro i hi
      rw [hhigh i (.inl hi)]
      exact h.core.size i hi
    · intro i hi
      rw [hhigh i (.inl hi)]
      exact h.core.used i hi
    · intro i hi
      rw [hhigh i hi]
      exact h.core.prev i hi
    · have hn : size4x { m with aPool := z } m.nPool = size4x m m.nPool :=
        hhigh (m.nPool + 1) (.inr rfl)
      rw [hn]
      exact h.core.last
    · intro i hi hiU
      have hlow : prevSize { m with aPool := z } (i + sz i - 1) = prevSize m (i + sz i - 1) := by
        refine getLE_congr fun d hd => ?_
        by_contra hc
        obtain ⟨p, hp, h1, h2⟩ := hz _ hc
        have hb := h.core.bound hi
        have hpC := h.core.sub hp
        have := h.core.chunks.le_of_lt hpC (h.core.next hi) (by omega)
        have hend := h.core.chunks.eq_of_end hpC hi (by omega)
        exact hiU (hend ▸ hp)
      rw [hlow]
      exact h.core.tail i hi hiU
  · exact h.free
  · refine h.lists.congr (fun i hi => ?_) (fun i hi => ?_) (fun _ => Iff.rfl) (fun _ _ => rfl)
    · exact getLE_congr fun d hd => hfree i hi.1 hi.2.1 _ (by omega) (by omega)
    · exact getLE_congr fun d hd => hfree i hi.1 hi.2.1 _ (by omega) (by omega)

theorem Good.poke (h : Good m C U sz fl)
    (hz : ∀ x, z x ≠ m.aPool x → ∃ p ∈ U, 8 * p ≤ x ∧ x + 4 < 8 * (p + sz p)) :
    Good { m with aPool := z } C U sz fl := ⟨h.toInv.poke hz, h.master⟩

theorem Inv.apart (h : Inv m C U M sz fl) (hi : i ∈ U) (hj : j ∈ U) (hne : i ≠ j) :
    i + sz i ≤ j ∨ j + sz j ≤ i := by
  rcases Nat.lt_or_gt_of_ne hne with hlt | hlt
  · exact .inl (h.core.chunks.apart i (h.core.sub hi) j (h.core.sub hj) hlt)
  · exact .inr (h.core.chunks.apart j (h.core.sub hj) i (h.core.sub hi) hlt)

/-- A copy into a chunk leaves the others alone. -/
theorem Good.memcpy (h : Good m C U sz fl) (hq : q ∈ U) (hn : n + 4 ≤ 8 * sz q) (p : ℕ) :
    Good (memcpy m q p n) C U sz fl ∧ Kept (U.erase q) sz sz m (memcpy m q p n) := by
  have hb := h.core.bound (h.core.sub hq)
  have hout : ∀ x, ¬ (8 * q ≤ x ∧ x < 8 * q + n) → (Mem3.memcpy m q p n).aPool x = m.aPool x :=
    fun x hx => if_neg hx
  constructor
  · refine h.poke fun x hx => ⟨q, hq, ?_⟩
    by_contra hc
    exact hx (hout x fun hin => hc ⟨hin.1, by omega⟩)
  · refine ⟨⟨rfl, rfl, ⟨fun j hj x h1 h2 => hout x ?_, fun x hx => hout x ?_⟩⟩, fun _ _ => rfl⟩
    · obtain ⟨hjq, hjU⟩ := Finset.mem_erase.mp hj
      have := h.apart hjU hq hjq
      omega
    · omega

theorem memsys3Size_eq (h : Inv m C U M sz fl) (hp : p ∈ C) : (memsys3Size m p : ℤ) = 8 * sz p - 4 := by
  have hb := h.core.bound hp
  rw [memsys3Size, h.core.size p hp]
  omega

/-- A result of `memsys3Realloc`, with the chunks `V` that are not released: the chunk is given back for
a new one with its bytes, or for none, or it stays. -/
def Moved (m : Mem3Global) (V : Finset ℕ) (sz : ℕ → ℕ) (p : ℕ) (nBytes : ℤ) : Result → Prop
  | .unfinished => True
  | .null m' => ∃ C' sz' fl', Good m' C' (if nBytes ≤ 0 then V.erase p else V) sz' fl' ∧
      Kept (if nBytes ≤ 0 then V.erase p else V) sz sz' m m'
  | .pointer m' q => q ∉ V.erase p ∧
      ∃ C' sz' fl', Good m' C' (insert q (V.erase p)) sz' fl' ∧ nBytes + 4 ≤ 8 * sz' q ∧
        Kept (V.erase p) sz sz' m m' ∧
        ∀ x : ℕ, x + 4 < 8 * sz p → x < nBytes → m'.aPool (8 * q + x) = m.aPool (8 * p + x)

theorem mem_left (hp : p ∈ U) (hr : Releases (U.erase p) released.flatten) : p ∈ left U released := by
  refine Finset.mem_sdiff.mpr ⟨hp, fun hc => ?_⟩
  exact Finset.notMem_erase p U (hr.2 p (List.mem_toFinset.mp hc))

theorem Good.realloc (h : Good m C U sz fl) (hbusy : m.alarmBusy = false) (hp : p ∈ U)
    (hb : nByte ≤ 2147483636) (hr : Releases (U.erase p) released.flatten) :
    ∃ r, memsys3Realloc m p nByte released = some r ∧ Moved m (left U released) sz p nByte r := by
  have hused {r : Result} (hm : Moved m U sz p nByte r) :
      Moved m (left U released) sz p nByte (usedUp released r) := by
    cases released with
    | nil => rwa [usedUp_nil, left_nil]
    | cons ps released =>
      rw [usedUp_cons]
      trivial
  unfold memsys3Realloc
  rw [memsys3Size_eq h.toInv (h.core.sub hp)]
  by_cases h0 : nByte ≤ 0
  · rw [if_pos h0]
    obtain ⟨m', C', sz', fl', hm', g, k, -⟩ := h.freeUnsafe hp
    have hmoved : Moved m U sz p nByte (.null m') := by
      refine ⟨C', sz', fl', ?_⟩
      rw [if_pos h0]
      exact ⟨g, k⟩
    exact ⟨_, by rw [memsys3Free, hm']; rfl, hused hmoved⟩
  rw [if_neg h0]
  dsimp only
  by_cases hfit : nByte ≤ 8 * sz p - 4 ∧ 8 * (sz p : ℤ) - 4 - 128 ≤ nByte
  · rw [if_pos hfit]
    have hmoved : Moved m U sz p nByte (.pointer m p) := by
      refine ⟨Finset.notMem_erase p U, C, sz, fl, ?_, by omega, Kept.refl _ sz m, fun _ _ _ => rfl⟩
      rw [Finset.insert_erase hp]
      exact h
    exact ⟨_, rfl, hused hmoved⟩
  rw [if_neg hfit]
  have hrU : Releases U released.flatten := ⟨hr.1, fun y hy => Finset.mem_of_mem_erase (hr.2 y hy)⟩
  have hreq : Request nByte := ⟨Int.not_le.mp h0, hb⟩
  have hblocks := hreq.blocks
  obtain ⟨r, hm, hout⟩ := h.mallocUnsafe hbusy hreq hrU
  have hpV := mem_left hp hr
  rw [hm]
  cases r with
  | unfinished => exact ⟨_, rfl, trivial⟩
  | null m1 =>
    obtain ⟨C1, sz1, fl1, g1, k1⟩ := hout
    refine ⟨_, rfl, C1, sz1, fl1, ?_⟩
    rw [if_neg h0]
    exact ⟨g1, k1⟩
  | pointer m1 q =>
    obtain ⟨hqV, C1, sz1, fl1, g1, hs1, k1⟩ := hout
    generalize left U released = V at *
    have hqp : q ≠ p := fun hc => hqV (hc ▸ hpV)
    have hszp := k1.sizes p hpV
    have hcopied : ∃ n : ℕ,
        (if 8 * (sz p : ℤ) - 4 < nByte then 8 * (sz p : ℤ) - 4 else nByte).toNat = n ∧
        n + 4 ≤ 8 * sz1 q ∧ ∀ x : ℕ, x + 4 < 8 * sz p → x < nByte → x < n := by
      refine ⟨_, rfl, ?_⟩
      split
      · exact ⟨by omega, fun x h1 _ => by omega⟩
      · exact ⟨by omega, fun x _ h2 => by omega⟩
    obtain ⟨n, hn, hnq, hnx⟩ := hcopied
    obtain ⟨g2, k2⟩ := g1.memcpy (Finset.mem_insert_self q V) hnq p
    obtain ⟨m3, C3, sz3, fl3, hm3, g3, k3, -⟩ := g2.freeUnsafe (Finset.mem_insert_of_mem hpV)
    have hset : (insert q V).erase p = insert q (V.erase p) := Finset.erase_insert_of_ne hqp
    rw [hset] at g3 k3
    rw [Finset.erase_insert hqV] at k2
    refine ⟨.pointer m3 q, by dsimp only; rw [hn, hm3]; rfl, ?_, C3, sz3, fl3, g3, ?_, ?_, ?_⟩
    · exact fun hc => hqV (Finset.mem_of_mem_erase hc)
    · rw [k3.sizes q (Finset.mem_insert_self _ _)]
      omega
    · exact ((k1.trans k2).mono (Finset.erase_subset p V)).trans (k3.mono (Finset.subset_insert q _))
    · intro x hx hxn
      have hlt := hnx x hx hxn
      have e3 : m3.aPool (8 * q + x) = (Mem3.memcpy m1 q p n).aPool (8 * q + x) :=
        k3.keeps.user q (Finset.mem_insert_self _ _) _ (Nat.le_add_right _ _) (by omega)
      have e2 : (Mem3.memcpy m1 q p n).aPool (8 * q + x) = m1.aPool (8 * p + x) := by
        unfold Mem3.memcpy
        dsimp only
        rw [if_pos ⟨Nat.le_add_right _ _, by omega⟩, Nat.add_sub_cancel_left]
      exact (e3.trans e2).trans (k1.keeps.user p hpV _ (Nat.le_add_right _ _) (by omega))

end

/-- The allocator's memory and, for every live pointer, the number of bytes asked for. -/
structure Client where
  mem : Mem3Global
  live : ℕ → Option ℤ

/-- `released` are the chunks that `sqlite3_release_memory` frees, for each round of the call. -/
inductive Op
  | malloc (nBytes : ℤ) (released : List (List ℕ))
  | free (p : ℕ)
  | realloc (p : ℕ) (nBytes : ℤ) (released : List (List ℕ))
  | store (a : ℕ) (v : UInt8)

namespace Client

/-- The live pointers after the releases. -/
def remaining (s : Client) (released : List (List ℕ)) (q : ℕ) : Option ℤ :=
  if q ∈ released.flatten then none else s.live q

/-- Pointers handed back, and those of the releases, are live; stores go into live chunks; no request
comes near to the end of the range of `int`. -/
def Admits (s : Client) : Op → Prop
  | .malloc nBytes released => Request nBytes ∧ released.flatten.Nodup ∧
      ∀ q ∈ released.flatten, s.live q ≠ none
  | .free p => s.live p ≠ none
  | .realloc p nBytes released => s.live p ≠ none ∧ nBytes ≤ 2147483636 ∧ released.flatten.Nodup ∧
      ∀ q ∈ released.flatten, q ≠ p ∧ s.live q ≠ none
  | .store a _ => ∃ p, s.live p ≠ none ∧ 8 * p ≤ a ∧ a < 8 * p + memsys3Size s.mem p

/-- The result is `none` when an assert fails, and `some none` when a call is not done after the rounds
of its releases. -/
def step (s : Client) : Op → Option (Option Client)
  | .malloc nBytes released =>
    match memsys3Malloc s.mem nBytes released with
    | none => none
    | some .unfinished => some none
    | some (.null m) => some (some ⟨m, s.remaining released⟩)
    | some (.pointer m p) => some (some ⟨m, Function.update (s.remaining released) p (some nBytes)⟩)
  | .free p => (memsys3Free s.mem p).map fun m => some ⟨m, Function.update s.live p none⟩
  | .realloc p nBytes released =>
    match memsys3Realloc s.mem p nBytes released with
    | none => none
    | some .unfinished => some none
    | some (.null m) => some (some ⟨m, if nBytes ≤ 0 then
        Function.update (s.remaining released) p none else s.remaining released⟩)
    | some (.pointer m q) => some (some
        ⟨m, Function.update (Function.update (s.remaining released) p none) q (some nBytes)⟩)
  | .store a v => some (some { s with mem := { s.mem with aPool := Function.update s.mem.aPool a v } })

/-- The states a client can reach from the memory `m` that the initialisation left. -/
inductive Reachable (m : Mem3Global) : Client → Prop
  | init : Reachable m ⟨m, fun _ => none⟩
  | step {s s' : Client} {op : Op} : Reachable m s → s.Admits op → s.step op = some (some s') →
      Reachable m s'

end Client

/-- What a run keeps, when the heap has room for a chunk. -/
structure Holds (s : Client) (C U : Finset ℕ) (sz : ℕ → ℕ) (fl : Root → List ℕ) : Prop extends
    Good s.mem C U sz fl where
  busy : s.mem.alarmBusy = false
  live : ∀ p, p ∈ U ↔ s.live p ≠ none
  fits : ∀ p n, s.live p = some n → n + 4 ≤ 8 * sz p

/-- A heap without room for a chunk, as it was initialised. -/
structure Tiny (s : Client) : Prop where
  pool : s.mem.nPool ≤ 1
  iMaster : s.mem.iMaster = 1
  szMaster : s.mem.szMaster = s.mem.nPool
  root : ∀ r, s.mem.root r = 0
  tags : s.mem.nPool = 1 → size4x s.mem 0 = 6 ∧ prevSize s.mem 1 = 1
  last : size4x s.mem s.mem.nPool = 1
  live : ∀ p, s.live p = none

variable {s s' : Client} {m m₀ : Mem3Global} {C U V : Finset ℕ} {sz : ℕ → ℕ} {fl : Root → List ℕ}
  {released : List (List ℕ)} {nByte nHeap : ℤ} {z : ℕ → UInt8} {p q : ℕ}

theorem Client.remaining_eq_some {n : ℤ} :
    s.remaining released q = some n ↔ q ∉ released.flatten ∧ s.live q = some n := by
  unfold Client.remaining
  split
  · rename_i h
    exact ⟨fun hc => absurd hc.symm (Option.some_ne_none n), fun hc => absurd h hc.1⟩
  · rename_i h
    exact ⟨fun hc => ⟨h, hc⟩, fun hc => hc.2⟩

/-! The initialisation. -/

theorem memsys3Init_some (h : memsys3Init nHeap z = some m₀) (hn : nHeap ≤ 2147483647) :
    16 ≤ nHeap ∧ ∃ n : ℕ, (n : ℤ) = nHeap / 8 - 2 ∧
      m₀ = setSize4x (setPrevSize (setSize4x ⟨n, z, false, n, 1, n, fun _ => 0⟩ 0 (n * 4 + 2)) n n)
        n 1 := by
  unfold memsys3Init at h
  dsimp only at h
  split at h
  · rename_i hc
    generalize hn' : ((nHeap % 18446744073709551616 / 8 - 2) % 4294967296).toNat = n at h hc
    have h16 : 16 ≤ nHeap := by omega
    have heq : (n : ℤ) = nHeap / 8 - 2 := by omega
    have hsh : n <<< 2 % 4294967296 + 2 = n * 4 + 2 := by
      rw [Nat.shiftLeft_eq]
      omega
    rw [hsh] at h
    exact ⟨h16, n, heq, (Option.some.inj h).symm⟩
  · cases h

theorem memsys3Init_of_le (h16 : 16 ≤ nHeap) (hn : nHeap ≤ 2147483647) (z : ℕ → UInt8) :
    ∃ m₀, memsys3Init nHeap z = some m₀ := by
  unfold memsys3Init
  dsimp only
  generalize hn' : ((nHeap % 18446744073709551616 / 8 - 2) % 4294967296).toNat = n
  rw [if_pos (by omega)]
  exact ⟨_, rfl⟩

theorem init_words (n : ℕ) (hn : n < 268435456) (m : Mem3Global) :
    prevSize (setSize4x (setPrevSize (setSize4x m 0 (n * 4 + 2)) n n) n 1) =
      Function.update (prevSize m) n n ∧
    size4x (setSize4x (setPrevSize (setSize4x m 0 (n * 4 + 2)) n n) n 1) =
      Function.update (Function.update (size4x m) 0 (n * 4 + 2)) n 1 := by
  rw [prevSize_setSize4x, prevSize_setPrevSize (by omega), prevSize_setSize4x,
    size4x_setSize4x (by omega), size4x_setPrevSize, size4x_setSize4x (by omega)]
  exact ⟨rfl, rfl⟩

/-- The pool is the master. -/
theorem Holds.init {n : ℕ} (h2 : 2 ≤ n) (hn : n < 268435456) (z : ℕ → UInt8) :
    Holds ⟨setSize4x (setPrevSize (setSize4x ⟨n, z, false, n, 1, n, fun _ => 0⟩ 0 (n * 4 + 2)) n n) n 1,
      fun _ => none⟩ {1} ∅ (fun _ => n) fun _ => [] := by
  obtain ⟨w1, w2⟩ := init_words n hn ⟨n, z, false, n, 1, n, fun _ => 0⟩
  generalize hm : setSize4x (setPrevSize (setSize4x ⟨n, z, false, n, 1, n, fun _ => 0⟩ 0 (n * 4 + 2)) n n)
    n 1 = m at *
  have hpool : m.nPool = n := by rw [← hm]; rfl
  have hiM : m.iMaster = 1 := by rw [← hm]; rfl
  have hsM : m.szMaster = n := by rw [← hm]; rfl
  have hroot : m.root = fun _ => 0 := by rw [← hm]; rfl
  have hbusy : m.alarmBusy = false := by rw [← hm]; rfl
  have hset : masterSet m = {1} := masterSet_eq hiM (by decide)
  have hfirst : size4x m 0 = n * 4 + 2 := by
    have hne : 0 ≠ n := by omega
    rw [w2, Function.update_of_ne hne, Function.update_self]
  have hlast : size4x m n = 1 := by rw [w2, Function.update_self]
  have hone : ∀ {i : ℕ}, i ∈ ({1} : Finset ℕ) → size4x m (i - 1) = n * 4 + 2 := by
    intro i hi
    rw [Finset.mem_singleton.mp hi]
    exact hfirst
  refine ⟨⟨⟨by rw [hpool]; exact hn, ?_, ?_, ?_⟩, ?_⟩, hbusy, ?_, ?_⟩
  · show Core m.nPool (prevSize m) (size4x m) {1} ∅ fun _ => n
    rw [hpool]
    constructor
    · rw [Nat.add_comm n 1]
      exact Chunks.single h2
    · exact Finset.empty_subset _
    · intro i hi
      rw [hone hi]
      omega
    · intro i hi
      rw [hone hi]
      exact ⟨fun hc => by omega, fun hc => absurd hc (Finset.notMem_empty i)⟩
    · rintro i (hi | rfl)
      · rw [hone hi]
        exact ⟨fun _ => .inl (Finset.mem_singleton.mp hi), fun _ => by omega⟩
      · rw [Nat.add_sub_cancel, hlast]
        constructor
        · exact fun hc => absurd hc (by decide)
        · rintro (hc | ⟨j, hj, -⟩)
          · omega
          · exact absurd hj (Finset.notMem_empty j)
    · rw [hlast]
      exact ⟨rfl, rfl⟩
    · intro i hi _
      rw [Finset.mem_singleton.mp hi, Nat.add_sub_cancel_left, w1, Function.update_self]
  · intro i hi
    rw [hset] at hi
    exact ⟨hi, Finset.notMem_empty i⟩
  · show Lists (prevSize m) (size4x m) m.root (Listed {1} ∅ (masterSet m)) (fun _ => n) fun _ => []
    rw [hset, hroot]
    constructor
    · exact fun _ => rfl
    · exact fun _ => trivial
    · exact fun _ => List.nodup_nil
    · exact fun r i => ⟨fun hc => absurd hc List.not_mem_nil, fun hc => absurd hc.1.1 hc.1.2.2⟩
  · show m.szMaster = if m.iMaster = 0 then 0 else n
    rw [hiM, hsM, if_neg (by decide)]
  · exact fun p => ⟨fun hc => absurd hc (Finset.notMem_empty p), fun hc => absurd rfl hc⟩
  · exact fun p n hc => absurd hc.symm (Option.some_ne_none n)

theorem Tiny.init {n : ℕ} (h1 : n ≤ 1) (z : ℕ → UInt8) :
    Tiny ⟨setSize4x (setPrevSize (setSize4x ⟨n, z, false, n, 1, n, fun _ => 0⟩ 0 (n * 4 + 2)) n n) n 1,
      fun _ => none⟩ := by
  obtain ⟨w1, w2⟩ := init_words n (by omega) ⟨n, z, false, n, 1, n, fun _ => 0⟩
  refine ⟨h1, rfl, rfl, fun _ => rfl, ?_, ?_, fun _ => rfl⟩
  · rintro hn
    have hn1 : n = 1 := hn
    dsimp only
    rw [w1, w2, hn1]
    exact ⟨rfl, rfl⟩
  · show size4x _ n = 1
    rw [w2, Function.update_self]

/-! One step. -/

theorem Holds.releases (h : Holds s C U sz fl) (hnd : released.flatten.Nodup)
    (hl : ∀ q ∈ released.flatten, s.live q ≠ none) : Releases U released.flatten :=
  ⟨hnd, fun q hq => (h.live q).mpr (hl q hq)⟩

theorem Holds.left (h : Holds s C U sz fl) (q : ℕ) :
    q ∈ left U released ↔ s.remaining released q ≠ none := by
  unfold Mem3.left Client.remaining
  rw [Finset.mem_sdiff, List.mem_toFinset, h.live q]
  split
  · rename_i hq
    exact ⟨fun hc => absurd hq hc.2, fun hc => absurd rfl hc⟩
  · rename_i hq
    exact ⟨fun hc => hc.1, fun hc => ⟨hc, hq⟩⟩

/-- A chunk with its bytes. -/
def Unchanged (m m' : Mem3Global) (q : ℕ) : Prop :=
  memsys3Size m' q = memsys3Size m q ∧
    ∀ o < memsys3Size m q, m'.aPool (8 * q + o) = m.aPool (8 * q + o)

/-- What a call does to the client's pointers and bytes. -/
def Client.Keeps (s s' : Client) : Op → Prop
  | .malloc nBytes released =>
    (∀ q, s.remaining released q ≠ none → Unchanged s.mem s'.mem q) ∧
      (s'.live = s.remaining released ∨ ∃ p, s.remaining released p = none ∧
        s'.live = Function.update (s.remaining released) p (some nBytes))
  | .free p => (∀ q ≠ p, s.live q ≠ none → Unchanged s.mem s'.mem q) ∧
      s'.live = Function.update s.live p none
  | .realloc p nBytes released =>
    (∀ q ≠ p, s.remaining released q ≠ none → Unchanged s.mem s'.mem q) ∧
      ((nBytes ≤ 0 ∧ s'.live = Function.update (s.remaining released) p none) ∨
        (0 < nBytes ∧ s'.live = s.remaining released ∧ Unchanged s.mem s'.mem p) ∨
        ∃ q, (q = p ∨ s.remaining released q = none) ∧
          s'.live = Function.update (Function.update (s.remaining released) p none) q (some nBytes) ∧
          ∀ o < memsys3Size s.mem p, (o : ℤ) < nBytes →
            s'.mem.aPool (8 * q + o) = s.mem.aPool (8 * p + o))
  | .store a _ => s'.live = s.live ∧ ∀ x ≠ a, s'.mem.aPool x = s.mem.aPool x

/-- A chunk that is in use before and after. -/
theorem Kept.unchanged {M M' C' U' : Finset ℕ} {m' : Mem3Global} {sz' : ℕ → ℕ} {fl' : Root → List ℕ}
    (k : Kept V sz sz' m m') (h : Inv m C U M sz fl) (h' : Inv m' C' U' M' sz' fl') (hq : q ∈ V)
    (hU : q ∈ U) (hU' : q ∈ U') : Unchanged m m' q := by
  have hs := memsys3Size_eq h (h.core.sub hU)
  have hs' := memsys3Size_eq h' (h'.core.sub hU')
  rw [k.sizes q hq] at hs'
  refine ⟨by omega, fun o ho => k.keeps.user q hq _ (Nat.le_add_right _ _) ?_⟩
  omega

/-- The pointers after a call that left the chunks `V`, and checked `p` out. -/
theorem live_insert {f : ℕ → Option ℤ} (hl : ∀ q, q ∈ V ↔ f q ≠ none) (n : ℤ) :
    q ∈ insert p V ↔ Function.update f p (some n) q ≠ none := by
  rw [Finset.mem_insert, hl]
  by_cases hq : q = p
  · rw [hq, Function.update_self]
    exact ⟨fun _ => Option.some_ne_none n, fun _ => .inl rfl⟩
  · rw [Function.update_of_ne hq]
    exact ⟨fun hc => hc.resolve_left hq, .inr⟩

theorem live_erase {f : ℕ → Option ℤ} (hl : ∀ q, q ∈ V ↔ f q ≠ none) :
    q ∈ V.erase p ↔ Function.update f p none q ≠ none := by
  rw [Finset.mem_erase, hl]
  by_cases hq : q = p
  · rw [hq, Function.update_self]
    exact ⟨fun hc => absurd rfl hc.1, fun hc => absurd rfl hc⟩
  · rw [Function.update_of_ne hq]
    exact ⟨fun hc => hc.2, fun hc => ⟨hq, hc⟩⟩

/-- The requests fit after a call that kept the sizes. -/
theorem fits_of_kept {f g : ℕ → Option ℤ} {sz' : ℕ → ℕ} (hf : ∀ q n, f q = some n → n + 4 ≤ 8 * sz q)
    (hl : ∀ q, q ∈ V ↔ g q ≠ none) (hg : ∀ q n, g q = some n → f q = some n)
    (hs : ∀ q ∈ V, sz' q = sz q) : ∀ q n, g q = some n → n + 4 ≤ 8 * sz' q := by
  intro q n hq
  have hV : q ∈ V := (hl q).mpr fun hc => Option.some_ne_none n (hq.symm.trans hc)
  rw [hs q hV]
  exact hf q n (hg q n hq)

theorem fits_update {f : ℕ → Option ℤ} {n : ℤ} (hf : ∀ q n, f q = some n → n + 4 ≤ 8 * sz q)
    (hn : n + 4 ≤ 8 * sz p) :
    ∀ q n', Function.update f p (some n) q = some n' → n' + 4 ≤ 8 * sz q := by
  intro q n' hq
  by_cases hqp : q = p
  · rw [hqp, Function.update_self] at hq
    rw [hqp, ← Option.some.inj hq]
    exact hn
  · rw [Function.update_of_ne hqp] at hq
    exact hf q n' hq

theorem update_none_some {f : ℕ → Option ℤ} {n : ℤ} (h : Function.update f p none q = some n) :
    f q = some n := by
  by_cases hq : q = p
  · rw [hq, Function.update_self] at h
    exact absurd h.symm (Option.some_ne_none n)
  · rwa [Function.update_of_ne hq] at h

theorem Holds.step_malloc (h : Holds s C U sz fl) (ha : s.Admits (.malloc nByte released)) :
    ∃ r, s.step (.malloc nByte released) = some r ∧ ∀ s', r = some s' →
      s.Keeps s' (.malloc nByte released) ∧ s'.mem.nPool = s.mem.nPool ∧
      ∃ C' U' sz' fl', Holds s' C' U' sz' fl' := by
  obtain ⟨hreq, hnd, hl⟩ := ha
  have hblocks := hreq.blocks
  obtain ⟨r, hr, hout⟩ := h.mallocUnsafe h.busy hreq (h.releases hnd hl)
  have hm : memsys3Malloc s.mem nByte released = some r := by
    rw [memsys3Malloc, if_pos hreq.1]
    exact hr
  simp only [Client.step, hm]
  have hleft : ∀ q, q ∈ Mem3.left U released ↔ s.remaining released q ≠ none := h.left
  have hsub : Mem3.left U released ⊆ U := Finset.sdiff_subset
  have hrem : ∀ q n, s.remaining released q = some n → s.live q = some n :=
    fun q n hq => (Client.remaining_eq_some.mp hq).2
  generalize Mem3.left U released = V at *
  cases r with
  | unfinished => exact ⟨none, rfl, fun s' hs => absurd hs.symm (Option.some_ne_none s')⟩
  | null m' =>
    obtain ⟨C', sz', fl', g, k⟩ := hout
    refine ⟨_, rfl, fun s' hs => ?_⟩
    rw [← Option.some.inj hs]
    refine ⟨⟨fun q hq => ?_, .inl rfl⟩, k.nPool, C', V, sz', fl', g, k.alarmBusy.trans h.busy, hleft,
      ?_⟩
    · have hqV := (hleft q).mpr hq
      exact k.unchanged h.toInv g.toInv hqV (hsub hqV) hqV
    · exact fits_of_kept h.fits hleft hrem k.sizes
  | pointer m' p =>
    obtain ⟨hp, C', sz', fl', g, hs', k⟩ := hout
    refine ⟨_, rfl, fun s' hs => ?_⟩
    rw [← Option.some.inj hs]
    refine ⟨⟨fun q hq => ?_, .inr ⟨p, ?_, rfl⟩⟩, k.nPool, C', insert p V, sz', fl', g,
      k.alarmBusy.trans h.busy, fun q => live_insert hleft nByte, ?_⟩
    · have hqV := (hleft q).mpr hq
      exact k.unchanged h.toInv g.toInv hqV (hsub hqV) (Finset.mem_insert_of_mem hqV)
    · exact not_not.mp (mt (hleft p).mpr hp)
    · exact fits_update (fits_of_kept h.fits hleft hrem k.sizes) (by omega)

theorem Holds.step_free (h : Holds s C U sz fl) (hp : s.live p ≠ none) :
    ∃ s', s.step (.free p) = some (some s') ∧ s.Keeps s' (.free p) ∧ s'.mem.nPool = s.mem.nPool ∧
      ∃ C' U' sz' fl', Holds s' C' U' sz' fl' := by
  obtain ⟨m', C', sz', fl', hm, g, k, -⟩ := h.freeUnsafe ((h.live p).mpr hp)
  have hlive : ∀ q, q ∈ U.erase p ↔ Function.update s.live p none q ≠ none :=
    fun q => live_erase h.live
  refine ⟨⟨m', Function.update s.live p none⟩, ?_, ⟨fun q hq hl => ?_, rfl⟩, k.nPool, C', U.erase p,
    sz', fl', g, k.alarmBusy.trans h.busy, hlive, ?_⟩
  · simp only [Client.step, memsys3Free, hm]
    rfl
  · have hqU := (h.live q).mpr hl
    have hmem := Finset.mem_erase.mpr ⟨hq, hqU⟩
    exact k.unchanged h.toInv g.toInv hmem hqU hmem
  · exact fits_of_kept h.fits hlive (fun q n => update_none_some) k.sizes

theorem Holds.step_realloc (h : Holds s C U sz fl) (ha : s.Admits (.realloc p nByte released)) :
    ∃ r, s.step (.realloc p nByte released) = some r ∧ ∀ s', r = some s' →
      s.Keeps s' (.realloc p nByte released) ∧ s'.mem.nPool = s.mem.nPool ∧
      ∃ C' U' sz' fl', Holds s' C' U' sz' fl' := by
  obtain ⟨hp, hreq, hnd, hl⟩ := ha
  have hpU := (h.live p).mpr hp
  have hrel : Releases (U.erase p) released.flatten :=
    ⟨hnd, fun q hq => Finset.mem_erase.mpr ⟨(hl q hq).1, (h.live q).mpr (hl q hq).2⟩⟩
  obtain ⟨r, hr, hout⟩ := h.realloc h.busy hpU hreq hrel
  simp only [Client.step, hr]
  have hleft : ∀ q, q ∈ Mem3.left U released ↔ s.remaining released q ≠ none := h.left
  have hpV := mem_left hpU hrel
  have hsub : Mem3.left U released ⊆ U := Finset.sdiff_subset
  have hrem : ∀ q n, s.remaining released q = some n → s.live q = some n :=
    fun q n hq => (Client.remaining_eq_some.mp hq).2
  generalize Mem3.left U released = V at *
  have hlive : ∀ q, q ∈ V.erase p ↔ Function.update (s.remaining released) p none q ≠ none :=
    fun q => live_erase hleft
  have hrem' : ∀ q n, Function.update (s.remaining released) p none q = some n → s.live q = some n :=
    fun q n hq => hrem q n (update_none_some hq)
  cases r with
  | unfinished => exact ⟨none, rfl, fun s' hs => absurd hs.symm (Option.some_ne_none s')⟩
  | null m' =>
    obtain ⟨C', sz', fl', hgk⟩ := hout
    refine ⟨_, rfl, fun s' hs => ?_⟩
    rw [← Option.some.inj hs]
    by_cases h0 : nByte ≤ 0
    · rw [if_pos h0] at hgk ⊢
      obtain ⟨g, k⟩ := hgk
      refine ⟨⟨fun q hq hl => ?_, .inl ⟨h0, rfl⟩⟩, k.nPool, C', V.erase p, sz', fl', g,
        k.alarmBusy.trans h.busy, hlive, fits_of_kept h.fits hlive hrem' k.sizes⟩
      have hqV := (hleft q).mpr hl
      have hmem := Finset.mem_erase.mpr ⟨hq, hqV⟩
      exact k.unchanged h.toInv g.toInv hmem (hsub hqV) hmem
    · rw [if_neg h0] at hgk ⊢
      obtain ⟨g, k⟩ := hgk
      have hun : ∀ q ∈ V, Unchanged s.mem m' q :=
        fun q hq => k.unchanged h.toInv g.toInv hq (hsub hq) hq
      refine ⟨⟨fun q _ hl => hun q ((hleft q).mpr hl), .inr (.inl ⟨Int.not_le.mp h0, rfl, hun p hpV⟩)⟩,
        k.nPool, C', V, sz', fl', g, k.alarmBusy.trans h.busy, hleft, ?_⟩
      exact fits_of_kept h.fits hleft hrem k.sizes
  | pointer m' q =>
    obtain ⟨hq, C', sz', fl', g, hs', k, hbytes⟩ := hout
    refine ⟨_, rfl, fun s' hs => ?_⟩
    rw [← Option.some.inj hs]
    refine ⟨⟨fun x hx hl => ?_, .inr (.inr ⟨q, ?_, rfl, fun o ho hn => hbytes o ?_ hn⟩)⟩, k.nPool,
      C', insert q (V.erase p), sz', fl', g, k.alarmBusy.trans h.busy,
      fun x => live_insert hlive nByte, ?_⟩
    · have hxV := (hleft x).mpr hl
      have hmem := Finset.mem_erase.mpr ⟨hx, hxV⟩
      exact k.unchanged h.toInv g.toInv hmem (hsub hxV) (Finset.mem_insert_of_mem hmem)
    · by_contra hc
      obtain ⟨h1, h2⟩ := not_or.mp hc
      exact hq (Finset.mem_erase.mpr ⟨h1, (hleft q).mpr h2⟩)
    · have hsize := memsys3Size_eq h.toInv (h.core.sub hpU)
      omega
    · exact fits_update (fits_of_kept h.fits hlive hrem' k.sizes) hs'

theorem Holds.step_store (h : Holds s C U sz fl) {a : ℕ} {v : UInt8} (ha : s.Admits (.store a v)) :
    Holds { s with mem := { s.mem with aPool := Function.update s.mem.aPool a v } } C U sz fl := by
  obtain ⟨p, hp, h1, h2⟩ := ha
  have hpU := (h.live p).mpr hp
  have hsize := memsys3Size_eq h.toInv (h.core.sub hpU)
  refine ⟨h.poke fun x hx => ?_, h.busy, h.live, h.fits⟩
  by_cases hxa : x = a
  · exact ⟨p, hpU, by omega, by omega⟩
  · exact absurd (Function.update_of_ne hxa _ _) hx

/-- Every call that a client may make goes well, and keeps the invariant. -/
theorem Holds.step (h : Holds s C U sz fl) {op : Op} (ha : s.Admits op) :
    ∃ r, s.step op = some r ∧ ∀ s', r = some s' → s.Keeps s' op ∧ s'.mem.nPool = s.mem.nPool ∧
      ∃ C' U' sz' fl', Holds s' C' U' sz' fl' := by
  cases op with
  | malloc nBytes released => exact h.step_malloc ha
  | free p =>
    obtain ⟨s', hs, hkeep⟩ := h.step_free ha
    refine ⟨_, hs, fun s'' he => ?_⟩
    rw [← Option.some.inj he]
    exact hkeep
  | realloc p nBytes released => exact h.step_realloc ha
  | store a v =>
    refine ⟨_, rfl, fun s' he => ?_⟩
    rw [← Option.some.inj he]
    exact ⟨⟨rfl, fun x hx => Function.update_of_ne hx _ _⟩, rfl, C, U, sz, fl, h.step_store ha⟩

/-! A heap without room for a chunk. -/

/-- Every request fails. -/
theorem Tiny.mallocUnsafe (h : Tiny s) (hb : Request nByte) (released : List (List ℕ)) :
    memsys3MallocUnsafe s.mem nByte released = some (usedUp released (.null s.mem)) := by
  obtain ⟨h2, -, hlt⟩ := hb.blocks
  have hpool := h.pool
  have hs := h.szMaster
  have hfind : (if blocksFor nByte ≤ MX_SMALL then some (s.mem.root (rootOf (blocksFor nByte)))
      else findSize s.mem (blocksFor nByte) s.mem.nPool
        (s.mem.root (rootOf (blocksFor nByte)))) = some 0 := by
    rw [h.root]
    split
    · rfl
    · rw [findSize]
  unfold memsys3MallocUnsafe
  dsimp only
  rw [if_neg (Nat.not_lt.mpr h2), hfind]
  dsimp only
  rw [if_neg (not_not.mpr rfl), if_neg (by omega)]
  unfold coalesceLoop
  rw [if_neg (by omega)]

theorem Tiny.step (h : Tiny s) {op : Op} (ha : s.Admits op) :
    ∃ r, s.step op = some r ∧
      ∀ s', r = some s' → s.Keeps s' op ∧ s'.mem.nPool = s.mem.nPool ∧ Tiny s' := by
  cases op with
  | malloc nBytes released =>
    obtain ⟨hreq, -, hl⟩ := ha
    have hm : memsys3Malloc s.mem nBytes released = some (usedUp released (.null s.mem)) := by
      rw [memsys3Malloc, if_pos hreq.1]
      exact h.mallocUnsafe hreq released
    simp only [Client.step, hm]
    cases released with
    | nil =>
      rw [usedUp_nil]
      refine ⟨_, rfl, fun s' hs => ?_⟩
      rw [← Option.some.inj hs]
      have hlive : s.remaining [] = s.live := by
        funext q
        exact if_neg List.not_mem_nil
      refine ⟨⟨fun q _ => ⟨rfl, fun _ _ => rfl⟩, .inl rfl⟩, rfl, ?_⟩
      rw [hlive]
      exact h
    | cons ps released =>
      rw [usedUp_cons]
      exact ⟨none, rfl, fun s' hs => absurd hs.symm (Option.some_ne_none s')⟩
  | free p => exact absurd (h.live p) ha
  | realloc p nBytes released => exact absurd (h.live p) ha.1
  | store a v =>
    obtain ⟨p, hp, -⟩ := ha
    exact absurd (h.live p) hp

/-- What holds in every state of a run. -/
theorem Client.Reachable.holds (hm : memsys3Init nHeap z = some m₀) (hn : nHeap ≤ 2147483647)
    (h : Client.Reachable m₀ s) :
    s.mem.nPool = m₀.nPool ∧ (Tiny s ∨ ∃ C U sz fl, Holds s C U sz fl) := by
  obtain ⟨h16, n, hn', hm₀⟩ := memsys3Init_some hm hn
  induction h with
  | init =>
    refine ⟨rfl, ?_⟩
    rw [hm₀]
    by_cases h2 : 2 ≤ n
    · exact .inr ⟨{1}, ∅, fun _ => n, fun _ => [], Holds.init h2 (by omega) z⟩
    · exact .inl (Tiny.init (by omega) z)
  | step _ ha hs ih =>
    obtain ⟨hpool, hi⟩ := ih
    rcases hi with h | ⟨C, U, sz, fl, h⟩
    · obtain ⟨r, hr, hall⟩ := h.step ha
      obtain ⟨-, hp, h'⟩ := hall _ (Option.some.inj (hr.symm.trans hs))
      exact ⟨hp.trans hpool, .inl h'⟩
    · obtain ⟨r, hr, hall⟩ := h.step ha
      obtain ⟨-, hp, h'⟩ := hall _ (Option.some.inj (hr.symm.trans hs))
      exact ⟨hp.trans hpool, .inr h'⟩

end Sqlite.Mem3

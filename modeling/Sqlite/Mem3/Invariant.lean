import Mathlib.Data.Finset.Basic
import Sqlite.Foundation.Chunks
import Sqlite.Foundation.Links
import Sqlite.Mem3.Model

/-! What holds of the pool: `C` are the chunks, `U` those that are checked out, and `M` those free
ones that are on no list. -/
namespace Sqlite.Mem3
open Foundation

section

/-! The words of blocks, the bits of headers, and the bytes that a write leaves alone. -/

variable {m : Mem3Global} {b v x n : ℕ} {p p' p'' : ℕ → UInt8} {U V : Finset ℕ} {sz sz' : ℕ → ℕ}

theorem getLE_lt (p : ℕ → UInt8) (a : ℕ) : getLE p a < 4294967296 := by
  have h0 := (p a).toNat_lt
  have h1 := (p (a + 1)).toNat_lt
  have h2 := (p (a + 2)).toNat_lt
  have h3 := (p (a + 3)).toNat_lt
  unfold getLE
  omega

theorem size4x_lt (m : Mem3Global) (b : ℕ) : size4x m b < 4294967296 := getLE_lt _ _

theorem prevSize_lt (m : Mem3Global) (b : ℕ) : prevSize m b < 4294967296 := getLE_lt _ _

theorem prevSize_setPrevSize (hv : v < 4294967296) :
    prevSize (setPrevSize m b v) = Function.update (prevSize m) b v := by
  funext b'
  unfold prevSize setPrevSize
  by_cases hb : b' = b
  · rw [hb, Function.update_self]
    exact getLE_putLE_self hv
  · rw [Function.update_of_ne hb]
    exact getLE_putLE_of_ne (by omega)

theorem size4x_setPrevSize : size4x (setPrevSize m b v) = size4x m := by
  funext b'
  exact getLE_putLE_of_ne (by omega)

theorem size4x_setSize4x (hv : v < 4294967296) :
    size4x (setSize4x m b v) = Function.update (size4x m) b v := by
  funext b'
  unfold size4x setSize4x
  by_cases hb : b' = b
  · rw [hb, Function.update_self]
    exact getLE_putLE_self hv
  · rw [Function.update_of_ne hb]
    exact getLE_putLE_of_ne (by omega)

theorem prevSize_setSize4x : prevSize (setSize4x m b v) = prevSize m := by
  funext b'
  exact getLE_putLE_of_ne (by omega)

/-- The bit that tells whether the chunk before is checked out. -/
theorem and_two (x : ℕ) : x &&& 2 = x / 2 % 2 * 2 := by
  have h : x &&& 2 = x / 2 ^ 1 % 2 ^ 1 * 2 ^ 1 := and_mask x 1 1
  omega

theorem and_two_eq_zero : x &&& 2 = 0 ↔ ¬ x / 2 % 2 = 1 := by
  rw [and_two]
  omega

theorem and_one_eq_zero : x &&& 1 = 0 ↔ ¬ x % 2 = 1 := by
  rw [Nat.and_one_is_mod]
  omega

theorem free_header (k x : ℕ) : k * 4 ||| (x &&& 2) = k * 4 + x / 2 % 2 * 2 := by
  rw [and_two]
  exact four_or k (by omega)

theorem used_header (k x : ℕ) : k * 4 ||| 1 ||| (x &&& 2) = k * 4 + 1 + x / 2 % 2 * 2 := by
  have hbits : 1 ||| (x / 2 % 2 * 2) = 1 + x / 2 % 2 * 2 := by
    have hlt : x / 2 % 2 < 2 := Nat.mod_lt _ (by decide)
    generalize x / 2 % 2 = r at hlt
    interval_cases r <;> rfl
  rw [and_two, Nat.or_assoc, hbits, four_or k (by omega), Nat.add_assoc]

theorem clear_used (h : x < 4294967296) : x &&& 0xFFFFFFFE = x / 2 * 2 := by
  have hm : x &&& 0xFFFFFFFE = x / 2 ^ 1 % 2 ^ 31 * 2 ^ 1 := and_mask x 31 1
  omega

theorem clear_prev (h : x < 4294967296) : x &&& 0xFFFFFFFD = x / 4 * 4 + x % 2 := by
  have h4 : x &&& 0xFFFFFFFC = x / 2 ^ 2 % 2 ^ 30 * 2 ^ 2 := and_mask x 30 2
  have h1 : x &&& 1 = x % 2 := Nat.and_one_is_mod x
  have hor : (0xFFFFFFFD : ℕ) = 0xFFFFFFFC ||| 1 := rfl
  have hdiv : x / 2 ^ 2 % 2 ^ 30 * 2 ^ 2 = x / 4 * 4 := by omega
  rw [hor, Nat.and_or_distrib_left, h4, h1, hdiv, four_or _ (by omega)]

/-- The bytes of the chunks in `U`, and those outside of the heap, are the same. -/
structure Keeps (n : ℕ) (U : Finset ℕ) (sz : ℕ → ℕ) (p p' : ℕ → UInt8) : Prop where
  user : ∀ i ∈ U, ∀ x, 8 * i ≤ x → x + 4 < 8 * (i + sz i) → p' x = p x
  outside : ∀ x, 8 * n + 8 ≤ x → p' x = p x

theorem Keeps.refl (n : ℕ) (U : Finset ℕ) (sz : ℕ → ℕ) (p : ℕ → UInt8) : Keeps n U sz p p :=
  ⟨fun _ _ _ _ _ => rfl, fun _ _ => rfl⟩

theorem Keeps.trans (h : Keeps n U sz p p') (h' : Keeps n U sz p' p'') : Keeps n U sz p p'' := by
  constructor
  · intro i hi x h1 h2
    exact (h'.user i hi x h1 h2).trans (h.user i hi x h1 h2)
  · intro x hx
    exact (h'.outside x hx).trans (h.outside x hx)

theorem Keeps.mono (h : Keeps n U sz p p') (hsub : V ⊆ U) (hs : ∀ i ∈ V, sz' i = sz i) :
    Keeps n V sz' p p' := by
  constructor
  · intro i hi x h1 h2
    rw [hs i hi] at h2
    exact h.user i (hsub hi) x h1 h2
  · exact h.outside

/-- The word before the header proper is data of the chunk that ends there. -/
theorem Keeps.setPrevSize (hb : ∀ i ∈ U, ¬ (i ≤ b ∧ b < i + sz i)) (hn : b ≤ n) (v : ℕ) :
    Keeps n U sz m.aPool (setPrevSize m b v).aPool := by
  constructor
  · intro i hi x h1 h2
    have := hb i hi
    exact putLE_of_outside (by omega)
  · intro x hx
    exact putLE_of_outside (by omega)

theorem Keeps.setSize4x (hb : ∀ i ∈ U, ¬ (i ≤ b ∧ b + 1 < i + sz i)) (hn : b ≤ n) (v : ℕ) :
    Keeps n U sz m.aPool (setSize4x m b v).aPool := by
  constructor
  · intro i hi x h1 h2
    have := hb i hi
    exact putLE_of_outside (by omega)
  · intro x hx
    exact putLE_of_outside (by omega)

/-- An index as the code tests it. -/
def toPtr (i : ℕ) : Option ℕ := if i = 0 then none else some i

@[simp] theorem toPtr_zero : toPtr 0 = none := rfl

theorem toPtr_of_ne {i : ℕ} (h : i ≠ 0) : toPtr i = some i := if_neg h

theorem toPtr_eq_some {i j : ℕ} : toPtr i = some j ↔ i = j ∧ j ≠ 0 := by
  unfold toPtr
  split
  · rename_i h
    constructor
    · intro hc
      cases hc
    · rintro ⟨h1, h2⟩
      exact absurd (h1.symm.trans h) h2
  · rename_i h
    rw [Option.some.injEq]
    constructor
    · rintro rfl
      exact ⟨rfl, h⟩
    · exact fun hc => hc.1

theorem toPtr_eq_none {i : ℕ} : toPtr i = none ↔ i = 0 := by
  unfold toPtr
  split
  · rename_i h
    exact ⟨fun _ => h, fun _ => rfl⟩
  · rename_i h
    exact ⟨fun hc => absurd hc (Option.some_ne_none i), fun hc => absurd hc h⟩

end

variable {m m' m'' : Mem3Global} {n i j b : ℕ} {low low' high high' : ℕ → ℕ} {C U M : Finset ℕ}
  {sz sz' : ℕ → ℕ} {root root' : Root → ℕ} {fl fl' : Root → List ℕ} {F F' : ℕ → Prop}

/-- The headers agree with the chunks; `low` and `high` are the words of the blocks. -/
structure Core (n : ℕ) (low high : ℕ → ℕ) (C U : Finset ℕ) (sz : ℕ → ℕ) : Prop where
  chunks : Chunks 1 (n + 1) C sz
  sub : U ⊆ C
  size : ∀ i ∈ C, high (i - 1) / 4 = sz i
  used : ∀ i ∈ C, high (i - 1) % 2 = 1 ↔ i ∈ U
  prev : ∀ i, i ∈ C ∨ i = n + 1 → (high (i - 1) / 2 % 2 = 1 ↔ i = 1 ∨ ∃ j ∈ U, j + sz j = i)
  last : high n / 4 = 0 ∧ high n % 2 = 1
  tail : ∀ i ∈ C, i ∉ U → low (i + sz i - 1) = sz i

theorem Core.pos (h : Core n low high C U sz) (hi : i ∈ C) : 1 ≤ i := h.chunks.low i hi

theorem Core.bound (h : Core n low high C U sz) (hi : i ∈ C) : i + sz i ≤ n + 1 ∧ 2 ≤ sz i :=
  ⟨h.chunks.high i hi, h.chunks.two i hi⟩

/-- The chunk after `i`, or the end. -/
theorem Core.next (h : Core n low high C U sz) (hi : i ∈ C) :
    i + sz i ∈ C ∨ i + sz i = n + 1 := (h.chunks.next i hi).symm

/-- The second block of a chunk is no header. -/
theorem Core.block_ne (h : Core n low high C U sz) (hi : i ∈ C) (hj : j ∈ C ∨ j = n + 1) :
    i ≠ j - 1 := by
  have hne := h.chunks.succ_ne hi hj
  have hj1 : 1 ≤ j := by
    rcases hj with hj | rfl
    · exact h.pos hj
    · omega
  omega

/-- Writes to second blocks of free chunks do not matter. -/
theorem Core.congr (h : Core n low high C U sz)
    (hb : ∀ b, low' b ≠ low b ∨ high' b ≠ high b → b ∈ C ∧ b ∉ U) :
    Core n low' high' C U sz := by
  have hhead : ∀ j, j ∈ C ∨ j = n + 1 → low' (j - 1) = low (j - 1) ∧ high' (j - 1) = high (j - 1) := by
    intro j hj
    constructor
    · by_contra hc
      exact h.block_ne (hb _ (Or.inl hc)).1 hj rfl
    · by_contra hc
      exact h.block_ne (hb _ (Or.inr hc)).1 hj rfl
  constructor
  · exact h.chunks
  · exact h.sub
  · intro i hi
    rw [(hhead i (Or.inl hi)).2]
    exact h.size i hi
  · intro i hi
    rw [(hhead i (Or.inl hi)).2]
    exact h.used i hi
  · intro i hi
    rw [(hhead i hi).2]
    exact h.prev i hi
  · have hn : high' n = high n := (hhead (n + 1) (Or.inr rfl)).2
    rw [hn]
    exact h.last
  · intro i hi hu
    rw [(hhead (i + sz i) (h.next hi)).1]
    exact h.tail i hi hu

/-- A block of a chunk belongs to no other one. -/
theorem Core.user_ne (h : Core n low high C U sz) (hi : i ∈ C) (hu : i ∉ U) :
    ∀ j ∈ U, ¬ (j ≤ i ∧ i < j + sz j) := by
  rintro j hj ⟨h1, h2⟩
  have hne : j ≠ i := fun e => hu (e ▸ hj)
  have := h.chunks.apart j (h.sub hj) i hi (by omega)
  omega

/-- The chunks that satisfy `F` are on the lists, each on that of its size. -/
structure Lists (low high : ℕ → ℕ) (root : Root → ℕ) (F : ℕ → Prop) (sz : ℕ → ℕ)
    (fl : Root → List ℕ) : Prop where
  head : ∀ r, toPtr (root r) = (fl r).head?
  links : ∀ r, Links (fun i => toPtr (low i)) (fun i => toPtr (high i)) none (fl r)
  nodup : ∀ r, (fl r).Nodup
  mem : ∀ r i, i ∈ fl r ↔ F i ∧ rootOf (sz i) = r

/-- Lists are made of the blocks of their chunks. -/
theorem Lists.congr (h : Lists low high root F sz fl) (hl : ∀ i, F i → low' i = low i)
    (hh : ∀ i, F i → high' i = high i) (hF : ∀ i, F' i ↔ F i) (hs : ∀ i, F i → sz' i = sz i) :
    Lists low' high' root F' sz' fl := by
  constructor
  · exact h.head
  · intro r
    apply (h.links r).congr
    · intro i hi
      rw [hl i ((h.mem r i).mp hi).1]
    · intro i hi
      rw [hh i ((h.mem r i).mp hi).1]
  · exact h.nodup
  · intro r i
    rw [h.mem r i, hF i]
    constructor
    · rintro ⟨h1, h2⟩
      exact ⟨h1, by rwa [hs i h1]⟩
    · rintro ⟨h1, h2⟩
      exact ⟨h1, by rwa [hs i h1] at h2⟩

/-- A free chunk that is on a list. -/
def Listed (C U M : Finset ℕ) (i : ℕ) : Prop := i ∈ C ∧ i ∉ U ∧ i ∉ M

structure Inv (m : Mem3Global) (C U M : Finset ℕ) (sz : ℕ → ℕ) (fl : Root → List ℕ) : Prop where
  pool : m.nPool < 268435456
  core : Core m.nPool (prevSize m) (size4x m) C U sz
  free : ∀ i ∈ M, i ∈ C ∧ i ∉ U
  lists : Lists (prevSize m) (size4x m) m.root (Listed C U M) sz fl

/-- What a call leaves alone, but for the master. -/
structure Rest (U : Finset ℕ) (sz : ℕ → ℕ) (m m' : Mem3Global) : Prop where
  nPool : m'.nPool = m.nPool
  alarmBusy : m'.alarmBusy = m.alarmBusy
  keeps : Keeps m.nPool U sz m.aPool m'.aPool

/-- The same, with the master. -/
structure Same (U : Finset ℕ) (sz : ℕ → ℕ) (m m' : Mem3Global) : Prop extends Rest U sz m m' where
  iMaster : m'.iMaster = m.iMaster
  szMaster : m'.szMaster = m.szMaster

theorem Rest.refl (U : Finset ℕ) (sz : ℕ → ℕ) (m : Mem3Global) : Rest U sz m m :=
  ⟨rfl, rfl, Keeps.refl _ _ _ _⟩

theorem Rest.trans (h : Rest U sz m m') (h' : Rest U sz m' m'') : Rest U sz m m'' := by
  refine ⟨h'.nPool.trans h.nPool, h'.alarmBusy.trans h.alarmBusy, h.keeps.trans ?_⟩
  rw [← h.nPool]
  exact h'.keeps

theorem Rest.mono {V : Finset ℕ} (h : Rest U sz m m') (hsub : V ⊆ U) (hs : ∀ i ∈ V, sz' i = sz i) :
    Rest V sz' m m' := ⟨h.nPool, h.alarmBusy, h.keeps.mono hsub hs⟩

theorem Same.trans (h : Same U sz m m') (h' : Same U sz m' m'') : Same U sz m m'' :=
  ⟨h.toRest.trans h'.toRest, h'.iMaster.trans h.iMaster, h'.szMaster.trans h.szMaster⟩

theorem Same.setPrevSize (hb : ∀ i ∈ U, ¬ (i ≤ b ∧ b < i + sz i)) (hn : b ≤ m.nPool) (v : ℕ) :
    Same U sz m (setPrevSize m b v) := ⟨⟨rfl, rfl, Keeps.setPrevSize hb hn v⟩, rfl, rfl⟩

theorem Same.setSize4x (hb : ∀ i ∈ U, ¬ (i ≤ b ∧ b + 1 < i + sz i)) (hn : b ≤ m.nPool) (v : ℕ) :
    Same U sz m (setSize4x m b v) := ⟨⟨rfl, rfl, Keeps.setSize4x hb hn v⟩, rfl, rfl⟩

theorem Inv.pos (h : Inv m C U M sz fl) (hi : i ∈ C) : i ≠ 0 := by
  have := h.core.pos hi
  omega

theorem Inv.index (h : Inv m C U M sz fl) (hi : i ∈ C) : i ≤ m.nPool ∧ i < 268435456 := by
  have := h.core.bound hi
  have := h.pool
  omega

/-- The asserts before a chunk is linked or unlinked. -/
theorem Inv.linkable (h : Inv m C U M sz fl) (hi : i ∈ C) (hu : i ∉ U) :
    Linkable m i ∧ size4x m (i - 1) / 4 = sz i := by
  have hsize := h.core.size i hi
  have htail := h.core.tail i hi hu
  refine ⟨⟨h.core.pos hi, ?_, ?_, ?_⟩, hsize⟩
  · rw [and_one_eq_zero]
    exact fun hc => hu ((h.core.used i hi).mp hc)
  · rw [hsize, htail]
  · rw [hsize]
    exact (h.core.bound hi).2

end Sqlite.Mem3

import Sqlite.Mem5.Malloc
import Sqlite.Mem5.Init

/-! Runs of the allocator: a client calls it on live pointers and writes into its own blocks. -/
namespace Sqlite.Mem5
open Foundation

/-- The allocator's memory and, for every live pointer, the number of bytes asked for. -/
structure Client where
  mem : Mem5Global
  live : ℕ → Option ℕ

inductive Op
  | malloc (nBytes : ℤ)
  | free (p : ℕ)
  | realloc (p nBytes : ℕ)
  | store (a : ℕ) (v : UInt8)

namespace Client

/-- Pointers handed back are live, and stores go into live blocks. -/
def Admits (s : Client) : Op → Prop
  | .malloc _ => True
  | .free p => s.live p ≠ none
  | .realloc p _ => s.live p ≠ none
  | .store a _ => ∃ p, s.live p ≠ none ∧ p ≤ a ∧ a < p + memsys5Size s.mem p

def step (s : Client) : Op → Option Client
  | .malloc nBytes => do
    let (m, r) ← memsys5Malloc s.mem nBytes
    match r with
    | none => some { s with mem := m }
    | some p => some ⟨m, Function.update s.live p (some nBytes.toNat)⟩
  | .free p => do
    let m ← memsys5Free s.mem p
    some ⟨m, Function.update s.live p none⟩
  | .realloc p nBytes => do
    let (m, r) ← memsys5Realloc s.mem p nBytes
    match r with
    | none => some { s with mem := m }
    | some q => some ⟨m, Function.update (Function.update s.live p none) q (some nBytes)⟩
  | .store a v => some { s with mem := { s.mem with zPool := Function.update s.mem.zPool a v } }

/-- The states a client can reach from the memory `m` that the initialisation left. -/
inductive Reachable (m : Mem5Global) : Client → Prop
  | init : Reachable m ⟨m, fun _ => none⟩
  | step {s s' : Client} {op : Op} : Reachable m s → s.Admits op → s.step op = some s' →
      Reachable m s'

/-- The blocks of the live pointers, in atoms. -/
def liveBlocks (s : Client) : Set (ℕ × ℕ) :=
  {b | s.live (b.1 * s.mem.szAtom) ≠ none ∧
    memsys5Size s.mem (b.1 * s.mem.szAtom) = s.mem.szAtom * 2 ^ b.2}

/-- Free and live blocks tile the pool, the free ones on linked lists by size and without a pair
of buddies, the live ones as large as was asked for. -/
structure Sound (s : Client) (L : ℕ → List ℕ) : Prop where
  lists : ∀ k ≤ LOGMAX, FreelistIs s.mem k (L k)
  fits : ∀ p n, s.live p = some n →
    ∃ b ∈ s.liveBlocks, p = b.1 * s.mem.szAtom ∧ n ≤ s.mem.szAtom * 2 ^ b.2
  disjoint : ∀ b ∈ s.liveBlocks, b ∉ FreeSet L
  tiling : Tiling s.mem.nBlock (FreeSet L ∪ s.liveBlocks)
  coalesced : ∀ k ≤ LOGMAX, ∀ i ∈ L k, buddy i k ∉ L k

end Client

/-- The block at `q` has kept its size and its contents. -/
def Same (m m' : Mem5Global) (q : ℕ) : Prop :=
  memsys5Size m' q = memsys5Size m q ∧ ∀ o < memsys5Size m q, m'.zPool (q + o) = m.zPool (q + o)

/-- What a call does to the client's pointers and bytes. -/
def Client.Keeps (s s' : Client) : Op → Prop
  | .malloc nBytes => (∀ q, s.live q ≠ none → Same s.mem s'.mem q) ∧
      (s'.live = s.live ∨
        ∃ p, s.live p = none ∧ s'.live = Function.update s.live p (some nBytes.toNat))
  | .free p => (∀ q ≠ p, s.live q ≠ none → Same s.mem s'.mem q) ∧
      s'.live = Function.update s.live p none
  | .realloc p nBytes => (∀ q ≠ p, s.live q ≠ none → Same s.mem s'.mem q) ∧
      ((s'.live = s.live ∧ Same s.mem s'.mem p) ∨
        ∃ q, (q = p ∨ s.live q = none) ∧
          s'.live = Function.update (Function.update s.live p none) q (some nBytes) ∧
          ∀ o < memsys5Size s.mem p, s'.mem.zPool (q + o) = s.mem.zPool (p + o))
  | .store a _ => s'.live = s.live ∧ ∀ x ≠ a, s'.mem.zPool x = s.mem.zPool x

/-- The invariant of a run started in `m₀`: `V` is the set of live blocks. -/
structure Inv (m₀ : Mem5Global) (s : Client) (L : ℕ → List ℕ) (V : Set (ℕ × ℕ)) : Prop where
  core : Core s.mem L V ∅
  szAtom : s.mem.szAtom = m₀.szAtom
  nBlock : s.mem.nBlock = m₀.nBlock
  block : ∀ p n, s.live p = some n →
    ∃ b ∈ V, p = b.1 * s.mem.szAtom ∧ n ≤ s.mem.szAtom * 2 ^ b.2
  owner : ∀ b ∈ V, s.live (b.1 * s.mem.szAtom) ≠ none

section Blocks
variable {m m' : Mem5Global} {L : ℕ → List ℕ} {V W H : Set (ℕ × ℕ)} {b : ℕ × ℕ}

theorem Core.size (h : Core m L V H) (hb : b ∈ V) :
    memsys5Size m (b.1 * m.szAtom) = m.szAtom * 2 ^ b.2 := by
  have hk := h.log_lt (Or.inl (Or.inr hb))
  have hz := h.atom
  unfold memsys5Size
  rw [Nat.mul_div_cancel _ (by omega), (h.live_ctrl b hb).2, logsize_ofNat _ (by omega)]

theorem mem_span_of_lt {z a : ℕ} (hz : 8 ≤ z) (h1 : b.1 * z ≤ a) (h2 : a < b.1 * z + z * 2 ^ b.2) :
    a / z ∈ span b := by
  rw [mem_span, Nat.div_lt_iff_lt_mul (by omega), Nat.le_div_iff_mul_le (by omega), Nat.add_mul,
    Nat.mul_comm (2 ^ b.2)]
  exact ⟨h1, h2⟩

/-- A block that is live before and after, and was not touched, is the same. -/
theorem Core.same (h : Core m L V H) {L' : ℕ → List ℕ} {V' H' : Set (ℕ × ℕ)}
    (h' : Core m' L' V' H') (ht : Touches (outside W) m m') (hb : b ∈ V) (hb' : b ∈ V')
    (hw : b ∈ W) : Same m m' (b.1 * m.szAtom) := by
  have hsz := h'.size hb'
  rw [ht.szAtom] at hsz
  refine ⟨hsz.trans (h.size hb).symm, fun o ho => ht.pool _ (fun hout => hout b hw ?_)⟩
  rw [h.size hb] at ho
  exact mem_span_of_lt h.atom (by omega) (by omega)

/-- Bytes of live blocks are the client's. -/
theorem Core.with_pool (h : Core m L V H) {z : ℕ → UInt8}
    (hz : ∀ a, z a ≠ m.zPool a → ∃ b ∈ V, a / m.szAtom ∈ span b) :
    Core { m with zPool := z } L V H := by
  have hpos := h.atom
  have hlink : ∀ k ≤ LOGMAX, ∀ i ∈ L k, ∀ a, i * m.szAtom ≤ a → a < i * m.szAtom + 8 →
      z a = m.zPool a := by
    intro k hk i hi a h1 h2
    by_contra hne
    obtain ⟨b, hb, hx⟩ := hz a hne
    have hd : a / m.szAtom = i := Nat.div_eq_of_lt_le h1 (by rw [Nat.succ_mul]; omega)
    exact h.free_outside (b := (i, k)) ⟨hk, hi⟩ b hb (hd ▸ hx)
  refine ⟨h.atom, h.small, fun k hk => ?_, h.free_ctrl, h.live_ctrl, h.apart, h.tiling, h.coalesced⟩
  have hl := h.lists k hk
  refine ⟨hl.isInt, hl.head, hl.links.congr (fun i hi => ?_) (fun i hi => ?_), hl.nodup⟩
  · refine congrArg toLink (getInt_congr (fun a h1 h2 => hlink k hk i hi a h1 ?_))
    dsimp only at h2
    omega
  · refine congrArg toLink (getInt_congr (fun a h1 h2 => hlink k hk i hi a ?_ ?_))
    · dsimp only at h1
      omega
    · dsimp only at h2
      omega

end Blocks

namespace Inv
variable {m₀ : Mem5Global} {s : Client} {L : ℕ → List ℕ} {V : Set (ℕ × ℕ)} {p : ℕ}

theorem block_of_live (h : Inv m₀ s L V) (hp : s.live p ≠ none) :
    ∃ b ∈ V, p = b.1 * s.mem.szAtom := by
  obtain ⟨n, hn⟩ := Option.ne_none_iff_exists'.mp hp
  obtain ⟨b, hb, he, -⟩ := h.block p n hn
  exact ⟨b, hb, he⟩

theorem liveBlocks_eq (h : Inv m₀ s L V) : s.liveBlocks = V := by
  have hz := h.core.atom
  ext ⟨i, k⟩
  constructor
  · rintro ⟨hl, hs⟩
    obtain ⟨⟨j, l⟩, hb, he⟩ := h.block_of_live hl
    obtain rfl : i = j := Nat.eq_of_mul_eq_mul_right (by omega) he
    have hpow : s.mem.szAtom * 2 ^ l = s.mem.szAtom * 2 ^ k := (h.core.size hb).symm.trans hs
    have hlk : l = k := Nat.pow_right_injective le_rfl (Nat.eq_of_mul_eq_mul_left (by omega) hpow)
    exact hlk ▸ hb
  · exact fun hb => ⟨h.owner _ hb, h.core.size hb⟩

theorem sound (h : Inv m₀ s L V) : s.Sound L := by
  have he := h.liveBlocks_eq
  refine ⟨h.core.lists, fun p n hp => ?_, fun b hb => ?_, ?_, h.core.coalesced⟩
  · rw [he]
    exact h.block p n hp
  · exact h.core.live_not_free (he ▸ hb)
  · rw [he]
    simpa using h.core.tiling

/-- Distinct live blocks have distinct pointers. -/
theorem start_ne (h : Inv m₀ s L V) {b c : ℕ × ℕ} (hb : b ∈ V) (hc : c ∈ V) (hne : b ≠ c) :
    b.1 * s.mem.szAtom ≠ c.1 * s.mem.szAtom := by
  have hz := h.core.atom
  intro he
  have h1 : b.1 = c.1 := Nat.eq_of_mul_eq_mul_right (by omega) he
  exact hne (h.core.tiling.unique b (Or.inl (Or.inr hb)) c (Or.inl (Or.inr hc)) b.1
    (Tiling.start_mem_span b) (h1 ▸ Tiling.start_mem_span c))

theorem malloc (h : Inv m₀ s L V) (n : ℕ) :
    ∃ m' r, memsys5MallocUnsafe s.mem n = some (m', r) ∧
      (∀ q, s.live q ≠ none → Same s.mem m' q) ∧
      ((r = none ∧ ∃ L', Inv m₀ ⟨m', s.live⟩ L' V) ∨
        ∃ p L' V', r = some p ∧ s.live p = none ∧ n ≤ memsys5Size m' p ∧
          Inv m₀ ⟨m', Function.update s.live p (some n)⟩ L' V') := by
  obtain ⟨m', r, hr, ht, ⟨rfl, L', hc⟩ | ⟨i, k, L', rfl, hn, hnew, hc⟩⟩ :=
    memsys5MallocUnsafe_spec h.core n
  · refine ⟨m', none, hr, fun q hq => ?_, Or.inl ⟨rfl, L', hc, ht.szAtom.trans h.szAtom,
      ht.nBlock.trans h.nBlock, ?_, ?_⟩⟩
    · obtain ⟨b, hb, rfl⟩ := h.block_of_live hq
      exact h.core.same hc ht hb hb hb
    · rw [ht.szAtom]
      exact h.block
    · rw [ht.szAtom]
      exact h.owner
  · have hz := h.core.atom
    have hfresh : s.live (i * s.mem.szAtom) = none := by
      by_contra hl
      obtain ⟨b, hb, he⟩ := h.block_of_live hl
      have hi : i = b.1 := Nat.eq_of_mul_eq_mul_right (by omega) he
      have heq := hc.tiling.unique (i, k) (Or.inl (Or.inr (Or.inl rfl))) b
        (Or.inl (Or.inr (Or.inr hb))) i (Tiling.start_mem_span (i, k))
        (hi ▸ Tiling.start_mem_span b)
      exact hnew (heq ▸ hb)
    have hsize := hc.size (b := (i, k)) (Or.inl rfl)
    rw [ht.szAtom] at hsize
    refine ⟨m', _, hr, fun q hq => ?_, Or.inr ⟨_, L', _, rfl, hfresh, hsize ▸ hn, hc,
      ht.szAtom.trans h.szAtom, ht.nBlock.trans h.nBlock, fun p n' hp => ?_, fun b hb => ?_⟩⟩
    · obtain ⟨b, hb, rfl⟩ := h.block_of_live hq
      exact h.core.same hc ht hb (Or.inr hb) hb
    · rw [ht.szAtom]
      dsimp only at hp
      by_cases hpi : p = i * s.mem.szAtom
      · rw [hpi, Function.update_self] at hp
        exact ⟨(i, k), Or.inl rfl, hpi, Option.some.inj hp ▸ hn⟩
      · rw [Function.update_of_ne hpi] at hp
        obtain ⟨b, hb, hb'⟩ := h.block p n' hp
        exact ⟨b, Or.inr hb, hb'⟩
    · rw [ht.szAtom]
      rcases hb with rfl | hb
      · dsimp only
        rw [Function.update_self]
        simp
      · have hne : b.1 * s.mem.szAtom ≠ i * s.mem.szAtom := fun e => h.owner b hb (e ▸ hfresh)
        dsimp only
        rw [Function.update_of_ne hne]
        exact h.owner b hb

theorem free (h : Inv m₀ s L V) (hp : s.live p ≠ none) :
    ∃ m', memsys5FreeUnsafe s.mem p = some m' ∧
      (∀ q ≠ p, s.live q ≠ none → Same s.mem m' q) ∧
      ∃ L' V', Inv m₀ ⟨m', Function.update s.live p none⟩ L' V' := by
  obtain ⟨⟨i, k⟩, hb, rfl⟩ := h.block_of_live hp
  obtain ⟨m', L', hr, ht, hc⟩ := memsys5FreeUnsafe_spec h.core hb
  refine ⟨m', hr, fun q hq hl => ?_, L', _, hc, ht.szAtom.trans h.szAtom, ht.nBlock.trans h.nBlock,
    fun q n hq => ?_, fun c hc' => ?_⟩
  · obtain ⟨c, hc', rfl⟩ := h.block_of_live hl
    have hmem : c ∈ V \ {(i, k)} := ⟨hc', fun e => hq (by rw [show c = (i, k) from e])⟩
    exact h.core.same hc ht hc' hmem hmem
  · rw [ht.szAtom]
    dsimp only at hq
    by_cases hqp : q = i * s.mem.szAtom
    · rw [hqp, Function.update_self] at hq
      cases hq
    · rw [Function.update_of_ne hqp] at hq
      obtain ⟨c, hc', he, hn⟩ := h.block q n hq
      exact ⟨c, ⟨hc', fun e => hqp (by rw [he, show c = (i, k) from e])⟩, he, hn⟩
  · rw [ht.szAtom]
    dsimp only
    rw [Function.update_of_ne (h.start_ne hc'.1 hb hc'.2)]
    exact h.owner c hc'.1

/-- Stores into live blocks. -/
theorem poke (h : Inv m₀ s L V) {z : ℕ → UInt8}
    (hz : ∀ a, z a ≠ s.mem.zPool a →
      ∃ p, s.live p ≠ none ∧ p ≤ a ∧ a < p + memsys5Size s.mem p) :
    Inv m₀ { s with mem := { s.mem with zPool := z } } L V := by
  refine ⟨h.core.with_pool (fun a ha => ?_), h.szAtom, h.nBlock, h.block, h.owner⟩
  obtain ⟨p, hp, h1, h2⟩ := hz a ha
  obtain ⟨b, hb, rfl⟩ := h.block_of_live hp
  rw [h.core.size hb] at h2
  exact ⟨b, hb, mem_span_of_lt h.core.atom h1 h2⟩

/-- A request can be lowered in place. -/
theorem shrink (h : Inv m₀ s L V) (hp : s.live p ≠ none) {n : ℕ} (hn : n ≤ memsys5Size s.mem p) :
    Inv m₀ { s with live := Function.update s.live p (some n) } L V := by
  obtain ⟨b, hb, rfl⟩ := h.block_of_live hp
  refine ⟨h.core, h.szAtom, h.nBlock, fun q n' hq => ?_, fun c hc => ?_⟩
  · dsimp only at hq
    by_cases hqp : q = b.1 * s.mem.szAtom
    · rw [hqp, Function.update_self] at hq
      exact ⟨b, hb, hqp, Option.some.inj hq ▸ h.core.size hb ▸ hn⟩
    · rw [Function.update_of_ne hqp] at hq
      exact h.block q n' hq
  · dsimp only
    by_cases hcp : c.1 * s.mem.szAtom = b.1 * s.mem.szAtom
    · rw [hcp, Function.update_self]
      simp
    · rw [Function.update_of_ne hcp]
      exact h.owner c hc

end Inv
end Sqlite.Mem5

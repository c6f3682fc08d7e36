import Sqlite.Mem5.Run

/-! Soundness of the allocator over whole runs. -/
namespace Sqlite.Mem5
open Foundation

section

theorem Same.trans {m m' m'' : Mem5Global} {q : ℕ} (h : Same m m' q) (h' : Same m' m'' q) :
    Same m m'' q :=
  ⟨h'.1.trans h.1, fun o ho => (h'.2 o (h.1.symm ▸ ho)).trans (h.2 o ho)⟩

namespace Inv
variable {m₀ : Mem5Global} {s : Client} {L : ℕ → List ℕ} {V : Set (ℕ × ℕ)} {p : ℕ}

/-- A byte belongs to one live block only. -/
theorem apart (h : Inv m₀ s L V) {p q a : ℕ} (hp : s.live p ≠ none) (hq : s.live q ≠ none)
    (hne : q ≠ p) (h1 : p ≤ a) (h2 : a < p + memsys5Size s.mem p) :
    ¬ (q ≤ a ∧ a < q + memsys5Size s.mem q) := by
  rintro ⟨h3, h4⟩
  obtain ⟨b, hb, rfl⟩ := h.block_of_live hp
  obtain ⟨c, hc, rfl⟩ := h.block_of_live hq
  rw [h.core.size hb] at h2
  rw [h.core.size hc] at h4
  have hx := mem_span_of_lt h.core.atom h1 h2
  have hx' := mem_span_of_lt h.core.atom h3 h4
  exact hne (by rw [h.core.tiling.unique c (Or.inl (Or.inr hc)) b (Or.inl (Or.inr hb)) _ hx' hx])

theorem realloc (h : Inv m₀ s L V) (hp : s.live p ≠ none) (n : ℕ) :
    ∃ m' r, memsys5Realloc s.mem p n = some (m', r) ∧
      (∀ q ≠ p, s.live q ≠ none → Same s.mem m' q) ∧
      ((r = none ∧ Same s.mem m' p ∧ ∃ L' V', Inv m₀ ⟨m', s.live⟩ L' V') ∨
        ∃ q L' V', r = some q ∧ (q = p ∨ s.live q = none) ∧
          (∀ o < memsys5Size s.mem p, m'.zPool (q + o) = s.mem.zPool (p + o)) ∧
          Inv m₀ ⟨m', Function.update (Function.update s.live p none) q (some n)⟩ L' V') := by
  have hsame : ∀ q, Same s.mem s.mem q := fun q => ⟨rfl, fun _ _ => rfl⟩
  unfold memsys5Realloc
  by_cases h0 : n = 0
  · rw [if_pos h0]
    exact ⟨_, none, rfl, fun q _ _ => hsame q, Or.inl ⟨rfl, hsame p, L, V, h⟩⟩
  rw [if_neg h0]
  dsimp only
  by_cases hfit : n ≤ memsys5Size s.mem p
  · rw [if_pos hfit]
    refine ⟨_, some p, rfl, fun q _ _ => hsame q, Or.inr ⟨p, L, V, rfl, Or.inl rfl, fun _ _ => rfl, ?_⟩⟩
    rw [Function.update_idem]
    exact h.shrink hp hfit
  rw [if_neg hfit]
  obtain ⟨m₁, r, hm, hk, ⟨rfl, L₁, h₁⟩ | ⟨q, L₁, V₁, rfl, hq, hsz, h₁⟩⟩ := h.malloc n
  · refine ⟨m₁, none, by rw [hm]; rfl, fun q _ hl => hk q hl, Or.inl ⟨rfl, hk p hp, L₁, V, h₁⟩⟩
  have hpq : p ≠ q := fun e => hp (e ▸ hq)
  have hlive : ∀ x, s.live x ≠ none → Function.update s.live q (some n) x ≠ none := by
    intro x hx
    have hxq : x ≠ q := fun e => hx (e.symm ▸ hq)
    rwa [Function.update_of_ne hxq]
  have hqlive : Function.update s.live q (some n) q ≠ none := by simp
  -- the copy writes into the new block only
  have h₂ := h₁.poke (z := (memcpy m₁ q p (memsys5Size s.mem p)).zPool) (fun a ha => by
    refine ⟨q, hqlive, ?_⟩
    by_contra hout
    exact ha (if_neg (fun e => hout ⟨e.1, by dsimp only; omega⟩)))
  obtain ⟨m₃, hf, hk₃, L₃, V₃, h₃⟩ := h₂.free (p := p) (hlive p hp)
  have hcopy : ∀ o < memsys5Size s.mem p, m₃.zPool (q + o) = s.mem.zPool (p + o) := by
    intro o ho
    have e1 : m₃.zPool (q + o) = (memcpy m₁ q p (memsys5Size s.mem p)).zPool (q + o) :=
      (hk₃ q hpq.symm hqlive).2 o (by change o < memsys5Size m₁ q; omega)
    have e2 : (memcpy m₁ q p (memsys5Size s.mem p)).zPool (q + o) = m₁.zPool (p + o) := by
      unfold memcpy
      dsimp only
      rw [if_pos ⟨by omega, by omega⟩, Nat.add_sub_cancel_left]
    exact (e1.trans e2).trans ((hk p hp).2 o ho)
  refine ⟨m₃, some q, ?_, fun x hx hl => ?_, Or.inr ⟨q, L₃, V₃, rfl, Or.inr hq, hcopy, ?_⟩⟩
  · have hf' : memsys5FreeUnsafe (memcpy m₁ q p (memsys5Size s.mem p)) p = some m₃ := hf
    simp only [hm, hf', Option.bind_eq_bind, Option.bind_some]
  · have hxq : x ≠ q := fun e => hl (e.symm ▸ hq)
    have hcp : Same m₁ (memcpy m₁ q p (memsys5Size s.mem p)) x := by
      refine ⟨rfl, fun o ho => ?_⟩
      have hout := h₁.apart (a := x + o) (hlive x hl) hqlive hxq.symm (Nat.le_add_right x o)
        (by dsimp only; omega)
      exact if_neg (fun e => hout ⟨e.1, by dsimp only; omega⟩)
    exact ((hk x hl).trans hcp).trans (hk₃ x hx (hlive x hl))
  · rw [Function.update_comm hpq]
    exact h₃

/-- Every call that a client may make returns and keeps the invariant. -/
theorem step (h : Inv m₀ s L V) {op : Op} (ha : s.Admits op) :
    ∃ s' L' V', s.step op = some s' ∧ s.Keeps s' op ∧ Inv m₀ s' L' V' := by
  cases op with
  | malloc nBytes =>
    by_cases hpos : 0 < nBytes
    · have he : memsys5Malloc s.mem nBytes = memsys5MallocUnsafe s.mem nBytes.toNat := if_pos hpos
      obtain ⟨m', r, hm, hk, ⟨rfl, L', h'⟩ | ⟨p, L', V', rfl, hp, -, h'⟩⟩ := h.malloc nBytes.toNat
      · exact ⟨⟨m', s.live⟩, L', V, by simp [Client.step, he, hm], ⟨hk, Or.inl rfl⟩, h'⟩
      · exact ⟨⟨m', Function.update s.live p (some nBytes.toNat)⟩, L', V',
          by simp [Client.step, he, hm], ⟨hk, Or.inr ⟨p, hp, rfl⟩⟩, h'⟩
    · have he : memsys5Malloc s.mem nBytes = some (s.mem, none) := if_neg hpos
      exact ⟨s, L, V, by simp [Client.step, he], ⟨fun q _ => ⟨rfl, fun _ _ => rfl⟩, Or.inl rfl⟩, h⟩
  | free p =>
    obtain ⟨m', hm, hk, L', V', h'⟩ := h.free (p := p) ha
    exact ⟨⟨m', Function.update s.live p none⟩, L', V', congrArg (Option.bind · _) hm, ⟨hk, rfl⟩, h'⟩
  | realloc p n =>
    obtain ⟨m', r, hm, hk, ⟨rfl, hp, L', V', h'⟩ | ⟨q, L', V', rfl, hq, hc, h'⟩⟩ :=
      h.realloc (p := p) ha n
    · exact ⟨⟨m', s.live⟩, L', V', by simp [Client.step, hm], ⟨hk, Or.inl ⟨rfl, hp⟩⟩, h'⟩
    · exact ⟨⟨m', Function.update (Function.update s.live p none) q (some n)⟩, L', V',
        by simp [Client.step, hm], ⟨hk, Or.inr ⟨q, hq, rfl, hc⟩⟩, h'⟩
  | store a v =>
    refine ⟨_, L, V, rfl, ⟨rfl, fun x hx => Function.update_of_ne hx _ _⟩, h.poke (fun x hx => ?_)⟩
    by_cases he : x = a
    · exact he ▸ ha
    · exact absurd (Function.update_of_ne he _ _) hx

/-- Before the first call nothing is live. -/
theorem init {m : Mem5Global} (h : Core m L ∅ ∅) : Inv m ⟨m, fun _ => none⟩ L ∅ := by
  refine ⟨h, rfl, rfl, fun p n hp => ?_, fun b hb => absurd hb (Set.notMem_empty b)⟩
  cases hp

theorem of_reachable {m : Mem5Global} {L : ℕ → List ℕ} (h : Core m L ∅ ∅)
    (hr : Client.Reachable m s) : ∃ L' V', Inv m s L' V' := by
  induction hr with
  | init => exact ⟨L, ∅, init h⟩
  | step _ ha hs ih =>
    obtain ⟨L', V', hi⟩ := ih
    obtain ⟨s', L'', V'', hs', -, hi'⟩ := hi.step ha
    exact ⟨L'', V'', Option.some.inj (hs'.symm.trans hs) ▸ hi'⟩

end Inv

/-- When nothing is live any more, the free blocks are those of the start. -/
theorem freeSet_eq {m m' : Mem5Global} {L L' : ℕ → List ℕ} (h : Core m L ∅ ∅) (h' : Core m' L' ∅ ∅)
    (hn : m'.nBlock = m.nBlock) : FreeSet L' = FreeSet L := by
  have hT := h.tiling
  have hT' := h'.tiling
  rw [Set.union_empty, Set.union_empty] at hT hT'
  exact Tiling.eq_of_no_buddies (hn ▸ hT') hT
    (fun i k hb hb' => h'.coalesced k hb.1 i hb.2 hb'.2)
    (fun i k hb hb' => h.coalesced k hb.1 i hb.2 hb'.2)

/-- For every heap below 2 GiB and every minimum request up to 1 GiB: the state after any run of
calls is sound, every further call returns and leaves the other live blocks alone, and once all
blocks are freed the freelists hold the initial blocks. -/
theorem memsys5_sound (m₀ : Mem5Global) (nHeap : ℕ) (mnReq : ℤ) (hHeap : nHeap < 2147483648)
    (hReq : mnReq ≤ 1073741824) :
    ∃ m L₀, memsys5Init m₀ nHeap mnReq = some m ∧ (∃ b, m.szAtom = 2 ^ b) ∧
      m.nBlock = nHeap / (m.szAtom + 1) ∧ Client.Sound ⟨m, fun _ => none⟩ L₀ ∧
      ∀ s, Client.Reachable m s →
        (∃ L, s.Sound L ∧ s.mem.szAtom = m.szAtom ∧ s.mem.nBlock = m.nBlock ∧
          ((∀ p, s.live p = none) → FreeSet L = FreeSet L₀)) ∧
        ∀ op, s.Admits op → ∃ s', s.step op = some s' ∧ s.Keeps s' op := by
  obtain ⟨m, L₀, hm, hc, hb, hn⟩ := memsys5Init_spec m₀ hHeap hReq
  refine ⟨m, L₀, hm, hb, hn, (Inv.init hc).sound, fun s hs => ?_⟩
  obtain ⟨L, V, hi⟩ := Inv.of_reachable hc hs
  refine ⟨⟨L, hi.sound, hi.szAtom, hi.nBlock, fun hnone => ?_⟩, fun op ha => ?_⟩
  · have hV : V = ∅ := Set.eq_empty_of_forall_notMem (fun b hb => hi.owner b hb (hnone _))
    exact freeSet_eq hc (hV ▸ hi.core) hi.nBlock
  · obtain ⟨s', -, -, hs', hk, -⟩ := hi.step ha
    exact ⟨s', hs', hk⟩

/-- Memory before the first initialisation. -/
def zeroed : Mem5Global where
  szAtom := 0
  nBlock := 0
  zPool := fun _ => 0
  aiFreelist := fun _ => 0
  aCtrl := fun _ => 0
  stats := ⟨0, 0, 0, 0, 0, 0, 0, 0⟩

theorem memsys5_sound_kilobyte :
    ∃ m L₀, memsys5Init zeroed 1000 8 = some m ∧ Client.Sound ⟨m, fun _ => none⟩ L₀ ∧
      ∃ s, Client.step ⟨m, fun _ => none⟩ (.malloc 100) = some s := by
  obtain ⟨m, L₀, hm, -, -, hs, h⟩ := memsys5_sound zeroed 1000 8 (by decide) (by decide)
  obtain ⟨s, h', -⟩ := (h _ .init).2 (.malloc 100) trivial
  exact ⟨m, L₀, hm, hs, s, h'⟩

end

/-! Which of the free blocks of a class an allocation takes. -/

/-- Block 0 is not on the list, or stands first. -/
def ZeroFirst (l : List ℕ) : Prop := 0 ∈ l → l.head? = some 0

theorem scan_pos {l : List ℕ} {iFirst : ℕ} (hpos : 0 < iFirst) : 0 < scan iFirst l := by
  induction l generalizing iFirst with
  | nil => exact hpos
  | cons i l ih =>
    rw [scan]
    split_ifs with hi hlt
    · exact ih hi
    · exact ih hpos
    · exact hpos

theorem scan_le {l : List ℕ} (iFirst : ℕ) (h0 : 0 ∉ l) :
    scan iFirst l ≤ iFirst ∧ ∀ x ∈ l, scan iFirst l ≤ x := by
  induction l generalizing iFirst with
  | nil => exact ⟨le_refl _, by simp⟩
  | cons i l ih =>
    rw [List.mem_cons, not_or] at h0
    have hpos : 0 < i := Nat.pos_of_ne_zero fun h => h0.1 h.symm
    obtain ⟨hle, hall⟩ := ih (if i < iFirst then i else iFirst) h0.2
    have hboth : scan (if i < iFirst then i else iFirst) l ≤ i ∧
        scan (if i < iFirst then i else iFirst) l ≤ iFirst := by
      split_ifs at hle ⊢ <;> omega
    rw [scan, if_pos hpos]
    refine ⟨hboth.2, fun x hx => ?_⟩
    rcases List.mem_cons.mp hx with rfl | hx
    · exact hboth.1
    · exact hall x hx

/-- The walk stops at block 0 without looking at it. -/
theorem isLeast_pick_iff {l : List ℕ} (hne : l ≠ []) :
    IsLeast {x | x ∈ l} (pick l) ↔ ZeroFirst l := by
  cases l with
  | nil => exact absurd rfl hne
  | cons i l =>
    have hmem := pick_mem hne
    by_cases hi : i = 0
    · subst hi
      have hpick : pick (0 :: l) = 0 := rfl
      rw [hpick]
      exact ⟨fun _ _ => rfl, fun _ => ⟨by simp, fun x _ => Nat.zero_le x⟩⟩
    have hpos : 0 < pick (i :: l) := scan_pos (Nat.pos_of_ne_zero hi)
    constructor
    · intro hleast h0
      have := hleast.2 h0
      omega
    · intro hzero
      have h0 : 0 ∉ i :: l := fun h0 => hi (by simpa using hzero h0)
      exact ⟨hmem, (scan_le i h0).2⟩

/-- A request that a free block meets is not above the limit. -/
theorem Serves.le {m : Mem5Global} {L : ℕ → List ℕ} {V : Set (ℕ × ℕ)} {nByte b a : ℕ}
    (hs : Serves m L nByte b) (h : Core m L V ∅) (hz : m.szAtom = 2 ^ a)
    (hpool : m.nBlock * m.szAtom < 2147483648) : nByte ≤ 0x40000000 := by
  obtain ⟨⟨hb, hne, hle⟩, -⟩ := hs
  have hin := h.tiling.inside _ (Core.free_mem (V := V) (H := ∅) hb (pick_mem hne))
  have hmul : m.szAtom * 2 ^ b ≤ m.nBlock * m.szAtom := by
    rw [Nat.mul_comm]
    refine Nat.mul_le_mul_right _ ?_
    dsimp only at hin
    omega
  have hlt := lt_of_le_of_lt hmul hpool
  rw [hz, ← pow_add] at hle hlt
  have hexp : a + b < 31 := by
    by_contra hge
    have : 2 ^ 31 ≤ 2 ^ (a + b) := Nat.pow_le_pow_right (by omega) (by omega)
    omega
  have : 2 ^ (a + b) ≤ 2 ^ 30 := Nat.pow_le_pow_right (by omega) (by omega)
  omega

/-- In every reachable state an allocation that can be served takes a block of the first class that
serves it. It is the lowest one of the class, as it is whenever a block is taken off a list, if and
only if block 0 does not stand on the list behind others. -/
theorem memsys5_first_fit (m₀ : Mem5Global) (nHeap : ℕ) (mnReq : ℤ) (hHeap : nHeap < 2147483648)
    (hReq : mnReq ≤ 1073741824) :
    ∃ m, memsys5Init m₀ nHeap mnReq = some m ∧ ∀ s, Client.Reachable m s → ∃ L, s.Sound L ∧
      (∀ k ≤ LOGMAX, L k ≠ [] → ∃ i,
        memsys5UnlinkFirst s.mem k = some (memsys5Unlink s.mem i k, i) ∧
          (IsLeast {x | x ∈ L k} i ↔ ZeroFirst (L k))) ∧
      ∀ nByte b, Serves s.mem L nByte b → ∃ m' i,
        memsys5MallocUnsafe s.mem nByte = some (m', some (i * s.mem.szAtom)) ∧ i ∈ L b ∧
          (IsLeast {x | x ∈ L b} i ↔ ZeroFirst (L b)) := by
  obtain ⟨m, L₀, hm, hc, ⟨a, ha⟩, hn⟩ := memsys5Init_spec m₀ hHeap hReq
  refine ⟨m, hm, fun s hs => ?_⟩
  obtain ⟨L, V, hi⟩ := Inv.of_reachable hc hs
  refine ⟨L, hi.sound, fun k hk hne => ⟨pick (L k), ?_, isLeast_pick_iff hne⟩,
    fun nByte b hserves => ?_⟩
  · refine memsys5UnlinkFirst_eq (hi.core.lists k hk) hne fun x hx => ?_
    have hin := hi.core.tiling.inside _ (Core.free_mem (V := V) (H := ∅) hk hx)
    have := Nat.two_pow_pos k
    dsimp only at hin
    omega
  · have hpool : s.mem.nBlock * s.mem.szAtom < 2147483648 := by
      rw [hi.nBlock, hi.szAtom, hn]
      have h1 : nHeap / (m.szAtom + 1) * (m.szAtom + 1) ≤ nHeap := Nat.div_mul_le_self _ _
      have h2 : nHeap / (m.szAtom + 1) * m.szAtom ≤ nHeap / (m.szAtom + 1) * (m.szAtom + 1) :=
        Nat.mul_le_mul_left _ (Nat.le_succ _)
      omega
    have hle := hserves.le hi.core (hi.szAtom.trans ha) hpool
    obtain ⟨m', -, -, hr, -⟩ := memsys5MallocUnsafe_served hi.core hle hserves
    have hne := hserves.1.2.1
    exact ⟨m', _, hr, pick_mem hne, isLeast_pick_iff hne⟩

theorem memsys5_first_fit_kilobyte : ∃ m, memsys5Init zeroed 1000 8 = some m ∧
    ∃ L, Client.Sound ⟨m, fun _ => none⟩ L := by
  obtain ⟨m, hm, h⟩ := memsys5_first_fit zeroed 1000 8 (by decide) (by decide)
  obtain ⟨L, hL, -⟩ := h _ .init
  exact ⟨m, hm, L, hL⟩

/-- The three blocks of a pool are handed out, and the last and then the first are taken back. The
list is `[2, 0]`, and a request takes block 2. -/
theorem memsys5_takes_later : ∃ m s, memsys5Init zeroed 27 8 = some m ∧ Client.Reachable m s ∧
    FreelistIs s.mem 0 [2, 0] ∧
    (memsys5MallocUnsafe s.mem 8).map Prod.snd = some (some (2 * s.mem.szAtom)) := by
  let m := (memsys5Init zeroed 27 8).get (by decide +kernel)
  let s₁ := (Client.step ⟨m, fun _ => none⟩ (.malloc 8)).get (by decide +kernel)
  let s₂ := (s₁.step (.malloc 8)).get (by decide +kernel)
  let s₃ := (s₂.step (.malloc 8)).get (by decide +kernel)
  let s₄ := (s₃.step (.free 0)).get (by decide +kernel)
  let s := (s₄.step (.free 16)).get (by decide +kernel)
  have hmalloc (s : Client) : s.Admits (.malloc 8) := trivial
  have h₁ : Client.Reachable m s₁ := .step .init (hmalloc _) (Option.some_get _).symm
  have h₂ : Client.Reachable m s₂ := .step h₁ (hmalloc _) (Option.some_get _).symm
  have h₃ : Client.Reachable m s₃ := .step h₂ (hmalloc _) (Option.some_get _).symm
  have hlive : s₃.Admits (.free 0) := by
    rw [Client.Admits]
    decide +kernel
  have h₄ : Client.Reachable m s₄ := .step h₃ hlive (Option.some_get _).symm
  have hlive' : s₄.Admits (.free 16) := by
    rw [Client.Admits]
    decide +kernel
  have h : Client.Reachable m s := .step h₄ hlive' (Option.some_get _).symm
  have hhead : s.mem.aiFreelist 0 = 2 := by decide +kernel
  have hlinks : (s.mem.next 2 = 0 ∧ s.mem.prev 2 = -1) ∧ s.mem.next 0 = -1 ∧ s.mem.prev 0 = 2 := by
    decide +kernel
  obtain ⟨⟨hn2, hp2⟩, hn0, hp0⟩ := hlinks
  refine ⟨m, s, (Option.some_get _).symm, h, ⟨?_, ?_, ?_, by decide⟩, by decide +kernel⟩
  · rw [hhead]
    exact ⟨by decide, by decide⟩
  · rw [hhead]
    rfl
  · simp [Links, Mem5Global.nextOf, Mem5Global.prevOf, hn2, hp2, hn0, hp0, toLink]

end Sqlite.Mem5

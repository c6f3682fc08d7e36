import Mathlib.Order.Bounds.Basic
import Sqlite.Mem5.Invariant

/-! Allocation: rounding, the search for a block, splitting. -/
namespace Sqlite.Mem5
open Foundation

/-- The atoms outside every live block. -/
def outside (V : Set (ℕ × ℕ)) : Set ℕ := {x | ∀ b ∈ V, x ∉ span b}

namespace Core
variable {m : Mem5Global} {L : ℕ → List ℕ} {V H : Set (ℕ × ℕ)} {i k : ℕ}

theorem free_outside (h : Core m L V H) {b : ℕ × ℕ} (hb : b ∈ FreeSet L) : b.1 ∈ outside V := by
  intro c hc hx
  have he := h.tiling.unique b (Or.inl (Or.inl hb)) c (Or.inl (Or.inr hc)) b.1
    (Tiling.start_mem_span b) hx
  exact h.live_not_free hc (he ▸ hb)

theorem held_outside (h : Core m L V H) {b : ℕ × ℕ} (hb : b ∈ H) {x : ℕ} (hx : x ∈ span b) :
    x ∈ outside V := by
  intro c hc hxc
  have he := h.tiling.unique b (Or.inr hb) c (Or.inl (Or.inr hc)) x hx hxc
  exact (h.apart b hb).2 (he ▸ hc)

theorem unlink_touches (h : Core m L V H) (hk : k ≤ LOGMAX) (hi : i ∈ L k) :
    Touches (outside V) m (memsys5Unlink m i k) :=
  (memsys5Unlink_touches h.atom (h.lists k hk) hi).mono
    (fun x hx => h.free_outside (b := (x, k)) ⟨hk, hx⟩)

theorem link_touches (h : Core m L V H) (hk : k ≤ LOGMAX) (hH : (i, k) ∈ H) :
    Touches (outside V) m (memsys5Link m i k) := by
  refine (memsys5Link_touches h.atom (h.lists k hk)).mono ?_
  rintro x (rfl | hx)
  · exact h.held_outside hH (Tiling.start_mem_span (x, k))
  · exact h.free_outside (b := (x, k)) ⟨hk, hx⟩

/-- The counters play no part in the invariant. -/
theorem with_stats (h : Core m L V H) (s : Stats) : Core { m with stats := s } L V H :=
  ⟨h.atom, h.small, fun k hk => ⟨(h.lists k hk).isInt, (h.lists k hk).head, (h.lists k hk).links,
    (h.lists k hk).nodup⟩, h.free_ctrl, h.live_ctrl, h.apart, h.tiling, h.coalesced⟩

end Core

theorem noteRequest_eq (m : Mem5Global) (nByte : ℕ) :
    ∃ s, noteRequest m nByte = { m with stats := s } := by
  unfold noteRequest
  split_ifs
  · exact ⟨_, rfl⟩
  · exact ⟨m.stats, rfl⟩

theorem roundRequest_spec {szAtom nByte : ℕ} (hz : 8 ≤ szAtom) (hn : nByte ≤ 0x40000000) :
    ∃ k, roundRequest szAtom nByte = some (szAtom * 2 ^ k, k) ∧ k ≤ 27 ∧
      nByte ≤ szAtom * 2 ^ k ∧ ∀ j < k, szAtom * 2 ^ j < nByte := by
  have key := loop_total (f := fun (s : ℕ × ℕ) =>
      if s.1 < nByte then Sum.inl (s.1 * 2, s.2 + 1) else Sum.inr (s.1, s.2))
    (fun n s => s.1 = szAtom * 2 ^ s.2 ∧ s.2 ≤ 27 ∧ n = 27 - s.2 ∧
      ∀ j < s.2, szAtom * 2 ^ j < nByte)
    (fun r => r.1 = szAtom * 2 ^ r.2 ∧ r.2 ≤ 27 ∧ nByte ≤ r.1 ∧ ∀ j < r.2, szAtom * 2 ^ j < nByte)
    (by
      rintro n ⟨f, l⟩ s' ⟨hf, hl, hn', hless⟩ hb
      dsimp only at hf hl hn' hless hb
      split_ifs at hb with hlt
      obtain rfl := Sum.inl.inj hb
      have hlog : l < 27 := by
        by_contra hge
        have h1 : 2 ^ 27 ≤ 2 ^ l := Nat.pow_le_pow_right (by omega) (by omega)
        have h2 : 8 * 2 ^ 27 ≤ szAtom * 2 ^ l := Nat.mul_le_mul hz h1
        omega
      refine ⟨27 - (l + 1), by omega, ?_, by dsimp only; omega, rfl, fun j hj => ?_⟩
      · rw [hf, pow_succ, Nat.mul_assoc]
      · rcases Nat.lt_succ_iff_lt_or_eq.mp hj with hj | rfl
        · exact hless j hj
        · exact hf ▸ hlt)
    (by
      rintro n ⟨f, l⟩ r ⟨hf, hl, -, hless⟩ hb
      dsimp only at hf hl hless hb
      split_ifs at hb with hlt
      obtain rfl := Sum.inr.inj hb
      exact ⟨hf, hl, by omega, hless⟩)
    (LOGMAX + 2) 27 (szAtom, 0) ⟨by simp, by simp, by simp, by simp⟩ (by unfold LOGMAX; omega)
  obtain ⟨⟨f, k⟩, hr, hf, hk, hle, hless⟩ := key
  dsimp only at hf hk hle hless
  subst hf
  exact ⟨k, hr, hk, hle, hless⟩

theorem findBin_spec (m : Mem5Global) {l : ℕ} (hl : l ≤ LOGMAX) :
    ∃ b, findBin m l = some b ∧ l ≤ b ∧ (b ≤ LOGMAX → 0 ≤ m.aiFreelist b) ∧
      ∀ c, l ≤ c → c < b → m.aiFreelist c < 0 := by
  refine loop_total
    (fun n b => l ≤ b ∧ b ≤ LOGMAX + 1 ∧ n = LOGMAX + 1 - b ∧ ∀ c, l ≤ c → c < b → m.aiFreelist c < 0)
    (fun b => l ≤ b ∧ (b ≤ LOGMAX → 0 ≤ m.aiFreelist b) ∧ ∀ c, l ≤ c → c < b → m.aiFreelist c < 0)
    ?_ ?_ (LOGMAX + 2) (LOGMAX + 1 - l) l ⟨le_rfl, by omega, rfl, fun c h1 h2 => by omega⟩ (by omega)
  · rintro n b b' ⟨h1, h2, h3, h4⟩ hb
    split_ifs at hb with hcond
    obtain rfl := Sum.inl.inj hb
    refine ⟨LOGMAX + 1 - (b + 1), by omega, by omega, by omega, rfl, fun c hc1 hc2 => ?_⟩
    by_cases hcb : c = b
    · exact hcb ▸ hcond.1
    · exact h4 c hc1 (by omega)
  · rintro n b r ⟨h1, -, -, h4⟩ hb
    split_ifs at hb with hcond
    obtain rfl := Sum.inr.inj hb
    exact ⟨h1, fun hle => by by_contra hneg; exact hcond ⟨by omega, hle⟩, h4⟩

/-- The index that a walk over a list ends with, from the one picked so far. -/
def scan (iFirst : ℕ) : List ℕ → ℕ
  | [] => iFirst
  | i :: l => if 0 < i then scan (if i < iFirst then i else iFirst) l else iFirst

/-- The index that `memsys5UnlinkFirst` picks. -/
def pick : List ℕ → ℕ
  | [] => 0
  | i :: l => scan i (i :: l)

theorem scan_mem (l : List ℕ) (iFirst : ℕ) : scan iFirst l = iFirst ∨ scan iFirst l ∈ l := by
  induction l generalizing iFirst with
  | nil => exact .inl rfl
  | cons i l ih =>
    rw [scan]
    split_ifs with hpos hlt
    · exact .inr (List.mem_cons.mpr (ih i))
    · exact (ih iFirst).imp_right (List.mem_cons_of_mem i)
    · exact .inl rfl

theorem pick_mem {l : List ℕ} (hne : l ≠ []) : pick l ∈ l := by
  cases l with
  | nil => exact absurd rfl hne
  | cons i l =>
    rcases scan_mem (i :: l) i with h | h
    · exact List.mem_cons.mpr (.inl h)
    · exact h

theorem loop_scan {m : Mem5Global} {p : Option ℕ} {l : List ℕ} (iFirst : ℕ) {z : ℤ} {n : ℕ}
    (h : Links m.nextOf m.prevOf p l) (hz : toLink z = l.head?) (hn : l.length < n) :
    loop (fun (s : ℤ × ℤ) =>
      if 0 < s.1 then Sum.inl (m.next s.1.toNat, if s.1 < s.2 then s.1 else s.2)
      else Sum.inr s.2) n (z, (iFirst : ℤ)) = some (scan iFirst l : ℤ) := by
  induction l generalizing p iFirst z n with
  | nil =>
    obtain ⟨n, rfl⟩ := Nat.exists_eq_add_of_lt hn
    have hneg : z < 0 := toLink_eq_none.mp hz
    simp [loop, scan, not_lt.mpr hneg.le]
  | cons i l ih =>
    obtain ⟨n, rfl⟩ : ∃ k, n = k + 1 := ⟨n - 1, by omega⟩
    obtain rfl : z = i := toLink_eq_some.mp hz
    obtain ⟨-, hnext, hrest⟩ := h
    rw [scan, loop]
    by_cases hpos : 0 < i
    · have hmin : (if (i : ℤ) < iFirst then (i : ℤ) else iFirst) =
          ((if i < iFirst then i else iFirst : ℕ) : ℤ) := by
        split_ifs <;> omega
      simp only [Int.natCast_pos, if_pos hpos, Int.toNat_natCast, hmin]
      exact ih _ hrest hnext (by simpa using hn)
    · simp only [Int.natCast_pos, if_neg hpos]

theorem memsys5UnlinkFirst_eq {m : Mem5Global} {k : ℕ} {l : List ℕ} (h : FreelistIs m k l)
    (hne : l ≠ []) (hlt : ∀ x ∈ l, x < m.nBlock) :
    memsys5UnlinkFirst m k = some (memsys5Unlink m (pick l) k, pick l) := by
  have hlen := length_le_of_nodup h.nodup hlt
  cases l with
  | nil => exact absurd rfl hne
  | cons i l =>
    have hhead : m.aiFreelist k = i := toLink_eq_some.mp h.head
    have hwalk := loop_scan i (n := m.nBlock + 1) h.links h.head (by omega)
    unfold memsys5UnlinkFirst
    rw [hhead] at hwalk ⊢
    rw [hwalk]
    rfl

theorem splitBlock_spec {m : Mem5Global} {L : ℕ → List ℕ} {V : Set (ℕ × ℕ)} {i b l : ℕ}
    (h : Core m L V {(i, b)}) (hlb : l ≤ b) (hb : b ≤ LOGMAX) :
    ∃ m', splitBlock m i b l = some m' ∧ Touches (outside V) m m' ∧
      ∃ L', Core m' L' V {(i, l)} := by
  refine loop_total
    (fun n (s : Mem5Global × ℕ) => n = s.2 - l ∧ l ≤ s.2 ∧ s.2 ≤ LOGMAX ∧
      Touches (outside V) m s.1 ∧ ∃ L', Core s.1 L' V {(i, s.2)})
    (fun m' => Touches (outside V) m m' ∧ ∃ L', Core m' L' V {(i, l)})
    ?_ ?_ (LOGMAX + 2) (b - l) (m, b) ⟨rfl, hlb, hb, Touches.refl m, L, h⟩ (by omega)
  · rintro n ⟨m₁, c⟩ s' ⟨hn, hlc, hc, ht, L₁, h₁⟩ hs
    dsimp only at hn hlc hc ht h₁ hs
    split_ifs at hs with hlt
    obtain rfl := Sum.inl.inj hs
    obtain ⟨d, rfl⟩ : ∃ d, c = d + 1 := ⟨c - 1, by omega⟩
    simp only [Nat.add_sub_cancel]
    have hp := Nat.two_pow_pos d
    have hal : 2 ^ (d + 1) ∣ i := h₁.tiling.aligned _ (Or.inr rfl)
    have hbud : buddy (i + 2 ^ d) d = i := by
      obtain ⟨q, hq, hcase⟩ := buddy_cases ((pow_dvd_pow 2 (Nat.le_succ d)).trans hal)
      rcases hcase with ⟨rfl, he⟩ | ⟨he, -⟩
      · rw [← he]
        exact buddy_buddy ((pow_dvd_pow 2 (Nat.le_succ d)).trans hal)
      · exfalso
        have hdv : 2 ^ (d + 1) ∣ 2 ^ d := (Nat.dvd_add_right hq).mp (he ▸ hal)
        have := Nat.le_of_dvd hp hdv
        rw [pow_succ] at this
        omega
    have hin : i + 2 ^ d ∈ span (i, d + 1) := by
      rw [mem_span, pow_succ]
      dsimp only
      omega
    have h₂ := (h₁.setCtrl (h₁.held_start rfl hin) (freeCtrl d)).split
    have hlink := h₂.link (i := i + 2 ^ d) (k := d) (by omega) (Or.inr rfl)
      (Function.update_self _ _ _) (by
        rw [hbud]
        exact fun hx => (h₂.apart _ (Or.inl rfl)).1 ⟨by omega, hx⟩)
    have hset : ({(i, d), (i + 2 ^ d, d)} : Set (ℕ × ℕ)) \ {(i + 2 ^ d, d)} = {(i, d)} := by
      ext x
      simp only [Set.mem_sdiff, Set.mem_insert_iff, Set.mem_singleton_iff]
      constructor
      · tauto
      · rintro rfl
        exact ⟨Or.inl rfl, fun e => by have := (Prod.mk.inj e).1; omega⟩
    refine ⟨d - l, by omega, rfl, by omega, by omega, ?_, _, hset ▸ hlink⟩
    exact (ht.trans (Touches.setCtrl _ _)).trans (h₂.link_touches (by omega) (Or.inr rfl))
  · rintro n ⟨m₁, c⟩ r ⟨hn, hlc, hc, ht, L₁, h₁⟩ hs
    dsimp only at hn hlc hc ht h₁ hs
    split_ifs at hs with hlt
    obtain rfl := Sum.inr.inj hs
    obtain rfl : c = l := by omega
    exact ⟨ht, L₁, h₁⟩

/-- The first class with a block that meets a request. -/
def Serves (m : Mem5Global) (L : ℕ → List ℕ) (nByte b : ℕ) : Prop :=
  IsLeast {k | k ≤ LOGMAX ∧ L k ≠ [] ∧ nByte ≤ m.szAtom * 2 ^ k} b

section
variable {m : Mem5Global} {L : ℕ → List ℕ} {V : Set (ℕ × ℕ)} {nByte : ℕ}

theorem Core.nonneg_iff (h : Core m L V ∅) {k : ℕ} (hk : k ≤ LOGMAX) :
    0 ≤ m.aiFreelist k ↔ L k ≠ [] := by
  rw [← not_lt, ← toLink_eq_none, (h.lists k hk).head, ne_eq, List.head?_eq_none_iff]

/-- The search ends at the first class that serves, or above all. -/
theorem findBin_serves (h : Core m L V ∅) (hn : nByte ≤ 0x40000000) :
    ∃ l b, roundRequest m.szAtom nByte = some (m.szAtom * 2 ^ l, l) ∧ l ≤ LOGMAX ∧
      nByte ≤ m.szAtom * 2 ^ l ∧ findBin m l = some b ∧ l ≤ b ∧
      (∀ c, Serves m L nByte c ↔ c = b ∧ b ≤ LOGMAX) := by
  obtain ⟨l, hround, hl, hle, hless⟩ := roundRequest_spec h.atom hn
  have hl' : l ≤ LOGMAX := by unfold LOGMAX; omega
  obtain ⟨b, hfind, hlb, hbpos, hempty⟩ := findBin_spec m hl'
  refine ⟨l, b, hround, hl', hle, hfind, hlb, fun c => ?_⟩
  have hmem : ∀ k ≤ LOGMAX, L k ≠ [] → nByte ≤ m.szAtom * 2 ^ k → b ≤ k := by
    intro k hk hne hfit
    by_contra hlt
    have hlk : l ≤ k := by
      by_contra hkl
      have := hless k (by omega)
      omega
    have := hempty k hlk (by omega)
    have := (h.nonneg_iff hk).mpr hne
    omega
  have hleast : b ≤ LOGMAX → Serves m L nByte b := by
    intro hb
    have hpow : m.szAtom * 2 ^ l ≤ m.szAtom * 2 ^ b :=
      Nat.mul_le_mul_left _ (Nat.pow_le_pow_right (by omega) hlb)
    exact ⟨⟨hb, (h.nonneg_iff hb).mp (hbpos hb), hle.trans hpow⟩,
      fun k ⟨hk, hne, hfit⟩ => hmem k hk hne hfit⟩
  constructor
  · intro hc
    have hb : b ≤ LOGMAX := (hmem c hc.1.1 hc.1.2.1 hc.1.2.2).trans hc.1.1
    exact ⟨hc.unique (hleast hb), hb⟩
  · rintro ⟨rfl, hb⟩
    exact hleast hb

/-- An allocation that can be served hands out the picked block of the first class that serves,
cut down to a sufficient size. -/
theorem memsys5MallocUnsafe_served (h : Core m L V ∅) (hn : nByte ≤ 0x40000000) {b : ℕ}
    (hb : Serves m L nByte b) :
    ∃ m' k L', memsys5MallocUnsafe m nByte = some (m', some (pick (L b) * m.szAtom)) ∧
      Touches (outside V) m m' ∧ nByte ≤ m.szAtom * 2 ^ k ∧ (pick (L b), k) ∉ V ∧
      Core m' L' (insert (pick (L b), k) V) ∅ := by
  obtain ⟨s, hs⟩ := noteRequest_eq m nByte
  have h₀ := h.with_stats s
  have ht₀ : Touches (outside V) m { m with stats := s } := ⟨rfl, rfl, fun _ _ => rfl⟩
  obtain ⟨l, b', hround, hl, hle, hfind, hlb, hserves⟩ := findBin_serves h₀ hn
  obtain ⟨rfl, hb'⟩ := (hserves b).mp hb
  have hlt : ∀ x ∈ L b, x < m.nBlock := by
    intro x hx
    have hin := h.tiling.inside _ (Core.free_mem (V := V) (H := ∅) hb' hx)
    have := Nat.two_pow_pos b
    dsimp only at hin
    omega
  have hi := pick_mem hb.1.2.1
  have hun := memsys5UnlinkFirst_eq (h₀.lists b hb') hb.1.2.1 hlt
  generalize pick (L b) = i at hi hun ⊢
  have h₁ := h₀.unlink hb' hi
  rw [insert_empty_eq] at h₁
  have ht₁ := h₀.unlink_touches hb' hi
  obtain ⟨m₂, hsplit, ht₂, L₂, h₂⟩ := splitBlock_spec h₁ hlb hb'
  have h₃ := h₂.setCtrl (h₂.held_start rfl (Tiling.start_mem_span (i, l))) (.ofNat l)
  have h₄ := h₃.grant hl (Function.update_self _ _ _)
  have ht : Touches (outside V) m m₂ := (ht₀.trans ht₁).trans ht₂
  refine ⟨noteMalloc (m₂.setCtrl i (.ofNat l)) (m.szAtom * 2 ^ l) nByte, l, L₂, ?_,
    ht.trans ⟨rfl, rfl, fun _ _ => rfl⟩, hle, (h₂.apart _ rfl).2, h₄.with_stats _⟩
  unfold memsys5MallocUnsafe
  dsimp only at hround ⊢
  rw [hs, if_neg (not_lt.mpr hn)]
  simp only [hround, hfind, Option.bind_eq_bind, Option.bind_some, if_neg (not_lt.mpr hb'), hun,
    hsplit, Mem5Global.setCtrl, ht.szAtom]

theorem memsys5MallocUnsafe_refused (h : Core m L V ∅)
    (hno : 0x40000000 < nByte ∨ ∀ b, ¬ Serves m L nByte b) :
    memsys5MallocUnsafe m nByte = some (noteRequest m nByte, none) := by
  unfold memsys5MallocUnsafe
  dsimp only
  by_cases hbig : nByte > 0x40000000
  · rw [if_pos hbig]
  rw [if_neg hbig]
  obtain ⟨s, hs⟩ := noteRequest_eq m nByte
  obtain ⟨l, b, hround, -, -, hfind, -, hserves⟩ := findBin_serves (h.with_stats s) (not_lt.mp hbig)
  have hover : b > LOGMAX := by
    by_contra hb
    exact (hno.resolve_left hbig) b ((hserves b).mpr ⟨rfl, not_lt.mp hb⟩)
  dsimp only at hround
  rw [hs]
  simp only [hround, hfind, Option.bind_eq_bind, Option.bind_some, if_pos hover]

/-- What an allocation does: it fails and leaves every block alone, or hands out a new block of
sufficient size cut out of the free ones. -/
theorem memsys5MallocUnsafe_spec (h : Core m L V ∅) (nByte : ℕ) :
    ∃ m' p, memsys5MallocUnsafe m nByte = some (m', p) ∧ Touches (outside V) m m' ∧
      ((p = none ∧ ∃ L', Core m' L' V ∅) ∨
        ∃ i k L', p = some (i * m.szAtom) ∧ nByte ≤ m.szAtom * 2 ^ k ∧ (i, k) ∉ V ∧
          Core m' L' (insert (i, k) V) ∅) := by
  by_cases hserved : nByte ≤ 0x40000000 ∧ ∃ b, Serves m L nByte b
  · obtain ⟨hn, b, hb⟩ := hserved
    obtain ⟨m', k, L', hr, ht, hle, hnew, hc⟩ := memsys5MallocUnsafe_served h hn hb
    exact ⟨m', _, hr, ht, .inr ⟨_, k, L', rfl, hle, hnew, hc⟩⟩
  · have hno : 0x40000000 < nByte ∨ ∀ b, ¬ Serves m L nByte b := by
      by_cases hn : nByte ≤ 0x40000000
      · exact .inr fun b hb => hserved ⟨hn, b, hb⟩
      · exact .inl (by omega)
    obtain ⟨s, hs⟩ := noteRequest_eq m nByte
    refine ⟨_, none, memsys5MallocUnsafe_refused h hno, ?_, .inl ⟨rfl, L, ?_⟩⟩
    · rw [hs]
      exact ⟨rfl, rfl, fun _ _ => rfl⟩
    · rw [hs]
      exact h.with_stats s

end

/-! Release: a freed block is merged with its buddy for as long as the buddy is free. -/

/-- The source's test of one bit of the index. -/
theorem buddy_eq (i k : ℕ) :
    (if (i >>> k) &&& 1 = 1 then i - 2 ^ k else i + 2 ^ k) = buddy i k := by
  rw [Nat.shiftRight_eq_div_pow, Nat.and_one_is_mod, buddy]

namespace Core
variable {m : Mem5Global} {L : ℕ → List ℕ} {V : Set (ℕ × ℕ)} {i k : ℕ}

/-- The buddy's control byte decides: it marks a free block of size `k` only if the buddy is one,
however stale the bytes inside other blocks are. -/
theorem buddy_free (h : Core m L V {(i, k)}) (hin : buddy i k + 2 ^ k ≤ m.nBlock)
    (hc : m.aCtrl (buddy i k) = freeCtrl k) : buddy i k ∈ L k := by
  have hk := h.log_lt (Or.inr rfl)
  obtain ⟨j, hj, (hf | hv) | hh⟩ := h.tiling.buddy_start (Or.inr rfl) hin
  · have he := (h.free_ctrl j hf.1 _ hf.2).symm.trans hc
    exact freeCtrl_inj j (by omega) k (by omega) he ▸ hf.2
  · exact absurd ((h.live_ctrl _ hv).2.symm.trans hc) (ofNat_ne_freeCtrl j (by omega) k (by omega))
  · exact absurd (Prod.mk.inj hh).1 (buddy_ne i k)

/-- The held block and its buddy become one held block. -/
theorem absorb (h : Core m L V {(i, k)}) (hk : k ≤ LOGMAX) (hb : buddy i k ∈ L k) :
    ∃ q L', (q = if buddy i k < i then buddy i k else i) ∧
      Core (((memsys5Unlink m (buddy i k) k).setCtrl q (freeCtrl (k + 1))).setCtrl
        (if buddy i k < i then i else buddy i k) 0) L' V {(q, k + 1)} := by
  have hp := Nat.two_pow_pos k
  obtain ⟨q, hq, hcase⟩ := buddy_cases (h.tiling.aligned _ (Or.inr rfl))
  have h₁ := h.unlink hk hb
  have hpair : q = (if buddy i k < i then buddy i k else i) ∧
      q + 2 ^ k = (if buddy i k < i then i else buddy i k) ∧
      (insert (buddy i k, k) {(i, k)} : Set (ℕ × ℕ)) = {(q, k), (q + 2 ^ k, k)} := by
    rcases hcase with ⟨rfl, he⟩ | ⟨hi, he⟩
    · rw [he, if_neg (by omega), if_neg (by omega)]
      exact ⟨rfl, rfl, Set.pair_comm _ _⟩
    · rw [he, if_pos (by omega), if_pos (by omega), ← hi]
      exact ⟨rfl, rfl, rfl⟩
  obtain ⟨hqe, hre, hset⟩ := hpair
  rw [hset] at h₁
  have h₂ := h₁.setCtrl (h₁.held_start (Or.inl rfl) (Tiling.start_mem_span (q, k))) (freeCtrl (k + 1))
  have h₃ := h₂.setCtrl (h₂.held_start (Or.inr rfl) (Tiling.start_mem_span (q + 2 ^ k, k))) 0
  exact ⟨q, _, hqe, hre ▸ h₃.merge hq⟩

end Core

variable {m : Mem5Global} {L : ℕ → List ℕ} {V : Set (ℕ × ℕ)} {i k : ℕ}

theorem coalesce_spec (h : Core m L V {(i, k)}) (hc : m.aCtrl i = freeCtrl k) :
    ∃ r : Mem5Global × ℕ × ℕ, coalesce m i k = some r ∧ Touches (outside V) m r.1 ∧ r.1.aCtrl r.2.1 = freeCtrl r.2.2 ∧
      ∃ L', Core r.1 L' V {(r.2.1, r.2.2)} ∧ buddy r.2.1 r.2.2 ∉ L' r.2.2 := by
  have hlog : ∀ {m L} {i k : ℕ}, Core m L V {(i, k)} → k < LOGMAX := fun h => by
    have := h.log_lt (Or.inr rfl)
    unfold LOGMAX
    dsimp only at this
    omega
  refine loop_total
    (fun n (s : Mem5Global × ℕ × ℕ × ℕ) => n = LOGMAX - s.2.2.1 ∧ s.2.2.2 = 2 ^ s.2.2.1 ∧
      Touches (outside V) m s.1 ∧ s.1.aCtrl s.2.1 = freeCtrl s.2.2.1 ∧
      ∃ L', Core s.1 L' V {(s.2.1, s.2.2.1)})
    (fun r : Mem5Global × ℕ × ℕ => Touches (outside V) m r.1 ∧ r.1.aCtrl r.2.1 = freeCtrl r.2.2 ∧
      ∃ L', Core r.1 L' V {(r.2.1, r.2.2)} ∧ buddy r.2.1 r.2.2 ∉ L' r.2.2)
    ?_ ?_ (LOGMAX + 1) (LOGMAX - k) (m, i, k, 2 ^ k) ⟨rfl, rfl, Touches.refl m, hc, L, h⟩ (by omega)
  · rintro n ⟨m₁, i, k, size⟩ s' ⟨hn, hsz, ht, hc, L₁, h₁⟩ hs
    dsimp only at hn hsz ht hc h₁ hs
    subst hsz
    have hk := hlog h₁
    rw [if_pos hk, buddy_eq] at hs
    by_cases hover : m₁.nBlock < buddy i k + 2 ^ k
    · rw [if_pos hover] at hs
      cases hs
    rw [if_neg hover] at hs
    by_cases hne : m₁.aCtrl (buddy i k) ≠ CTRL_FREE ||| .ofNat k
    · rw [if_pos hne] at hs
      cases hs
    rw [if_neg hne] at hs
    have hb := h₁.buddy_free (not_lt.mp hover) (not_not.mp hne)
    have ht' := ht.trans (h₁.unlink_touches hk.le hb)
    obtain ⟨q, L', hq, h₂⟩ := h₁.absorb hk.le hb
    have hbi := buddy_ne i k
    by_cases hlt : buddy i k < i
    · rw [if_pos hlt] at hs hq h₂
      obtain rfl := Sum.inl.inj hs
      subst hq
      refine ⟨LOGMAX - (k + 1), by omega, rfl, by dsimp only; rw [pow_succ],
        (ht'.trans (Touches.setCtrl _ _)).trans (Touches.setCtrl _ _), ?_, L', h₂⟩
      exact (Function.update_of_ne hbi _ _).trans (Function.update_self _ _ _)
    · rw [if_neg hlt] at hs hq h₂
      obtain rfl := Sum.inl.inj hs
      subst hq
      refine ⟨LOGMAX - (k + 1), by omega, rfl, by dsimp only; rw [pow_succ],
        (ht'.trans (Touches.setCtrl _ _)).trans (Touches.setCtrl _ _), ?_, L', h₂⟩
      exact (Function.update_of_ne hbi.symm _ _).trans (Function.update_self _ _ _)
  · rintro n ⟨m₁, i, k, size⟩ r ⟨hn, hsz, ht, hc, L₁, h₁⟩ hs
    dsimp only at hn hsz ht hc h₁ hs
    subst hsz
    have hk := hlog h₁
    rw [if_pos hk, buddy_eq] at hs
    by_cases hover : m₁.nBlock < buddy i k + 2 ^ k
    · rw [if_pos hover] at hs
      obtain rfl := Sum.inr.inj hs
      refine ⟨ht, hc, L₁, h₁, fun hb => ?_⟩
      exact absurd (h₁.tiling.inside _ (Core.free_mem hk.le hb)) (not_le.mpr hover)
    rw [if_neg hover] at hs
    by_cases hne : m₁.aCtrl (buddy i k) ≠ CTRL_FREE ||| .ofNat k
    · rw [if_pos hne] at hs
      obtain rfl := Sum.inr.inj hs
      exact ⟨ht, hc, L₁, h₁, fun hb => hne (h₁.free_ctrl k hk.le _ hb)⟩
    rw [if_neg hne] at hs
    split_ifs at hs

theorem noteFree_eq (m : Mem5Global) (size : ℕ) :
    ∃ s, noteFree m size = { m with stats := s } := ⟨_, rfl⟩

/-- Freeing a live block leaves the other live blocks, and only them, with their contents. -/
theorem memsys5FreeUnsafe_spec (h : Core m L V ∅) (hv : (i, k) ∈ V) :
    ∃ m' L', memsys5FreeUnsafe m (i * m.szAtom) = some m' ∧
      Touches (outside (V \ {(i, k)})) m m' ∧ Core m' L' (V \ {(i, k)}) ∅ := by
  have hk := h.log_lt (Or.inl (Or.inr hv))
  have hp := Nat.two_pow_pos k
  have hidx : i * m.szAtom / m.szAtom = i := Nat.mul_div_cancel i (by have := h.atom; omega)
  have h₀ := h.take hv
  have hstart := Tiling.start_mem_span (i, k)
  have hlast : i + 2 ^ k - 1 ∈ span (i, k) := by
    rw [mem_span]
    dsimp only
    omega
  unfold memsys5FreeUnsafe
  dsimp only
  rw [hidx, (h.live_ctrl _ hv).2, logsize_ofNat k (by omega)]
  have h₁ := h₀.setCtrl (h₀.held_start rfl hstart) (.ofNat k ||| CTRL_FREE)
  have h₂ := h₁.setCtrl (h₁.held_start rfl hlast)
    ((m.setCtrl i (.ofNat k ||| CTRL_FREE)).aCtrl (i + 2 ^ k - 1) ||| CTRL_FREE)
  obtain ⟨s, hs⟩ := noteFree_eq ((m.setCtrl i (.ofNat k ||| CTRL_FREE)).setCtrl (i + 2 ^ k - 1)
    ((m.setCtrl i (.ofNat k ||| CTRL_FREE)).aCtrl (i + 2 ^ k - 1) ||| CTRL_FREE)) (2 ^ k)
  have h₃ := (h₂.with_stats s).setCtrl (h₂.held_start rfl hstart) (freeCtrl k)
  rw [← hs] at h₃
  obtain ⟨⟨m₄, q, j⟩, hco, ht, hc, L₄, h₄, hb⟩ := coalesce_spec h₃ (Function.update_self _ _ _)
  have hj : j ≤ LOGMAX := by
    have := h₄.log_lt (Or.inr rfl)
    unfold LOGMAX
    dsimp only at this
    omega
  have h₅ := h₄.link hj rfl hc hb
  rw [Set.sdiff_self] at h₅
  refine ⟨memsys5Link m₄ q j, _, ?_, ?_, h₅⟩
  · refine (congrArg (Option.bind · _) hco).trans rfl
  · exact Touches.trans ⟨ht.szAtom, ht.nBlock, ht.pool⟩ (h₄.link_touches hj rfl)

end Sqlite.Mem5

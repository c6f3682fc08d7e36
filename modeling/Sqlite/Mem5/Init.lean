import Sqlite.Mem5.Malloc

/-! The initial decomposition: descending powers of two, each taken while it still fits. -/
namespace Sqlite.Mem5
open Foundation

theorem memsys5Log_spec {iValue : ℤ} (h : iValue ≤ 1073741824) :
    ∃ k, memsys5Log iValue = some k ∧ k ≤ 30 := by
  refine loop_total (fun n iLog => n = 30 - iLog ∧ iLog ≤ 30) (fun k => k ≤ 30) ?_ ?_ 32 30 0
    ⟨rfl, by omega⟩ (by omega)
  · rintro n iLog s' ⟨hn, hle⟩ hs
    split_ifs at hs with hc
    obtain rfl := Sum.inl.inj hs
    have hlt : iLog < 30 := by
      by_contra hge
      obtain rfl : iLog = 30 := by omega
      exact absurd hc.2 (by omega)
    exact ⟨30 - (iLog + 1), by omega, rfl, by omega⟩
  · rintro n iLog r ⟨-, hle⟩ hs
    split_ifs at hs with hc
    obtain rfl := Sum.inr.inj hs
    exact hle

/-- Doubling until a block can hold the two links. -/
theorem szAtom_spec {a : ℕ} (ha : a ≤ 30) :
    ∃ z, loop (fun szAtom => if szAtom < 8 then .inl (szAtom <<< 1) else .inr szAtom) 4 (2 ^ a) =
      some z ∧ 8 ≤ z ∧ ∃ b, z = 2 ^ b := by
  refine loop_total (fun n z => ∃ b, z = 2 ^ b ∧ n = 3 - b) (fun z => 8 ≤ z ∧ ∃ b, z = 2 ^ b)
    ?_ ?_ 4 (3 - a) (2 ^ a) ⟨a, rfl, rfl⟩ (by omega)
  · rintro n z s' ⟨b, rfl, rfl⟩ hs
    split_ifs at hs with hlt
    obtain rfl := Sum.inl.inj hs
    have hb : b < 3 := (Nat.pow_lt_pow_iff_right (a := 2) (by omega)).mp hlt
    exact ⟨3 - (b + 1), by omega, b + 1, by rw [Nat.shiftLeft_eq, pow_one, pow_succ], rfl⟩
  · rintro n z r ⟨b, rfl, -⟩ hs
    split_ifs at hs with hlt
    obtain rfl := Sum.inr.inj hs
    exact ⟨not_lt.mp hlt, b, rfl⟩

/-- The memory as it looks when only the first `off` atoms are considered. -/
def Mem5Global.upTo (m : Mem5Global) (off : ℕ) : Mem5Global := { m with nBlock := off }

theorem Mem5Global.upTo_nBlock (m : Mem5Global) : m.upTo m.nBlock = m := rfl

theorem memsys5Link_upTo (m : Mem5Global) (off i k : ℕ) :
    memsys5Link (m.upTo off) i k = (memsys5Link m i k).upTo off := by
  unfold memsys5Link
  dsimp only
  by_cases h : 0 ≤ m.aiFreelist k
  · rw [if_pos h, if_pos (show 0 ≤ (m.upTo off).aiFreelist k from h)]
    rfl
  · rw [if_neg h, if_neg (show ¬ 0 ≤ (m.upTo off).aiFreelist k from h)]
    rfl

theorem memsys5Link_nBlock (m : Mem5Global) (i k : ℕ) : (memsys5Link m i k).nBlock = m.nBlock := by
  unfold memsys5Link
  dsimp only
  split_ifs <;> rfl

theorem memsys5Link_szAtom (m : Mem5Global) (i k : ℕ) : (memsys5Link m i k).szAtom = m.szAtom := by
  unfold memsys5Link
  dsimp only
  split_ifs <;> rfl

namespace Core
variable {m : Mem5Global} {L : ℕ → List ℕ} {off k : ℕ}

/-- The pool grows by a held block behind its end. -/
theorem extend (h : Core (m.upTo off) L ∅ ∅) (hd : 2 ^ k ∣ off) (hs : off + 2 ^ k < 268435456) :
    Core (m.upTo (off + 2 ^ k)) L ∅ {(off, k)} := by
  have hp := Nat.two_pow_pos k
  have hT := h.tiling
  have hnew : ∀ j, (off, j) ∉ FreeSet L := fun j hm => by
    have hin := hT.inside _ (Or.inl (Or.inl hm))
    have := Nat.two_pow_pos j
    dsimp only [Mem5Global.upTo] at hin
    omega
  have hlow : ∀ b ∈ FreeSet L, ∀ x ∈ span b, x < off := by
    intro b hb x hx
    have hin := hT.inside _ (Or.inl (Or.inl hb))
    rw [mem_span] at hx
    dsimp only [Mem5Global.upTo] at hin
    omega
  refine ⟨h.atom, hs, fun j hj => ⟨(h.lists j hj).isInt, (h.lists j hj).head, (h.lists j hj).links,
    (h.lists j hj).nodup⟩, h.free_ctrl, fun b hb => absurd hb (by simp), ?_, ?_, h.coalesced⟩
  · rintro b rfl
    exact ⟨hnew k, by simp⟩
  · have hmem : ∀ b, b ∈ FreeSet L ∪ ∅ ∪ {(off, k)} → b ∈ FreeSet L ∨ b = (off, k) := by
      intro b hb
      simpa [or_comm] using hb
    refine ⟨fun b hb => ?_, fun b hb => ?_, fun x hx => ?_, fun b hb c hc x hxb hxc => ?_⟩
    · rcases hmem b hb with hb | rfl
      · exact hT.aligned _ (Or.inl (Or.inl hb))
      · exact hd
    · rcases hmem b hb with hb | rfl
      · exact (hT.inside _ (Or.inl (Or.inl hb))).trans (Nat.le_add_right _ _)
      · exact le_rfl
    · by_cases hlt : x < off
      · obtain ⟨b, hb, hxb⟩ := hT.cover x hlt
        exact ⟨b, Or.inl (by simpa using hb), hxb⟩
      · exact ⟨(off, k), Or.inr rfl, not_lt.mp hlt, hx⟩
    · rcases hmem b hb with hb | rfl <;> rcases hmem c hc with hc | rfl
      · exact hT.unique _ (Or.inl (Or.inl hb)) _ (Or.inl (Or.inl hc)) x hxb hxc
      · exact absurd (hlow b hb x hxb) (not_lt.mpr hxc.1)
      · exact absurd (hlow c hc x hxc) (not_lt.mpr hxb.1)
      · rfl

end Core

/-- The blocks below `s.2` are on their lists, and what is left is smaller than the last block
tried. -/
structure Decomposed (n ii : ℕ) (s : Mem5Global × ℕ) (L : ℕ → List ℕ) : Prop where
  core : Core (s.1.upTo s.2) L ∅ ∅
  nBlock : s.1.nBlock = n
  aligned : 2 ^ ii ∣ s.2
  inside : s.2 ≤ n
  rest : n - s.2 < 2 ^ ii
  unused : ∀ j < ii, L j = []

theorem initBlock_spec {n ii : ℕ} {s : Mem5Global × ℕ} {L : ℕ → List ℕ} (hn : n < 268435456)
    (hi : ii ≤ LOGMAX) (h : Decomposed n (ii + 1) s L) :
    ∃ L', Decomposed n ii (initBlock ii s) L' ∧ (initBlock ii s).1.szAtom = s.1.szAtom := by
  obtain ⟨m, off⟩ := s
  have hp := Nat.two_pow_pos ii
  have hd : 2 ^ ii ∣ off := (pow_dvd_pow 2 (Nat.le_succ ii)).trans h.aligned
  have hrest := h.rest
  rw [pow_succ] at hrest
  have hnb : m.nBlock = n := h.nBlock
  dsimp only at hrest
  unfold initBlock
  dsimp only
  by_cases hfit : off + 2 ^ ii ≤ m.nBlock
  · rw [if_pos hfit]
    have h₁ := h.core.extend hd (by dsimp only; omega)
    have hself := Tiling.start_mem_span (off, ii)
    have h₂ := h₁.setCtrl (h₁.held_start rfl hself) (.ofNat ii ||| CTRL_FREE)
    have hctrl : Function.update m.aCtrl off (.ofNat ii ||| CTRL_FREE) off = freeCtrl ii :=
      (Function.update_self _ _ _).trans (ofNat_or_free ii (by unfold LOGMAX at hi; omega))
    have h₃ := h₂.link hi rfl hctrl (by rw [h.unused ii (Nat.lt_succ_self ii)]; simp)
    rw [Set.sdiff_self] at h₃
    refine ⟨Function.update L ii (off :: L ii), ⟨?_, ?_, Nat.dvd_add hd dvd_rfl, by dsimp only; omega,
      by dsimp only; omega, fun j hj => ?_⟩, memsys5Link_szAtom _ _ _⟩
    · exact memsys5Link_upTo (m.setCtrl off _) (off + 2 ^ ii) off ii ▸ h₃
    · exact (memsys5Link_nBlock _ _ _).trans hnb
    · rw [Function.update_of_ne (by omega)]
      exact h.unused j (by omega)
  · rw [if_neg hfit]
    exact ⟨L, ⟨h.core, hnb, hd, h.inside, by dsimp only; omega, fun j hj => h.unused j (by omega)⟩,
      rfl⟩

theorem initBlocks_spec {n : ℕ} (hn : n < 268435456) (ii : ℕ) (hi : ii ≤ LOGMAX + 1) :
    ∀ (s : Mem5Global × ℕ) (L : ℕ → List ℕ), Decomposed n ii s L →
      ∃ L', Decomposed n 0 (initBlocks ii s) L' ∧ (initBlocks ii s).1.szAtom = s.1.szAtom := by
  induction ii with
  | zero => exact fun s L h => ⟨L, h, rfl⟩
  | succ ii ih =>
    intro s L h
    obtain ⟨L₁, h₁, hz₁⟩ := initBlock_spec hn (by omega) h
    obtain ⟨L₂, h₂, hz₂⟩ := ih (by omega) _ L₁ h₁
    exact ⟨L₂, h₂, hz₂.trans hz₁⟩

/-- The freelists built by the initialisation tile the whole pool. -/
theorem memsys5Init_spec (m₀ : Mem5Global) {nHeap : ℕ} {mnReq : ℤ} (hH : nHeap < 2147483648)
    (hR : mnReq ≤ 1073741824) :
    ∃ m L, memsys5Init m₀ nHeap mnReq = some m ∧ Core m L ∅ ∅ ∧ (∃ b, m.szAtom = 2 ^ b) ∧
      m.nBlock = nHeap / (m.szAtom + 1) := by
  obtain ⟨a, hlog, ha⟩ := memsys5Log_spec hR
  obtain ⟨z, hz, hz8, b, hb⟩ := szAtom_spec ha
  let m₁ : Mem5Global := { m₀ with
    szAtom := z
    nBlock := nHeap / (z + 1)
    aiFreelist := fun ii => if ii ≤ LOGMAX then -1 else m₀.aiFreelist ii }
  have hn : nHeap / (z + 1) < 268435456 := by
    have h1 : nHeap / (z + 1) * (z + 1) ≤ nHeap := Nat.div_mul_le_self _ _
    have h2 : nHeap / (z + 1) * 9 ≤ nHeap / (z + 1) * (z + 1) := Nat.mul_le_mul_left _ (by omega)
    omega
  have hset : FreeSet (fun _ => []) ∪ ∅ ∪ ∅ = (∅ : Set (ℕ × ℕ)) := by
    ext b
    simp [FreeSet]
  have h₀ : Decomposed (nHeap / (z + 1)) (LOGMAX + 1) (m₁, 0) (fun _ => []) := by
    refine ⟨⟨hz8, by dsimp only [Mem5Global.upTo]; omega, fun k hk => ?_, ?_, ?_, ?_, ?_, ?_⟩, rfl,
      dvd_zero _, Nat.zero_le _, ?_, fun _ _ => rfl⟩
    · have he : (m₁.upTo 0).aiFreelist k = -1 := if_pos hk
      exact ⟨he ▸ ⟨by omega, by omega⟩, by rw [he]; rfl, trivial, List.nodup_nil⟩
    · exact fun k _ i hi => absurd hi (List.not_mem_nil)
    · exact fun b hb => absurd hb (Set.notMem_empty b)
    · exact fun b hb => absurd hb (Set.notMem_empty b)
    · rw [hset]
      exact ⟨fun b hb => absurd hb (Set.notMem_empty b), fun b hb => absurd hb (Set.notMem_empty b),
        fun x hx => absurd hx (Nat.not_lt_zero x), fun b hb => absurd hb (Set.notMem_empty b)⟩
    · exact fun k _ i hi => absurd hi (List.not_mem_nil)
    · unfold LOGMAX
      dsimp only
      omega
  obtain ⟨L, hL, hsz⟩ := initBlocks_spec hn (LOGMAX + 1) le_rfl _ _ h₀
  have hinit : memsys5Init m₀ nHeap mnReq = some (initBlocks (LOGMAX + 1) (m₁, 0)).1 := by
    unfold memsys5Init
    simp only [hlog, hz, Option.bind_eq_bind, Option.bind_some, m₁]
  generalize initBlocks (LOGMAX + 1) (m₁, 0) = r at hL hsz hinit
  obtain ⟨m, off⟩ := r
  have hoff : off = m.nBlock := by
    have h1 := hL.rest
    have h2 := hL.inside
    have h3 := hL.nBlock
    rw [pow_zero] at h1
    dsimp only at h1 h2 h3
    omega
  refine ⟨m, L, hinit, ?_, ⟨b, hsz.trans hb⟩, ?_⟩
  · rw [← m.upTo_nBlock, ← hoff]
    exact hL.core
  · exact hL.nBlock.trans (by rw [show m.szAtom = z from hsz])

end Sqlite.Mem5

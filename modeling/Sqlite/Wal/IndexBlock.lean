import Sqlite.Wal.Index

/-! What appending to the wal-index and cutting it back do to one block and to all of them. -/
namespace Sqlite.Wal

open Foundation

variable {wi wi' : WalIndex} {b n m top P : ℕ}

def blockCap (b : ℕ) : ℕ := iZero (b + 1) - iZero b

/-- Block `b` holds entries 1 to `n` and nothing else. -/
structure BlockGood (wi : WalIndex) (b n : ℕ) : Prop where
  le : n ≤ blockCap b
  probed : Probed 8192 walHash (aPgno wi b) (wi b).aHash n
  used : ∀ i, 0 < i → i ≤ n → aPgno wi b i ≠ 0
  free : ∀ i, n < i → i ≤ blockCap b → aPgno wi b i = 0

/-- Frames 1 to `top` have their entries. The block of `top` may hold more. -/
def Covers (wi : WalIndex) (top : ℕ) : Prop :=
  ∀ b, iZero b < top → ∃ n, BlockGood wi b n ∧ min (top - iZero b) (blockCap b) ≤ n

def SameBelow (wi wi' : WalIndex) (top : ℕ) : Prop :=
  ∀ i, 0 < i → i ≤ top → walFramePgno wi' i = walFramePgno wi i

theorem blockCap_le (b : ℕ) : blockCap b ≤ 4096 := by
  have := iZero_succ_le b
  unfold blockCap
  omega

theorem iZero_add_blockCap (b : ℕ) : iZero b + blockCap b = iZero (b + 1) := by
  have := iZero_mono b
  unfold blockCap
  omega

theorem aPgno_congr (h : wi' b = wi b) (i : ℕ) : aPgno wi' b i = aPgno wi b i := by
  unfold aPgno
  rw [h]

theorem BlockGood.congr (hg : BlockGood wi b n) (h : wi' b = wi b) : BlockGood wi' b n where
  le := hg.le
  probed := hg.probed.congr (by decide) (fun i _ _ => aPgno_congr h i) (fun _ _ => by rw [h])
  used i h0 h1 := by
    rw [aPgno_congr h]
    exact hg.used i h0 h1
  free i h0 h1 := by
    rw [aPgno_congr h]
    exact hg.free i h0 h1

theorem Covers.mono (hc : Covers wi top) (h : m ≤ top) : Covers wi m := by
  intro b hb
  obtain ⟨n, h1, h2⟩ := hc b (Nat.lt_of_lt_of_le hb h)
  exact ⟨n, h1, by omega⟩

theorem covers_zero (wi : WalIndex) : Covers wi 0 := fun _ h => absurd h (Nat.not_lt_zero _)

theorem SameBelow.refl (wi : WalIndex) (top : ℕ) : SameBelow wi wi top := fun _ _ _ => rfl

/-- Frames keep their page numbers when only the tail of one block changes. -/
theorem sameBelow_of_block (hother : ∀ b', b' ≠ b → wi' b' = wi b')
    (hb : ∀ i, 0 < i → iZero b + i ≤ top → i ≤ blockCap b → aPgno wi' b i = aPgno wi b i) :
    SameBelow wi wi' top := by
  intro i h0 h1
  obtain ⟨h2, h3⟩ := walFramePage_spec h0
  rw [walFramePgno_eq h2 h3, walFramePgno_eq h2 h3]
  have h4 := iZero_add_blockCap (walFramePage i)
  by_cases h : walFramePage i = b
  · subst h
    apply hb <;> omega
  · exact aPgno_congr (hother _ h) _

section Zero

/-- Words zeroed from an entry on clear that entry and the ones after it. -/
theorem zeroFrom_entry {blk : WiBlock} {L i : ℕ} (h0 : 0 < i) (h1 : i ≤ blockCap b) :
    blk.zeroFrom b (L + 1) (hdrWords b + i - 1) =
      if L < i then 0 else blk.word (hdrWords b + i - 1) := by
  have h2 : hdrWords b + blockCap b = 4096 := hdrWords_add b
  unfold WiBlock.zeroFrom
  by_cases h : L < i
  · have h3 : hdrWords b + i - 1 < HASHTABLE_NPAGE := by
      show _ < 4096
      omega
    rw [if_pos h, if_pos ⟨by omega, h3⟩]
  · rw [if_neg h, if_neg (fun hc => h (by omega))]

theorem clearBlock_other {b' : ℕ} (h : b' ≠ b) : clearBlock wi b b' = wi b' :=
  Function.update_of_ne h _ _

theorem clearBlock_good (wi : WalIndex) (b : ℕ) : BlockGood (clearBlock wi b) b 0 where
  le := Nat.zero_le _
  probed := Probed.empty (fun j _ => by rw [clearBlock, Function.update_self])
  used i h0 h1 := by omega
  free i h0 h1 := by
    rw [aPgno, clearBlock, Function.update_self]
    exact (zeroFrom_entry h0 h1).trans (if_pos h0)

theorem walCleanupHash_zero (wi : WalIndex) : walCleanupHash wi 0 = wi := if_pos rfl

theorem walCleanupHash_other {b' : ℕ} (h : b' ≠ walFramePage m) :
    walCleanupHash wi m b' = wi b' := by
  unfold walCleanupHash
  by_cases hm : m = 0
  · rw [if_pos hm]
  · rw [if_neg hm]
    exact Function.update_of_ne h _ _

theorem walCleanupHash_aPgno (wi : WalIndex) (hm : 0 < m) {i : ℕ} (h0 : 0 < i)
    (h1 : i ≤ blockCap (walFramePage m)) :
    aPgno (walCleanupHash wi m) (walFramePage m) i =
      if m - iZero (walFramePage m) < i then 0 else aPgno wi (walFramePage m) i := by
  unfold walCleanupHash aPgno
  rw [if_neg (Nat.ne_of_gt hm), Function.update_self]
  exact zeroFrom_entry h0 h1

/-- The block of `m` is cut back to the entries up to `m`. -/
theorem walCleanupHash_good (hc : Covers wi m) (hm : 0 < m) :
    BlockGood (walCleanupHash wi m) (walFramePage m) (m - iZero (walFramePage m)) := by
  obtain ⟨h1, h2⟩ := walFramePage_spec hm
  have h3 := iZero_add_blockCap (walFramePage m)
  obtain ⟨n, hg, hn⟩ := hc _ h1
  have hLn : m - iZero (walFramePage m) ≤ n := by omega
  have hLc : m - iZero (walFramePage m) ≤ blockCap (walFramePage m) := by omega
  have hkey : ∀ i, 0 < i → i ≤ m - iZero (walFramePage m) →
      aPgno (walCleanupHash wi m) (walFramePage m) i = aPgno wi (walFramePage m) i := by
    intro i h4 h5
    rw [walCleanupHash_aPgno wi hm h4 (Nat.le_trans h5 hLc), if_neg (Nat.not_lt.mpr h5)]
  constructor
  · exact hLc
  · apply (hg.probed.cleanup hLn).congr (by decide) hkey
    intro j _
    unfold walCleanupHash
    rw [if_neg (Nat.ne_of_gt hm), Function.update_self]
  · intro i h4 h5
    rw [hkey i h4 h5]
    exact hg.used i h4 (Nat.le_trans h5 hLn)
  · intro i h4 h5
    rw [walCleanupHash_aPgno wi hm (Nat.lt_of_le_of_lt (Nat.zero_le _) h4) h5, if_pos h4]

theorem walCleanupHash_same (wi : WalIndex) (m : ℕ) : SameBelow wi (walCleanupHash wi m) m := by
  rcases Nat.eq_zero_or_pos m with rfl | hm
  · rw [walCleanupHash_zero]
    exact SameBelow.refl _ _
  · apply sameBelow_of_block (b := walFramePage m) (fun b' h => walCleanupHash_other h)
    intro i h0 h1 h2
    rw [walCleanupHash_aPgno wi hm h0 h2, if_neg (by omega)]

theorem walCleanupHash_covers (hc : Covers wi m) : Covers (walCleanupHash wi m) m := by
  rcases Nat.eq_zero_or_pos m with rfl | hm
  · exact covers_zero _
  · intro b hb
    by_cases h : b = walFramePage m
    · subst h
      exact ⟨_, walCleanupHash_good hc hm, Nat.min_le_left _ _⟩
    · obtain ⟨n, hg, hn⟩ := hc b hb
      exact ⟨n, hg.congr (walCleanupHash_other h), hn⟩

end Zero

section Append

theorem setEntry_other {b' idx iKey : ℕ} (h : b' ≠ b) : setEntry wi b idx P iKey b' = wi b' :=
  Function.update_of_ne h _ _

theorem setEntry_aPgno {idx iKey i : ℕ} (h0 : 0 < i) (h1 : 0 < idx) :
    aPgno (setEntry wi b idx P iKey) b i = if i = idx then P else aPgno wi b i := by
  unfold setEntry aPgno
  rw [Function.update_self]
  by_cases h : i = idx
  · rw [if_pos h, h]
    exact Function.update_self ..
  · rw [if_neg h]
    exact Function.update_of_ne (by omega) _ _

/-- The insertion loop of `walIndexAppend` finds the first free slot within its bound. -/
theorem append_walk (hg : BlockGood wi b n) (P : ℕ) :
    ∃ e < 8192, walk walNextHash (wi b).aHash (fun _ u => u) (n + 1) (walHash P) () =
        some (probeAt 8192 (walHash P) e, ()) ∧
      (wi b).aHash (probeAt 8192 (walHash P) e) = 0 ∧
      ∀ d < e, (wi b).aHash (probeAt 8192 (walHash P) d) ≠ 0 := by
  have hcap := blockCap_le b
  have hle := hg.le
  obtain ⟨e, he, h0, hne⟩ := hg.probed.exists_free (by omega) (walHash P)
  have hw := walk_eq (fun _ (u : Unit) => u) walNextHash_eq (by decide) ()
    (Nat.le_succ_of_le he) h0 hne
  rw [walHash_mod] at hw
  exact ⟨e, by omega, hw, h0, hne⟩

theorem setEntry_good (hg : BlockGood wi b n) (hn : n < blockCap b) (hP : 0 < P) {e : ℕ}
    (he : e < 8192) (h0 : (wi b).aHash (probeAt 8192 (walHash P) e) = 0)
    (hne : ∀ d < e, (wi b).aHash (probeAt 8192 (walHash P) d) ≠ 0) :
    BlockGood (setEntry wi b (n + 1) P (probeAt 8192 (walHash P) e)) b (n + 1) where
  le := hn
  probed := by
    apply (hg.probed.insert he h0 hne).congr (by decide)
    · intro i h1 h2
      rw [setEntry_aPgno h1 (Nat.succ_pos n), Function.update_apply]
    · intro j _
      rw [setEntry, Function.update_self]
  used i h1 h2 := by
    rw [setEntry_aPgno h1 (Nat.succ_pos n)]
    by_cases h : i = n + 1
    · rw [if_pos h]
      exact Nat.ne_of_gt hP
    · rw [if_neg h]
      exact hg.used i h1 (by omega)
  free i h1 h2 := by
    rw [setEntry_aPgno (by omega) (Nat.succ_pos n), if_neg (by omega)]
    exact hg.free i (by omega) h2

/-- The entry of the new frame is free and the ones before it are in place. -/
theorem makeRoom_spec (hc : Covers wi top) {mx k : ℕ}
    (hx : top = mx ∨ BlockGood wi (walFramePage top) (top - iZero (walFramePage top)))
    (h0 : top + 1 = iZero b + k) (h1 : 0 < k) (h2 : k ≤ blockCap b) :
    BlockGood (makeRoom wi mx b k) b (k - 1) ∧
      (∀ b', b' ≠ b → makeRoom wi mx b k b' = wi b') ∧
      ∀ i, 0 < i → i < k → aPgno (makeRoom wi mx b k) b i = aPgno wi b i := by
  have hcap := iZero_add_blockCap b
  unfold makeRoom
  by_cases h3 : k = 1
  · subst h3
    have hfree := (clearBlock_good wi b).free 1 h1 h2
    simp only [if_true, hfree, ne_eq, not_true, if_false]
    exact ⟨clearBlock_good wi b, fun b' h => clearBlock_other h, fun i h4 h5 => by omega⟩
  · -- the frame before is in the same block
    have htop : walFramePage top = b := walFramePage_eq (by omega) (by omega)
    simp only [if_neg h3]
    obtain ⟨n, hg, hn⟩ := hc b (by omega)
    by_cases h4 : aPgno wi b k = 0
    · simp only [h4, ne_eq, not_true, if_false]
      have hni : n = k - 1 := by
        by_contra hcon
        exact hg.used k (by omega) (by omega) h4
      exact ⟨hni ▸ hg, fun _ _ => trivial, fun _ _ _ => trivial⟩
    · simp only [ne_eq, h4, not_false_eq_true, if_true]
      have hidx : top - iZero b = k - 1 := by omega
      rcases hx with rfl | hx
      · have hg' := walCleanupHash_good hc (by omega)
        rw [htop, hidx] at hg'
        refine ⟨hg', fun b' h => walCleanupHash_other (by rwa [htop]), fun i h5 h6 => ?_⟩
        have h7 := walCleanupHash_aPgno wi (m := top) (by omega) h5 (by rw [htop]; omega)
        rw [htop, if_neg (by omega)] at h7
        exact h7
      · rw [htop, hidx] at hx
        exact absurd (hx.free k (by omega) h2) h4

/-- Appending a frame succeeds, records it and keeps all earlier ones. -/
theorem walIndexAppend_spec (hc : Covers wi top) {mx : ℕ}
    (hx : top = mx ∨ BlockGood wi (walFramePage top) (top - iZero (walFramePage top)))
    (hP : 0 < P) :
    ∃ wi', walIndexAppend wi mx (top + 1) P = (Rc.ok, wi') ∧ Covers wi' (top + 1) ∧
      BlockGood wi' (walFramePage (top + 1)) (top + 1 - iZero (walFramePage (top + 1))) ∧
      walFramePgno wi' (top + 1) = P ∧ SameBelow wi wi' top := by
  obtain ⟨hb0, hb1⟩ := walFramePage_spec (show 0 < top + 1 from Nat.succ_pos top)
  have hcap := iZero_add_blockCap (walFramePage (top + 1))
  obtain ⟨hg, hother, hsame⟩ := makeRoom_spec (b := walFramePage (top + 1))
    (k := top + 1 - iZero (walFramePage (top + 1))) hc hx (by omega) (by omega) (by omega)
  dsimp only [walIndexAppend]
  generalize walFramePage (top + 1) = b at *
  generalize hidx : top + 1 - iZero b = idx at *
  obtain ⟨n, rfl⟩ : ∃ n, idx = n + 1 := ⟨idx - 1, by omega⟩
  simp only [Nat.add_sub_cancel] at hg hother hsame ⊢
  generalize makeRoom wi mx b (n + 1) = wi2 at *
  obtain ⟨e, he, hw, h0, hne⟩ := append_walk hg P
  simp only [hw]
  have hgood := setEntry_good hg (by omega) hP he h0 hne
  refine ⟨_, rfl, ?_, hgood, ?_, ?_⟩
  · intro b' hb'
    by_cases h : b' = b
    · subst h
      exact ⟨n + 1, hgood, by omega⟩
    · have hlt : b' < b := by
        by_contra hcon
        have := iZero_le (a := b + 1) (b := b') (by omega)
        omega
      have h1 := iZero_le (a := b' + 1) hlt
      have h2 := iZero_add_blockCap b'
      have h3 := iZero_mono b'
      obtain ⟨n', hg', hn'⟩ := hc b' (by omega)
      exact ⟨n', hg'.congr ((setEntry_other h).trans (hother b' h)), by omega⟩
  · rw [walFramePgno_eq hb0 hb1, hidx, setEntry_aPgno (Nat.succ_pos n) (Nat.succ_pos n), if_pos rfl]
  · apply sameBelow_of_block (b := b) (fun b' h => (setEntry_other h).trans (hother b' h))
    intro i h1 h2 h3
    rw [setEntry_aPgno h1 (Nat.succ_pos n), if_neg (by omega)]
    exact hsame i h1 (by omega)

end Append

section Search

/-- Within a block the search keeps the last accepted entry. -/
theorem search_block (hg : BlockGood wi b n) (iLast P r : ℕ) :
    ∃ k r', walk walNextHash (wi b).aHash (acceptSlot wi iLast P b) HASHTABLE_NSLOT
        (walHash P) r = some (k, r') ∧
      ((r' = r ∧ ∀ i, 0 < i → i ≤ n → iZero b + i ≤ iLast → aPgno wi b i ≠ P) ∨
       ∃ i, 0 < i ∧ i ≤ n ∧ r' = iZero b + i ∧ r' ≤ iLast ∧ aPgno wi b i = P ∧
        ∀ i', i < i' → i' ≤ n → iZero b + i' ≤ iLast → aPgno wi b i' ≠ P) := by
  have hcap := blockCap_le b
  have hle := hg.le
  obtain ⟨m, hm, h0, hne⟩ := hg.probed.exists_free (by omega) (walHash P)
  have hw := walk_eq (acceptSlot wi iLast P b) walNextHash_eq (by decide) r
    (show m ≤ HASHTABLE_NSLOT by show m ≤ 8192; omega) h0 hne
  rw [walHash_mod] at hw
  refine ⟨_, _, hw, ?_⟩
  let s : ℕ → ℕ := fun e => (wi b).aHash (probeAt 8192 (walHash P) e)
  have hle' : ∀ e, s e ≤ n := fun e => hg.probed.le _ (probeAt_lt (by decide) _ _)
  -- entries of the page are met on the path, in order
  have hpath : ∀ i, 0 < i → i ≤ n → aPgno wi b i = P → ∃ e < m, s e = i := by
    intro i h1 h2 h3
    obtain ⟨e, he, _, h4⟩ := hg.probed.on_path (m := m) h1 h2 (by rw [h3]; exact h0)
    rw [h3] at h4
    exact ⟨e, he, h4⟩
  have hlast := foldl_last (fun e => s e + iZero b ≤ iLast ∧ aPgno wi b (s e) = P)
    (fun e => s e + iZero b) r m
  rcases hlast with ⟨h1, h2⟩ | ⟨e, he, h1, h2, h3⟩
  · left
    refine ⟨h2, fun i h4 h5 h6 h7 => ?_⟩
    obtain ⟨e, he, rfl⟩ := hpath i h4 h5 h7
    exact h1 e he ⟨by omega, h7⟩
  · right
    refine ⟨s e, Nat.pos_of_ne_zero (hne e he), hle' e, h3.trans (Nat.add_comm _ _), ?_, h1.2, ?_⟩
    · exact le_of_eq_of_le h3 h1.1
    · intro i' h4 h5 h6 h7
      obtain ⟨e', he', rfl⟩ := hpath i' (by omega) h5 h7
      rcases Nat.lt_trichotomy e e' with hlt | rfl | hlt
      · exact h2 e' he' hlt ⟨by omega, h7⟩
      · exact Nat.lt_irrefl _ h4
      · -- an earlier slot on the path holds a smaller entry
        have hpos : 0 < s e := Nat.pos_of_ne_zero (hne e he)
        have h8 := hg.probed.ordered (d := e) (e := e') hpos (hle' e) (by omega)
          (by rw [h1.2]) hlt
        rw [h1.2] at h8
        exact Nat.lt_asymm h4 h8

/-- The outer loop goes through the blocks downwards until one has the page. -/
theorem searchBlocks_spec (hc : Covers wi top) {iLast : ℕ} (hL : iLast ≤ top) {k : ℕ}
    (hb : ∀ b < k, iZero b < iLast) :
    ∃ r, searchBlocks wi iLast P k 0 = .ok r ∧
      IsLastFrame (walFramePgno wi) P (min iLast (iZero k)) r := by
  induction k with
  | zero =>
    refine ⟨0, rfl, Nat.zero_le _, fun h => absurd h (Nat.lt_irrefl 0), fun i h0 h1 => ?_⟩
    rw [iZero_zero] at h1
    omega
  | succ b ih =>
    have hbl := hb b (Nat.lt_succ_self b)
    have hcap := iZero_add_blockCap b
    obtain ⟨n, hg, hn⟩ := hc b (by omega)
    have hnc := hg.le
    have hpg : ∀ i, 0 < i → i ≤ n → walFramePgno wi (iZero b + i) = aPgno wi b i := by
      intro i h0 h1
      rw [walFramePgno_eq (b := b) (by omega) (by omega), Nat.add_sub_cancel_left]
    obtain ⟨k, r', hw, hres⟩ := search_block hg iLast P 0
    unfold searchBlocks
    rw [if_pos rfl, hw]
    rcases hres with ⟨rfl, h1⟩ | ⟨i, h1, h2, rfl, h3, h4, h5⟩
    · obtain ⟨r, h2, h3⟩ := ih (fun b' h => hb b' (Nat.lt_succ_of_lt h))
      refine ⟨r, h2, Nat.le_trans h3.le (by omega), h3.hit, fun i h4 h5 h6 => ?_⟩
      by_cases h7 : i ≤ iZero b
      · exact h3.later i h4 (by omega) h6
      · have h8 := h1 (i - iZero b) (by omega) (by omega) (by omega)
        rw [← hpg _ (by omega) (by omega), Nat.add_sub_cancel' (by omega)] at h8
        exact h8 h6
    · refine ⟨iZero b + i, ?_, by omega, fun _ => (hpg i h1 h2).trans h4, fun j h6 h7 h8 => ?_⟩
      · show searchBlocks wi iLast P b (iZero b + i) = _
        cases b with
        | zero => rfl
        | succ b => exact if_neg (by omega)
      · have h9 := h5 (j - iZero b) (by omega) (by omega) (by omega)
        rw [← hpg _ (by omega) (by omega), Nat.add_sub_cancel' (by omega)] at h9
        exact h9 h8

theorem sqlite3WalReadFrame_spec (hc : Covers wi top) {iLast : ℕ} (hL : iLast ≤ top)
    {readLock : Int} (hr : readLock ≠ 0) :
    ∃ r, sqlite3WalReadFrame wi readLock iLast P = .ok r ∧
      IsLastFrame (walFramePgno wi) P iLast r := by
  unfold sqlite3WalReadFrame
  rcases Nat.eq_zero_or_pos iLast with rfl | h0
  · exact ⟨0, if_pos (Or.inl rfl), Nat.le_refl 0, fun h => absurd h (Nat.lt_irrefl 0),
      fun i h1 h2 => by omega⟩
  · rw [if_neg (fun h => h.elim (Nat.ne_of_gt h0) hr)]
    obtain ⟨h1, h2⟩ := walFramePage_spec h0
    obtain ⟨r, h3, h4⟩ := searchBlocks_spec (P := P) (k := walFramePage iLast + 1) hc hL
      (fun b hb => Nat.lt_of_le_of_lt (iZero_le (Nat.le_of_lt_succ hb)) h1)
    rw [Nat.min_eq_left h2] at h4
    exact ⟨r, h3, h4⟩

end Search

end Sqlite.Wal

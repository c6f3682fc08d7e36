import Sqlite.Foundation.Counter
import Sqlite.Wal.IterMerge

/-! The bottom-up merge sort in place: the sublist of level `k` has the entries of `2 ^ k` frames,
and the levels in use are the bits of the number of frames sorted so far. -/
namespace Sqlite.Wal

open Foundation

variable {c : ℕ → ℕ} {mem mem' : Slots} {a b m n i k : ℕ} {p q : Sublist}
  {aSub : ℕ → Option Sublist}

theorem readSlots_writeSlots (mem : Slots) (a : ℕ) (l : List ℕ) :
    readSlots (writeSlots mem a l) a l.length = l := by
  apply List.ext_getElem
  · simp [readSlots]
  · intro i h h'
    simp [readSlots, writeSlots, h']

theorem readSlots_congr (h : ∀ x, a ≤ x → x < a + n → mem' x = mem x) :
    readSlots mem' a n = readSlots mem a n := by
  unfold readSlots
  apply List.map_congr_left
  intro i hi
  exact h (a + i) (by omega) (by simpa using hi)

theorem length_readSlots (mem : Slots) (a n : ℕ) : (readSlots mem a n).length = n := by
  simp [readSlots]

/-- A sublist that has the entries of the frames from `a` to `b`. -/
structure Holds (c : ℕ → ℕ) (mem : Slots) (p : Sublist) (a b : ℕ) : Prop where
  aList : p.aList = a
  pos : 0 < p.nList
  entries : IsIndex c a b (readSlots mem p.aList p.nList)

theorem Holds.nList_le (h : Holds c mem p a b) : p.nList ≤ b - a := by
  have hle := h.entries.length_le
  rwa [length_readSlots] at hle

theorem Holds.congr (h : Holds c mem p a b) (hmem : ∀ x, a ≤ x → x < b → mem' x = mem x) :
    Holds c mem' p a b := by
  have hle := h.nList_le
  have hpos := h.pos
  have haList := h.aList
  refine ⟨h.aList, h.pos, ?_⟩
  have hread : readSlots mem' p.aList p.nList = readSlots mem p.aList p.nList :=
    readSlots_congr fun x hx hx' => hmem x (by omega) (by omega)
  rw [hread]
  exact h.entries

theorem walMerge_spec (hp : Holds c mem p a m) (hq : Holds c mem q m b) (ham : a ≤ m) (hmb : m < b) :
    ∃ mem' r, walMerge c mem p q = some (mem', r) ∧ Holds c mem' r a b ∧
      ∀ x, x < a ∨ b ≤ x → mem' x = mem x := by
  obtain ⟨out, hout, hidx⟩ := hp.entries.merge hq.entries ham hmb.le
  rw [length_readSlots, length_readSlots] at hout
  have hle := hidx.length_le
  have haList := hp.aList
  refine ⟨writeSlots mem p.aList out, ⟨out.length, p.aList⟩, ?_, ⟨haList, ?_, ?_⟩, ?_⟩
  · rw [walMerge, if_pos ⟨hp.pos, hq.pos⟩, hout]
    simp
  · exact hidx.nonempty (by omega)
  · rw [readSlots_writeSlots]
    exact hidx
  · intro x hx
    rw [writeSlots, if_neg (by omega)]

/-- The levels from `i` on that are in use have their entries. -/
def Levels (c : ℕ → ℕ) (mem : Slots) (aSub : ℕ → Option Sublist) (n i : ℕ) : Prop :=
  ∀ k, i ≤ k → n.testBit k → ∃ p, aSub k = some p ∧
    Holds c mem p ((n / 2 ^ k - 1) * 2 ^ k) (n / 2 ^ k * 2 ^ k)

/-- Merging a level with what comes behind it. -/
theorem Levels.merge (h : Levels c mem aSub n i) (hbit : n.testBit i) (hq : Holds c mem q
    (n / 2 ^ i * 2 ^ i) b) (hb : n / 2 ^ i * 2 ^ i < b) :
    ∃ p, aSub i = some p ∧ p.nList ≤ 2 ^ i ∧ p.aList = n / 2 ^ (i + 1) * 2 ^ (i + 1) ∧
      ∃ mem' r, walMerge c mem p q = some (mem', r) ∧
        Holds c mem' r (n / 2 ^ (i + 1) * 2 ^ (i + 1)) b ∧ Levels c mem' aSub n (i + 1) ∧
          ∀ x, b ≤ x → mem' x = mem x := by
  obtain ⟨p, hp, hholds⟩ := h i le_rfl hbit
  have hodd := (testBit_iff n i).mp hbit
  have hbase := div_mul_succ_of_bit hodd
  have hpow := Nat.two_pow_pos i
  have hsub : (n / 2 ^ i - 1) * 2 ^ i + 2 ^ i = n / 2 ^ i * 2 ^ i := by
    rw [← Nat.succ_mul, Nat.succ_eq_add_one, ← pred_succ_of_odd hodd]
  have hlen : p.nList ≤ 2 ^ i := by
    have hle := hholds.nList_le
    rwa [← hsub, Nat.add_sub_cancel_left] at hle
  have hle : (n / 2 ^ i - 1) * 2 ^ i ≤ n / 2 ^ i * 2 ^ i := Nat.mul_le_mul_right _ (Nat.sub_le _ _)
  obtain ⟨mem', r, hmerge, hr, hframe⟩ := walMerge_spec hholds hq hle hb
  refine ⟨p, hp, hlen, by rw [hbase, hholds.aList], mem', r, hmerge, by rwa [hbase], ?_,
    fun x hx => hframe x (Or.inr hx)⟩
  intro k hk hkbit
  obtain ⟨s, hs, hsub⟩ := h k (by omega) hkbit
  have hle := div_mul_antitone n hk
  exact ⟨s, hs, hsub.congr fun x _ hx => hframe x (Or.inl (by omega))⟩

theorem carryLoop_spec {d : ℕ} (hlevels : Levels c mem aSub n i)
    (hq : Holds c mem q (n / 2 ^ i * 2 ^ i) (n + 1)) (hlow : n % 2 ^ i = 2 ^ i - 1)
    (hn : n + 1 < 2 ^ (i + d)) :
    ∃ j mem' r, carryLoop c n aSub d i mem q = some (j, mem', r) ∧ ¬ n.testBit j ∧
      n % 2 ^ j = 2 ^ j - 1 ∧ j < i + d ∧ Holds c mem' r (n / 2 ^ j * 2 ^ j) (n + 1) ∧
        Levels c mem' aSub n j ∧ ∀ x, n + 1 ≤ x → mem' x = mem x := by
  induction d generalizing i mem q with
  | zero =>
    have hmod := Nat.mod_le n (2 ^ i)
    have hpow := Nat.two_pow_pos i
    rw [add_zero] at hn
    omega
  | succ d ih =>
    rw [carryLoop]
    by_cases hbit : n.testBit i
    · have hlt : n / 2 ^ i * 2 ^ i < n + 1 := Nat.lt_succ_of_le (Nat.div_mul_le_self _ _)
      obtain ⟨p, hp, hlen, hbase, mem', r, hmerge, hr, hlevels', hframe⟩ :=
        hlevels.merge hbit hq hlt
      have hlow' := low_ones_succ hlow hbit
      obtain ⟨j, mem'', r', hloop, hj, hjlow, hjd, hjr, hjlevels, hjframe⟩ :=
        ih hlevels' hr hlow' (by rwa [Nat.add_assoc, Nat.add_comm 1])
      refine ⟨j, mem'', r', ?_, hj, hjlow, by omega, hjr, hjlevels, ?_⟩
      · rw [if_pos hbit, hp]
        dsimp only
        rw [if_pos ⟨hlen, hbase⟩, hmerge]
        exact hloop
      · intro x hx
        rw [hjframe x hx, hframe x hx]
    · rw [if_neg hbit]
      exact ⟨i, mem, q, rfl, hbit, hlow, by omega, hq, hlevels, fun _ _ => rfl⟩

/-- The state after the first `n` entries: the levels are the bits of `n`, and `aMerge` is the
lowest of them. -/
structure SortInv (c : ℕ → ℕ) (n : ℕ) (s : SortState) : Prop where
  levels : Levels c s.mem s.aSub n 0
  rest : ∀ x, n ≤ x → s.mem x = x
  merged : 0 < n → n.testBit s.iSub ∧ n % 2 ^ s.iSub = 0 ∧ s.aSub s.iSub = some s.aMerge ∧ s.iSub < nSub

theorem sortLoop_spec (hn : n ≤ HASHTABLE_NPAGE) :
    ∃ s, sortLoop c (fun j => j) n = some s ∧ SortInv c n s := by
  induction n with
  | zero =>
    refine ⟨_, rfl, fun k _ hk => ?_, fun _ _ => rfl, fun h => absurd h (lt_irrefl 0)⟩
    simp at hk
  | succ n ih =>
    obtain ⟨s, hs, hinv⟩ := ih (by omega)
    have hsingle : Holds c s.mem ⟨1, n⟩ (n / 2 ^ 0 * 2 ^ 0) (n + 1) := by
      refine ⟨by simp, by simp, ?_⟩
      have hread : readSlots s.mem n 1 = [n] := by simp [readSlots, hinv.rest n le_rfl]
      rw [hread]
      simpa using isIndex_singleton c n
    have hbound : n + 1 < 2 ^ (0 + nSub) := lt_of_le_of_lt hn (by decide)
    obtain ⟨j, mem', r, hloop, hj, hlow, hjd, hr, hlevels, hframe⟩ :=
      carryLoop_spec hinv.levels hsingle (by simp [Nat.mod_one]) hbound
    obtain ⟨hmod, hdiv, hhigh⟩ := succ_div hlow hj
    obtain ⟨hclear, hset, -⟩ := testBit_succ hlow hj
    have hend : (n + 1) / 2 ^ j * 2 ^ j = n + 1 := by
      have hsplit := Nat.div_add_mod (n + 1) (2 ^ j)
      rw [mul_comm]
      omega
    refine ⟨_, by rw [sortLoop, hs, Option.bind_some, hloop, Option.map_some], ?_, ?_, ?_⟩
    · intro k _ hk
      dsimp only
      rcases lt_trichotomy k j with hkj | rfl | hkj
      · exact absurd hk (hclear k hkj)
      · refine ⟨r, by simp, ?_⟩
        rw [hend, hdiv, Nat.add_sub_cancel]
        exact hr
      · have hkbit := (testBit_iff _ _).mp hk
        rw [hhigh k hkj] at hkbit ⊢
        rw [Function.update_of_ne hkj.ne']
        exact hlevels k hkj.le ((testBit_iff _ _).mpr hkbit)
    · intro x hx
      exact (hframe x hx).trans (hinv.rest x (Nat.le_of_succ_le hx))
    · intro _
      exact ⟨hset, hmod, by simp, by simpa using hjd⟩

theorem foldLoop_spec {d : ℕ} (hlevels : Levels c mem aSub n i)
    (hq : Holds c mem q (n / 2 ^ i * 2 ^ i) n) (hlt : n / 2 ^ i * 2 ^ i < n) :
    ∃ mem' r, foldLoop c n aSub d i mem q = some (mem', r) ∧
      Holds c mem' r (n / 2 ^ (i + d) * 2 ^ (i + d)) n := by
  induction d generalizing i mem q with
  | zero => exact ⟨mem, q, rfl, by simpa using hq⟩
  | succ d ih =>
    have hexp : i + (d + 1) = i + 1 + d := by omega
    rw [foldLoop, hexp]
    have hle := div_mul_antitone n (Nat.le_succ i)
    by_cases hbit : n.testBit i
    · obtain ⟨p, hp, hlen, hbase, mem', r, hmerge, hr, hlevels', -⟩ := hlevels.merge hbit hq hlt
      obtain ⟨mem'', r', hloop, hholds⟩ := ih hlevels' hr (lt_of_le_of_lt hle hlt)
      refine ⟨mem'', r', ?_, hholds⟩
      rw [if_pos hbit, hp]
      dsimp only
      rw [if_pos ⟨hlen, hbase⟩, hmerge]
      exact hloop
    · have hbase := div_mul_succ_of_not_bit (fun h => hbit ((testBit_iff n i).mpr h))
      rw [if_neg hbit]
      apply ih (fun k hk => hlevels k (by omega))
      · rw [hbase]
        exact hq
      · exact lt_of_le_of_lt hle hlt

/-- The sort leaves the last frame of each page, in the order of the pages. -/
theorem walMergesort_spec (c : ℕ → ℕ) (h0 : 0 < n) (hn : n ≤ HASHTABLE_NPAGE) :
    ∃ mem k, walMergesort c (fun j => j) n = some (mem, k) ∧ IsIndex c 0 n (readSlots mem 0 k) := by
  obtain ⟨s, hs, hinv⟩ := sortLoop_spec (c := c) hn
  obtain ⟨hbit, hmod, hsub, hlt⟩ := hinv.merged h0
  obtain ⟨p, hp, hholds⟩ := hinv.levels s.iSub (Nat.zero_le _) hbit
  have hpm : p = s.aMerge := Option.some.inj (hp.symm.trans hsub)
  rw [hpm] at hholds
  have hodd := (testBit_iff n s.iSub).mp hbit
  have hend : n / 2 ^ s.iSub * 2 ^ s.iSub = n := Nat.div_mul_cancel (Nat.dvd_of_mod_eq_zero hmod)
  have hbase := div_mul_succ_of_bit hodd
  rw [hend, ← hbase] at hholds
  have hpos : n / 2 ^ (s.iSub + 1) * 2 ^ (s.iSub + 1) < n := by
    rw [hbase]
    calc (n / 2 ^ s.iSub - 1) * 2 ^ s.iSub < n / 2 ^ s.iSub * 2 ^ s.iSub :=
          Nat.mul_lt_mul_of_pos_right (Nat.sub_lt (by rw [pred_succ_of_odd hodd]; exact Nat.succ_pos _)
            Nat.one_pos) (Nat.two_pow_pos _)
      _ = n := hend
  obtain ⟨mem, r, hloop, hr⟩ := foldLoop_spec (d := nSub - (s.iSub + 1))
    (fun k hk => hinv.levels k (Nat.zero_le k)) hholds hpos
  have hall : s.iSub + 1 + (nSub - (s.iSub + 1)) = nSub := Nat.add_sub_cancel' hlt
  have hzero : n / 2 ^ nSub = 0 := Nat.div_eq_of_lt (lt_of_le_of_lt hn (by decide))
  rw [hall, hzero, Nat.zero_mul] at hr
  refine ⟨mem, r.nList, ?_, ?_⟩
  · rw [walMergesort, if_pos ⟨hn, h0⟩, hs, Option.bind_some, hloop, Option.bind_some,
      if_pos hr.aList]
  · have hidx := hr.entries
    rwa [hr.aList] at hidx

end Sqlite.Wal

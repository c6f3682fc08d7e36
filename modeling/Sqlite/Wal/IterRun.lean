import Mathlib.Data.Finset.Card
import Mathlib.Data.Finset.Image
import Sqlite.Wal.IterSort

/-! The merge of the sorted segments: each call of `walIteratorNext` passes to the next page of
the log, with the last frame that holds it. -/
namespace Sqlite.Wal

variable {pg : ℕ → ℕ} {iMin iMin' lo mid hi n : ℕ} {s : WalSegment} {segments : List WalSegment}

/-- A segment for the frames after `lo` up to `hi`; the entries passed are for pages up to `iMin`. -/
structure SegmentGood (pg : ℕ → ℕ) (iMin lo hi : ℕ) (s : WalSegment) : Prop where
  iZero : s.iZero = lo + 1
  pages : ∀ j, j < hi - lo → s.aPgno j = pg (lo + 1 + j)
  entries : IsIndex s.aPgno 0 (hi - lo) (readSlots s.aIndex 0 s.nEntry)
  passed : ∀ i, i < s.iNext → i < s.nEntry → s.page i ≤ iMin

theorem SegmentGood.mono (h : SegmentGood pg iMin lo hi s) (hle : iMin ≤ iMin') :
    SegmentGood pg iMin' lo hi s :=
  { h with passed := fun i hi hn => (h.passed i hi hn).trans hle }

theorem mem_readSlots {mem : Slots} {x : ℕ} :
    x ∈ readSlots mem 0 n ↔ ∃ i, i < n ∧ mem i = x := by
  simp [readSlots]

/-- An entry is the last frame of the segment that holds its page. -/
theorem SegmentGood.entry (h : SegmentGood pg iMin lo hi s) {i : ℕ} (hi' : i < s.nEntry) :
    lo < s.iZero + s.aIndex i ∧ IsLastFrame pg (s.page i) hi (s.iZero + s.aIndex i) := by
  have hmem : s.aIndex i ∈ readSlots s.aIndex 0 s.nEntry := mem_readSlots.mpr ⟨i, hi', rfl⟩
  obtain ⟨-, hlt, hlast⟩ := (h.entries.mem _).mp hmem
  have hz := h.iZero
  refine ⟨by omega, by omega, fun _ => ?_, fun f hf hfhi heq => ?_⟩
  · rw [hz]
    exact (h.pages _ hlt).symm
  · have hj : lo + 1 + (f - (lo + 1)) = f := by omega
    have hpage := h.pages (f - (lo + 1)) (by omega)
    rw [hj, heq] at hpage
    exact hlast _ (by omega) (by omega) hpage

theorem SegmentGood.page_mono (h : SegmentGood pg iMin lo hi s) {i j : ℕ} (hij : i ≤ j)
    (hj : j < s.nEntry) : s.page i ≤ s.page j := by
  rcases hij.eq_or_lt with rfl | hij
  · exact le_rfl
  · have hinc := List.pairwise_iff_getElem.mp h.entries.increasing i j
      (by rw [length_readSlots]; omega) (by rw [length_readSlots]; omega) hij
    simpa [readSlots, WalSegment.page] using hinc.le

/-- The page of each frame after `iMin` has an entry that is still to come. -/
theorem SegmentGood.pending (h : SegmentGood pg iMin lo hi s) {f : ℕ} (hlo : lo < f) (hhi : f ≤ hi)
    (hf : iMin < pg f) : s.iNext < s.nEntry ∧ s.page s.iNext ≤ pg f := by
  obtain ⟨z, hz, -, hpage⟩ := h.entries.covers (Nat.zero_le (f - (lo + 1)))
    (by omega : f - (lo + 1) < hi - lo)
  obtain ⟨i, hi', rfl⟩ := mem_readSlots.mp hz
  have hj : lo + 1 + (f - (lo + 1)) = f := by omega
  have hpg : s.page i = pg f := by
    rw [h.pages (f - (lo + 1)) (by omega), hj] at hpage
    exact hpage
  have hle : s.iNext ≤ i := by
    by_contra hlt
    have hpassed := h.passed i (not_le.mp hlt) hi'
    omega
  exact ⟨lt_of_le_of_lt hle hi', hpg ▸ h.page_mono hle hi'⟩

theorem skipEntries_spec (h : SegmentGood pg iMin lo hi s) (hn : s.nEntry - s.iNext ≤ n) :
    SegmentGood pg iMin lo hi (skipEntries iMin n s) ∧
      ((skipEntries iMin n s).iNext < (skipEntries iMin n s).nEntry →
        iMin < (skipEntries iMin n s).page (skipEntries iMin n s).iNext) := by
  induction n generalizing s with
  | zero => exact ⟨h, fun hlt => by rw [skipEntries] at hlt; omega⟩
  | succ n ih =>
    rw [skipEntries]
    split_ifs with hcond
    · apply ih
      · refine ⟨h.iZero, h.pages, h.entries, fun i hi hn => ?_⟩
        rcases Nat.lt_succ_iff_lt_or_eq.mp hi with hi | rfl
        · exact h.passed i hi hn
        · exact hcond.2
      · dsimp only
        omega
    · exact ⟨h, fun hlt => not_le.mp fun hle => hcond ⟨hlt, hle⟩⟩

/-- Segments for adjacent ranges of frames, from `lo` to `hi`. -/
def Segments (pg : ℕ → ℕ) (iMin : ℕ) : ℕ → List WalSegment → ℕ → Prop
  | lo, [], hi => lo = hi
  | lo, s :: segments, hi => ∃ mid, lo ≤ mid ∧ mid ≤ hi ∧ SegmentGood pg iMin lo mid s ∧
      Segments pg iMin mid segments hi

theorem Segments.mono (h : Segments pg iMin lo segments hi) (hle : iMin ≤ iMin') :
    Segments pg iMin' lo segments hi := by
  induction segments generalizing lo with
  | nil => exact h
  | cons s segments ih =>
    obtain ⟨mid, hlo, hhi, hs, hrest⟩ := h
    exact ⟨mid, hlo, hhi, hs.mono hle, ih hrest⟩

/-- The least page after `iMin` of the frames after `lo` up to `hi`, and its last frame. -/
structure NextPage (pg : ℕ → ℕ) (iMin lo hi : ℕ) (r : ℕ × ℕ) : Prop where
  le : r.1 ≤ 0xFFFFFFFF
  least : ∀ f, lo < f → f ≤ hi → iMin < pg f → r.1 ≤ pg f
  found : r.1 < 0xFFFFFFFF → iMin < r.1 ∧ lo < r.2 ∧ IsLastFrame pg r.1 hi r.2

theorem NextPage.take {r : ℕ × ℕ} (h : NextPage pg iMin mid hi r) (hs : SegmentGood pg iMin lo mid s)
    (hhi : mid ≤ hi) (hi' : s.iNext < s.nEntry) (hmin : iMin < s.page s.iNext)
    (hlt : s.page s.iNext < r.1) :
    NextPage pg iMin lo hi (s.page s.iNext, s.iZero + s.aIndex s.iNext) := by
  obtain ⟨hgt, hlast⟩ := hs.entry hi'
  have hle := h.le
  refine ⟨by dsimp only; omega, fun f hf hfhi hfmin => ?_, fun _ => ⟨hmin, hgt, ?_⟩⟩
  · by_cases hfm : f ≤ mid
    · exact (hs.pending hf hfm hfmin).2
    · exact (lt_of_lt_of_le hlt (h.least f (not_le.mp hfm) hfhi hfmin)).le
  · refine ⟨hlast.le.trans hhi, hlast.hit, fun f hf hfhi heq => ?_⟩
    by_cases hfm : f ≤ mid
    · exact hlast.later f hf hfm heq
    · have hleast := h.least f (not_le.mp hfm) hfhi (by rw [heq]; exact hmin)
      dsimp only at heq
      omega

theorem NextPage.keep {r : ℕ × ℕ} (h : NextPage pg iMin mid hi r) (hs : SegmentGood pg iMin lo mid s)
    (hlo : lo ≤ mid) (hge : ¬(s.iNext < s.nEntry ∧ s.page s.iNext < r.1)) :
    NextPage pg iMin lo hi r := by
  refine ⟨h.le, fun f hf hfhi hfmin => ?_, fun hlt => ?_⟩
  · by_cases hfm : f ≤ mid
    · obtain ⟨hpending, hle⟩ := hs.pending hf hfm hfmin
      exact (not_lt.mp fun hlt => hge ⟨hpending, hlt⟩).trans hle
    · exact h.least f (not_le.mp hfm) hfhi hfmin
  · obtain ⟨hmin, hmid, hlast⟩ := h.found hlt
    exact ⟨hmin, lt_of_le_of_lt hlo hmid, hlast⟩

theorem nextLoop_spec (h : Segments pg iMin lo segments hi) :
    Segments pg iMin lo (nextLoop iMin segments).1 hi ∧
      NextPage pg iMin lo hi (nextLoop iMin segments).2 := by
  induction segments generalizing lo with
  | nil =>
    have heq : lo = hi := h
    exact ⟨h, le_rfl, fun f hf hfhi _ => by omega, fun hlt => absurd hlt (lt_irrefl _)⟩
  | cons s segments ih =>
    obtain ⟨mid, hlo, hhi, hs, hrest⟩ := h
    obtain ⟨hsegs, hnext⟩ := ih hrest
    obtain ⟨hskip, hmin⟩ := skipEntries_spec hs le_rfl
    rw [nextLoop]
    split_ifs with hcond
    · exact ⟨⟨mid, hlo, hhi, hskip, hsegs⟩, hnext.take hskip hhi hcond.1 (hmin hcond.1) hcond.2⟩
    · exact ⟨⟨mid, hlo, hhi, hskip, hsegs⟩, hnext.keep hskip hlo hcond⟩

/-- The pages of the log after `iMin`. -/
def pagesAfter (pg : ℕ → ℕ) (iLast iMin : ℕ) : Finset ℕ :=
  ((Finset.Icc 1 iLast).image pg).filter (iMin < ·)

theorem mem_pagesAfter {iLast x : ℕ} :
    x ∈ pagesAfter pg iLast iMin ↔ (∃ f, 0 < f ∧ f ≤ iLast ∧ pg f = x) ∧ iMin < x := by
  simp [pagesAfter, Nat.succ_le_iff, and_assoc]

/-- What the calls return: the pages in increasing order, each with its last frame. -/
structure Iterated (pg : ℕ → ℕ) (iLast iMin : ℕ) (out : List (ℕ × ℕ)) : Prop where
  increasing : out.Pairwise fun a b => a.1 < b.1
  mem : ∀ pgno iFrame, (pgno, iFrame) ∈ out ↔
    iMin < pgno ∧ 0 < iFrame ∧ IsLastFrame pg pgno iLast iFrame

theorem walIteratorAll_spec {iLast : ℕ} {p : WalIterator} (h : Segments pg p.iPrior 0 p.aSegment iLast)
    (hpg : ∀ f, 0 < f → f ≤ iLast → pg f < 0xFFFFFFFF) (hprior : p.iPrior < 0xFFFFFFFF)
    (hn : (pagesAfter pg iLast p.iPrior).card < n) :
    ∃ out, walIteratorAll n p = some out ∧ Iterated pg iLast p.iPrior out := by
  induction n generalizing p with
  | zero => omega
  | succ n ih =>
    obtain ⟨hsegs, hnext⟩ := nextLoop_spec h
    rw [walIteratorAll, walIteratorNext, if_pos hprior]
    dsimp only [Option.bind_some]
    generalize nextLoop p.iPrior p.aSegment = r at hsegs hnext ⊢
    have hleast := hnext.least
    by_cases hend : r.2.1 = 0xFFFFFFFF
    · refine ⟨[], by simp [hend], by simp, fun pgno iFrame => ?_⟩
      simp only [List.not_mem_nil, false_iff]
      rintro ⟨hmin, h0, hlast⟩
      have hhit := hlast.hit h0
      have hge := hleast iFrame h0 hlast.le (hhit ▸ hmin)
      have hlt := hpg iFrame h0 hlast.le
      omega
    · have hlt : r.2.1 < 0xFFFFFFFF := lt_of_le_of_ne hnext.le hend
      obtain ⟨hmin, h0, hlast⟩ := hnext.found hlt
      have hsub : pagesAfter pg iLast r.2.1 ⊂ pagesAfter pg iLast p.iPrior := by
        apply Finset.ssubset_iff_of_subset _ |>.mpr
        · exact ⟨r.2.1, mem_pagesAfter.mpr ⟨⟨r.2.2, h0, hlast.le, hlast.hit h0⟩, hmin⟩,
            fun hmem => lt_irrefl _ (mem_pagesAfter.mp hmem).2⟩
        · intro x hx
          have hx' := mem_pagesAfter.mp hx
          exact mem_pagesAfter.mpr ⟨hx'.1, hmin.trans hx'.2⟩
      have hcard := Finset.card_lt_card hsub
      obtain ⟨out, hout, hiter⟩ := ih (p := { iPrior := r.2.1, aSegment := r.1 })
        (hsegs.mono hmin.le) hlt (by dsimp only; omega)
      refine ⟨(r.2.1, r.2.2) :: out, by simp [hend, hout], ?_, fun pgno iFrame => ?_⟩
      · apply List.pairwise_cons.mpr ⟨fun b hb => ?_, hiter.increasing⟩
        exact ((hiter.mem b.1 b.2).mp hb).1
      · rw [List.mem_cons, hiter.mem, Prod.mk.injEq]
        dsimp only
        constructor
        · rintro (⟨rfl, rfl⟩ | ⟨hgt, hpos, hframe⟩)
          · exact ⟨hmin, h0, hlast⟩
          · exact ⟨hmin.trans hgt, hpos, hframe⟩
        · rintro ⟨hgt, hpos, hframe⟩
          have hhit := hframe.hit hpos
          have hge := hleast iFrame hpos hframe.le (hhit ▸ hgt)
          rw [hhit] at hge
          rcases hge.eq_or_lt with rfl | hge
          · exact Or.inl ⟨rfl, hframe.unique hlast⟩
          · exact Or.inr ⟨hge, hpos, hframe⟩

section Init
variable (wi : WalIndex) {iLast b : ℕ}

theorem initSegment_spec (h0 : 0 < iLast) (hb : b ≤ walFramePage iLast) :
    ∃ s, initSegment wi iLast (walFramePage iLast + 1) b = some s ∧
      SegmentGood (walFramePgno wi) 0 (min (iZero b) iLast) (min (iZero (b + 1)) iLast) s := by
  obtain ⟨hlo, hhi⟩ := walFramePage_spec h0
  have hble := iZero_le hb
  have hmono := iZero_mono b
  have hwords := hdrWords_add b
  have hcap := iZero_succ_le b
  have hn : (if b + 1 = walFramePage iLast + 1 then iLast - iZero b
      else HASHTABLE_NPAGE - hdrWords b) = min (iZero (b + 1)) iLast - iZero b := by
    split_ifs with heq
    · rw [heq, min_eq_right hhi]
    · have hle := iZero_le (by omega : b + 1 ≤ walFramePage iLast)
      rw [min_eq_left (by omega), show HASHTABLE_NPAGE = 4096 from rfl]
      omega
  have hcap' : min (iZero (b + 1)) iLast - iZero b ≤ HASHTABLE_NPAGE := by
    rw [show HASHTABLE_NPAGE = 4096 from rfl]
    omega
  obtain ⟨mem, k, hsort, hidx⟩ := walMergesort_spec (fun j => aPgno wi b (j + 1))
    (by omega : 0 < min (iZero (b + 1)) iLast - iZero b) hcap'
  rw [min_eq_left (by omega : iZero b ≤ iLast)]
  refine ⟨_, by rw [initSegment, hn, hsort, Option.map_some], rfl, fun j hj => ?_, hidx,
    fun i hi => absurd hi (Nat.not_lt_zero i)⟩
  have hentry : iZero b + 1 + j - iZero b = j + 1 := by omega
  rw [walFramePgno_eq (by omega : iZero b < iZero b + 1 + j) (by omega), hentry]

theorem initSegments_spec (h0 : 0 < iLast) (hb : b + n = walFramePage iLast + 1) :
    ∃ segments, (List.range' b n).mapM (initSegment wi iLast (walFramePage iLast + 1)) =
        some segments ∧
      Segments (walFramePgno wi) 0 (min (iZero b) iLast) segments iLast := by
  induction n generalizing b with
  | zero =>
    obtain ⟨-, hhi⟩ := walFramePage_spec h0
    rw [← hb] at hhi
    exact ⟨[], by simp, min_eq_right hhi⟩
  | succ n ih =>
    obtain ⟨s, hs, hgood⟩ := initSegment_spec wi h0 (by omega : b ≤ walFramePage iLast)
    obtain ⟨segments, hsegs, hrest⟩ := ih (b := b + 1) (by omega)
    refine ⟨s :: segments, ?_, min (iZero (b + 1)) iLast, ?_, Nat.min_le_right _ _, hgood, hrest⟩
    · simp [List.range'_succ, hs, hsegs]
    · exact min_le_min_right iLast (iZero_mono b).le

end Init

/-- For a log with valid page numbers, neither 0 nor 0xFFFFFFFF, the iterator returns each page once,
in increasing order, with the last frame that holds it, and then reports the end. -/
theorem walIterator_spec (wi : WalIndex) {iLast : ℕ} (h0 : 0 < iLast)
    (hpg : ∀ f, 0 < f → f ≤ iLast → 0 < walFramePgno wi f ∧ walFramePgno wi f < 0xFFFFFFFF) :
    ∃ p, walIteratorInit wi iLast = some p ∧ ∃ out, walIteratorAll (iLast + 1) p = some out ∧
      (out.Pairwise fun a b => a.1 < b.1) ∧ ∀ pgno iFrame, (pgno, iFrame) ∈ out ↔
        0 < iFrame ∧ IsLastFrame (walFramePgno wi) pgno iLast iFrame := by
  obtain ⟨segments, hinit, hsegs⟩ := initSegments_spec wi h0
    (Nat.zero_add (walFramePage iLast + 1))
  rw [← List.range_eq_range'] at hinit
  rw [iZero_zero, Nat.zero_min] at hsegs
  have hcard : (pagesAfter (walFramePgno wi) iLast 0).card < iLast + 1 := by
    apply Nat.lt_succ_of_le
    calc (pagesAfter (walFramePgno wi) iLast 0).card
        ≤ ((Finset.Icc 1 iLast).image (walFramePgno wi)).card := Finset.card_filter_le _ _
      _ ≤ (Finset.Icc 1 iLast).card := Finset.card_image_le
      _ = iLast := by simp
  obtain ⟨out, hout, hiter⟩ := walIteratorAll_spec (p := { iPrior := 0, aSegment := segments })
    hsegs (fun f hf hle => (hpg f hf hle).2) (by simp) hcard
  refine ⟨_, by rw [walIteratorInit, if_pos h0, hinit, Option.map_some], out, hout,
    hiter.increasing, fun pgno iFrame => ?_⟩
  rw [hiter.mem]
  constructor
  · exact fun h => h.2
  · intro h
    have hpos := (hpg iFrame h.1 h.2.le).1
    rw [h.2.hit h.1] at hpos
    exact ⟨hpos, h⟩

/-- Pages 2, 1 and 2 in three frames. -/
def threeFrames : WalIndex := fun _ => { word := fun j => if j = 35 then 1 else 2, aHash := fun _ => 0 }

theorem walIterator_spec_three :
    ∃ p, walIteratorInit threeFrames 3 = some p ∧ ∃ out, walIteratorAll (3 + 1) p = some out ∧
      (out.Pairwise fun a b => a.1 < b.1) ∧ ∀ pgno iFrame, (pgno, iFrame) ∈ out ↔
        0 < iFrame ∧ IsLastFrame (walFramePgno threeFrames) pgno 3 iFrame := by
  apply walIterator_spec threeFrames (by decide)
  intro f _ _
  unfold walFramePgno threeFrames
  split_ifs <;> dsimp only <;> split_ifs <;> simp

end Sqlite.Wal

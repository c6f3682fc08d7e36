import Sqlite.Pcache.Calls

/-! The calls that walk along the whole list of dirty pages. -/
namespace Sqlite.Pcache

open Foundation

variable {s s' t : PCache} {l r : List ℕ} {lost n : ℕ} {q : Option ℕ}

/-- Every page in turn is made clean. -/
theorem cleanAllLoop_spec (h : Inv s l lost) (hn : l.length ≤ n) :
    ∃ s', cleanAllLoop n s = some s' ∧ Inv s' [] lost := by
  induction l generalizing s n with
  | nil =>
    have hf : s.pDirty = none := h.first
    refine ⟨s, ?_, h⟩
    cases n <;> rw [cleanAllLoop, hf]
  | cons p l ih =>
    obtain ⟨n, rfl⟩ : ∃ n', n = n' + 1 := ⟨n - 1, by rw [List.length_cons] at hn; omega⟩
    have hf : s.pDirty = some p := h.first
    obtain ⟨t, h1, h2, -⟩ := h.makeClean (h.held p List.mem_cons_self)
    rw [List.erase_cons_head] at h2
    obtain ⟨s', g1, g2⟩ := ih h2 (Nat.le_of_succ_le_succ hn)
    refine ⟨s', ?_, g2⟩
    rw [cleanAllLoop, hf]
    dsimp only
    rw [h1]
    exact g1

theorem Inv.cleanAll (h : Inv s l lost) :
    ∃ s', sqlite3PcacheCleanAll s = some s' ∧ Inv s' [] lost :=
  cleanAllLoop_spec h h.length_le

section Sync

/-- The header without `PGHDR_NEED_SYNC`. -/
def synced (h : PgHdr) : PgHdr := { h with needSync := false }

theorem clearSyncLoop_spec (hc : Chain s.pDirtyNext q r) (hn : r.length ≤ n) :
    clearSyncLoop n q s =
      some { s with pg := fun z => if z ∈ r then synced (s.pg z) else s.pg z } := by
  induction r generalizing s q n with
  | nil =>
    obtain rfl := hc
    cases n <;> rfl
  | cons p r ih =>
    obtain ⟨rfl, hc'⟩ := hc
    obtain ⟨n, rfl⟩ : ∃ n', n = n' + 1 := ⟨n - 1, by rw [List.length_cons] at hn; omega⟩
    have hc2 : Chain (setPg s p (synced (s.pg p))).pDirtyNext (s.pDirtyNext p) r := hc'
    have hrest := ih hc2 (Nat.le_of_succ_le_succ hn)
    have hpg : (fun z => if z ∈ r then synced ((setPg s p (synced (s.pg p))).pg z)
        else (setPg s p (synced (s.pg p))).pg z) =
        fun z => if z ∈ p :: r then synced (s.pg z) else s.pg z := by
      funext z
      by_cases hz : z = p
      · rw [hz, setPg_self, if_pos List.mem_cons_self]
        split <;> rfl
      · rw [setPg_of_ne s _ hz]
        by_cases hzr : z ∈ r
        · rw [if_pos hzr, if_pos (List.mem_cons_of_mem _ hzr)]
        · rw [if_neg hzr, if_neg (fun hc => hzr ((List.mem_cons.mp hc).resolve_left hz))]
    rw [hpg] at hrest
    exact hrest

/-- The pages do not depend on the flag `PGHDR_NEED_SYNC`. -/
theorem Pages.clearSync (h : Pages s l lost) (r : List ℕ) :
    Pages { s with pg := fun z => if z ∈ r then synced (s.pg z) else s.pg z } l lost := by
  have hsame : ∀ z, (if z ∈ r then synced (s.pg z) else s.pg z).dirty = (s.pg z).dirty ∧
      (if z ∈ r then synced (s.pg z) else s.pg z).nRef = (s.pg z).nRef ∧
      (if z ∈ r then synced (s.pg z) else s.pg z).pPage = (s.pg z).pPage ∧
      (if z ∈ r then synced (s.pg z) else s.pg z).pgno = (s.pg z).pgno := by
    intro z
    split <;> exact ⟨rfl, rfl, rfl, rfl⟩
  have huse : ∀ z, inUse (if z ∈ r then synced (s.pg z) else s.pg z) ↔ inUse (s.pg z) := by
    intro z
    unfold inUse
    rw [(hsame z).1, (hsame z).2.1]
  constructor
  · intro p hp
    rw [(hsame p).1]
    exact h.dirty p hp
  · simp only [hsame]
    exact h.refs
  · intro p hp
    rw [(hsame p).2.1]
    exact h.range p hp
  · exact h.pinned
  · exact fun p hp hu => h.pin p hp ((huse p).mp hu)
  · exact fun hb p hp => (huse p).mpr (h.unpin hb p hp)
  · intro p hp
    rw [(hsame p).2.2.1]
    exact h.init p hp
  · intro p hp
    rw [(hsame p).2.2.2]
    exact h.key p hp
  · exact h.inj

theorem Inv.clearSyncFlags (h : Inv s l lost) :
    ∃ s', sqlite3PcacheClearSyncFlags s = some s' ∧ Inv s' l lost := by
  have hc := h.links.chain
  rw [← h.first] at hc
  unfold sqlite3PcacheClearSyncFlags
  rw [clearSyncLoop_spec hc h.length_le]
  refine ⟨_, rfl, h.toListed.congr rfl rfl rfl rfl rfl, ?_, ?_⟩
  · exact ⟨l, [], (List.append_nil l).symm, h.tail, nofun⟩
  · exact (h.pages.clearSync l).rest ⟨rfl, rfl, rfl, rfl, rfl, rfl, rfl⟩ (fun _ => Iff.rfl)

end Sync

section Truncate

/-- The loop makes the dirty pages above the limit clean and skips the others. -/
theorem truncateLoop_spec (done : List ℕ) (h : Inv s (done ++ r) lost) (hn : r.length ≤ n)
    (pgno : ℕ) :
    ∃ s' l', truncateLoop pgno n r.head? s = some s' ∧ Inv s' l' lost ∧
      (∀ p ∈ l', p ∈ done ∨ s.iKey p ≤ pgno) ∧ s'.held = s.held ∧ s'.iKey = s.iKey ∧
      ∀ p, (s'.pg p).nRef = (s.pg p).nRef := by
  induction r generalizing s done n with
  | nil =>
    rw [List.append_nil] at h
    exact ⟨s, done, by cases n <;> rfl, h, fun p hp => Or.inl hp, rfl, rfl, fun _ => rfl⟩
  | cons p r ih =>
    obtain ⟨n, rfl⟩ : ∃ n', n = n' + 1 := ⟨n - 1, by rw [List.length_cons] at hn; omega⟩
    have hmem : p ∈ done ++ p :: r := List.mem_append_right _ List.mem_cons_self
    have hheld := h.held p hmem
    have hnext : s.pDirtyNext p = r.head? := h.links.next_of_append
    rw [List.head?_cons, truncateLoop, hnext]
    by_cases hgt : pgno < (s.pg p).pgno
    · obtain ⟨t, h1, h2, h3, -, h5, h6⟩ := h.makeClean hheld
      have hpd : p ∉ done := fun hc =>
        (List.nodup_append.mp h.nodup).2.2 p hc p List.mem_cons_self rfl
      rw [List.erase_append_right _ hpd, List.erase_cons_head] at h2
      obtain ⟨s', l', g1, g2, g3, g4, g5, g6⟩ := ih _ h2 (Nat.le_of_succ_le_succ hn)
      rw [if_pos hgt, h1]
      refine ⟨s', l', g1, g2, ?_, g4.trans h3, g5.trans h5, fun q => (g6 q).trans (h6 q)⟩
      rw [← h5]
      exact g3
    · have hassoc : done ++ p :: r = (done ++ [p]) ++ r := by
        rw [List.append_assoc]
        rfl
      rw [hassoc] at h
      obtain ⟨s', l', g1, g2, g3, g4, g5, g6⟩ := ih _ h (Nat.le_of_succ_le_succ hn)
      rw [if_neg hgt]
      refine ⟨s', l', g1, g2, fun z hz => ?_, g4, g5, g6⟩
      rcases g3 z hz with hz | hz
      · rcases List.mem_append.mp hz with hz | hz
        · exact Or.inl hz
        · right
          rw [List.mem_singleton.mp hz, h.pages.key p hheld]
          omega
      · exact Or.inr hz

/-- The pages in the cache shrink to `kept`, which has all dirty pages, and so has the pins. -/
theorem Inv.keepOnly (h : Inv s l lost) {kept : ℕ → Prop} [DecidablePred kept]
    (hl : ∀ p ∈ l, kept p) :
    Inv { s with held := s.held.filter kept, pinned := s.pinned.filter kept } l
      (lost + ((s.held \ s.held.filter kept).filter (fun p => 0 < (s.pg p).nRef)).card) := by
  have hsub : ∀ p ∈ s.held.filter kept, p ∈ s.held ∧ kept p := fun p hp => Finset.mem_filter.mp hp
  refine ⟨⟨h.links, h.first, h.tail, h.nodup, fun p hp => ?_, fun p hp => ?_⟩,
    h.synced.congr rfl (fun _ _ hb _ => hb), ?_⟩
  · exact Finset.mem_filter.mpr ⟨h.held p hp, hl p hp⟩
  · exact h.off p (hsub p hp).1
  constructor
  · exact fun p hp => h.pages.dirty p (hsub p hp).1
  · have hsplit := Finset.card_filter_add_card_filter_not
      (s := s.held.filter (fun p => 0 < (s.pg p).nRef)) kept
    have h1 : (s.held.filter (fun p => 0 < (s.pg p).nRef)).filter kept =
        (s.held.filter kept).filter (fun p => 0 < (s.pg p).nRef) := Finset.filter_comm ..
    have h2 : (s.held.filter (fun p => 0 < (s.pg p).nRef)).filter (fun p => ¬ kept p) =
        (s.held \ s.held.filter kept).filter (fun p => 0 < (s.pg p).nRef) := by
      ext p
      simp only [Finset.mem_filter, Finset.mem_sdiff]
      tauto
    rw [h1, h2] at hsplit
    have hrefs := h.pages.refs
    show s.nRef = (((s.held.filter kept).filter (fun p => 0 < (s.pg p).nRef)).card : ℤ) + _
    omega
  · exact fun p hp => h.pages.range p (hsub p hp).1
  · exact Finset.filter_subset_filter kept h.pages.pinned
  · intro p hp hu
    exact Finset.mem_filter.mpr ⟨h.pages.pin p (hsub p hp).1 hu, (hsub p hp).2⟩
  · exact fun hb p hp => h.pages.unpin hb p (Finset.mem_of_mem_filter p hp)
  · exact fun p hp => h.pages.init p (hsub p hp).1
  · exact fun p hp => h.pages.key p (hsub p hp).1
  · exact fun p hp q hq => h.pages.inj p (hsub p hp).1 q (hsub q hq).1

theorem Inv.truncate (h : Inv s l lost) (pgno : ℕ) :
    ∃ s' l', sqlite3PcacheTruncate s pgno = some s' ∧ Inv s' l'
      (lost + ((s.held \ s'.held).filter (fun p => 0 < (s.pg p).nRef)).card) := by
  unfold sqlite3PcacheTruncate
  cases hc : s.pCache with
  | false =>
    refine ⟨s, l, if_neg nofun, ?_⟩
    rw [Finset.sdiff_self, Finset.filter_empty]
    exact h
  | true =>
    have hloop := truncateLoop_spec [] (r := l) h h.length_le pgno
    rw [← h.first] at hloop
    obtain ⟨t, l', h1, h2, h3, h4, h5, h6⟩ := hloop
    rw [if_pos rfl, h1]
    dsimp only
    generalize hk : (if pgno = 0 ∧ t.pPage1.isSome then 1 else pgno) = k
    have hle : pgno ≤ k := by
      rw [← hk]
      split <;> omega
    have hkept : ∀ p ∈ l', t.iKey p < k + 1 := by
      intro p hp
      have h7 := (h3 p hp).resolve_left List.not_mem_nil
      rw [h5]
      omega
    have hinv := h2.keepOnly hkept
    simp only [h4, h6] at hinv
    refine ⟨_, l', rfl, ?_⟩
    rw [h4]
    exact hinv

/-- The pluggable cache may discard pages that are not pinned. -/
theorem Inv.evict (h : Inv s l lost) {drop : Finset ℕ} (hd : Disjoint drop s.pinned) :
    Inv { s with held := s.held \ drop } l lost := by
  have hno : ∀ p ∈ s.held, inUse (s.pg p) → p ∉ drop := fun p hp hu hc =>
    Finset.disjoint_left.mp hd hc (h.pages.pin p hp hu)
  have hsub : ∀ p ∈ s.held \ drop, p ∈ s.held := fun p hp => (Finset.mem_sdiff.mp hp).1
  refine ⟨⟨h.links, h.first, h.tail, h.nodup, fun p hp => ?_, fun p hp => ?_⟩,
    h.synced.congr rfl (fun _ _ hb _ => hb), ?_⟩
  · have hp' := h.held p hp
    exact Finset.mem_sdiff.mpr ⟨hp', hno p hp' (Or.inl ((h.pages.dirty p hp').mpr hp))⟩
  · exact h.off p (hsub p hp)
  constructor
  · exact fun p hp => h.pages.dirty p (hsub p hp)
  · have hfilter : (s.held \ drop).filter (fun p => 0 < (s.pg p).nRef) =
        s.held.filter (fun p => 0 < (s.pg p).nRef) := by
      ext p
      simp only [Finset.mem_filter, Finset.mem_sdiff]
      constructor
      · exact fun hp => ⟨hp.1.1, hp.2⟩
      · exact fun hp => ⟨⟨hp.1, hno p hp.1 (Or.inr hp.2)⟩, hp.2⟩
    show s.nRef = (((s.held \ drop).filter (fun p => 0 < (s.pg p).nRef)).card : ℤ) + lost
    rw [hfilter]
    exact h.pages.refs
  · exact fun p hp => h.pages.range p (hsub p hp)
  · intro p hp
    exact Finset.mem_sdiff.mpr ⟨h.pages.pinned hp, fun hc => Finset.disjoint_left.mp hd hc hp⟩
  · exact fun p hp => h.pages.pin p (hsub p hp)
  · exact h.pages.unpin
  · exact fun p hp => h.pages.init p (hsub p hp)
  · exact fun p hp => h.pages.key p (hsub p hp)
  · exact fun p hp q hq => h.pages.inj p (hsub p hp) q (hsub q hq)

end Truncate

section DirtyList

theorem copyLoop_spec {next : ℕ → Option ℕ} (pgDirty : ℕ → Option ℕ) (hc : Chain next q r)
    (hn : r.length ≤ n) :
    ∃ pgDirty', copyLoop next n q pgDirty = some pgDirty' ∧
      (∀ z ∈ r, pgDirty' z = next z) ∧ ∀ z, z ∉ r → pgDirty' z = pgDirty z := by
  induction r generalizing q n pgDirty with
  | nil =>
    obtain rfl := hc
    exact ⟨pgDirty, by cases n <;> rfl, nofun, fun _ _ => rfl⟩
  | cons p r ih =>
    obtain ⟨rfl, hc'⟩ := hc
    obtain ⟨n, rfl⟩ : ∃ n', n = n' + 1 := ⟨n - 1, by rw [List.length_cons] at hn; omega⟩
    obtain ⟨d, h1, h2, h3⟩ := ih (Function.update pgDirty p (next p)) hc'
      (Nat.le_of_succ_le_succ hn)
    refine ⟨d, h1, fun z hz => ?_, fun z hz => ?_⟩
    · by_cases hzr : z ∈ r
      · exact h2 z hzr
      · obtain rfl := (List.mem_cons.mp hz).resolve_right hzr
        rw [h3 z hzr, Function.update_self]
    · obtain ⟨hzp, hzr⟩ := not_or.mp (fun hc => hz (List.mem_cons.mpr hc))
      rw [h3 z hzr, Function.update_of_ne hzp]

/-- The dirty pages in ascending order. -/
theorem Inv.dirtyList (h : Inv s l lost) :
    ∃ q s' r, sqlite3PcacheDirtyList s = some (q, s') ∧ Inv s' l lost ∧
      Chain s'.pgDirty q r ∧ r.Perm l ∧ Ascending (fun p => (s.pg p).pgno) r := by
  have hc := h.links.chain
  rw [← h.first] at hc
  obtain ⟨d, h1, h2, -⟩ := copyLoop_spec s.pgDirty hc h.length_le
  have hinj : ∀ x ∈ l, ∀ y ∈ l, (s.pg x).pgno = (s.pg y).pgno → x = y := by
    intro x hx y hy e
    apply h.pages.inj x (h.held x hx) y (h.held y hy)
    rw [h.pages.key x (h.held x hx), h.pages.key y (h.held y hy), e]
  obtain ⟨d', q, r, g1, g2, g3, g4⟩ := pcacheSortDirtyList_spec (fun p => (s.pg p).pgno)
    (hc.congr h2) h.nodup hinj h.length_le
  have hsort : sqlite3PcacheDirtyList s = some (q, { s with pgDirty := d' }) := by
    unfold sqlite3PcacheDirtyList
    rw [h1]
    show (pcacheSortDirtyList _ _ d s.pDirty).bind _ = _
    rw [g1]
    rfl
  refine ⟨q, _, r, hsort, ⟨h.toListed.congr rfl rfl rfl rfl rfl, ?_, ?_⟩, g2, g3, g4⟩
  · exact h.synced.congr rfl (fun _ _ hb _ => hb)
  · exact h.pages.rest ⟨rfl, rfl, rfl, rfl, rfl, rfl, rfl⟩ (fun _ => Iff.rfl)

end DirtyList

section Spill

/-- A page to spill is dirty and unreferenced, and it needs a sync only when all such pages do. -/
theorem Inv.spill (h : Inv s l lost) :
    ∃ v t, spillPage s = some (v, t) ∧ Inv t l lost ∧ SameRest s t ∧
      (∀ p, v = some p → p ∈ l ∧ (s.pg p).nRef = 0 ∧
        ((s.pg p).needSync = true → ∀ q ∈ l, busy (s.pg q))) ∧
      (v = none → ∀ q ∈ l, (s.pg q).nRef ≠ 0) := by
  obtain ⟨a, b, rfl, h1, h2⟩ := h.synced
  have hlen := h.length_le
  rw [List.length_append] at hlen
  obtain ⟨a₁, a₂, rfl, g1, g2, g3⟩ := skipBack_spec (fun h => h.nRef ≠ 0 ∨ h.needSync) h.links
    (Nat.le_of_add_right_le hlen)
  have hbusy : ∀ q ∈ a₂ ++ b, busy (s.pg q) := by
    intro q hq
    rcases List.mem_append.mp hq with hq | hq
    · have hskip : (s.pg q).nRef ≠ 0 ∨ (s.pg q).needSync = true := of_decide_eq_true (g2 q hq)
      exact hskip
    · exact h2 q hq nofun
  have hinv : Inv { s with pSynced := a₁.getLast? } (a₁ ++ a₂ ++ b) lost := by
    refine ⟨h.toListed.congr rfl rfl rfl rfl rfl, ?_, ?_⟩
    · refine ⟨a₁, a₂ ++ b, List.append_assoc .., rfl, fun q hq _ => hbusy q hq⟩
    · exact h.pages.rest ⟨rfl, rfl, rfl, rfl, rfl, rfl, rfl⟩ (fun _ => Iff.rfl)
  unfold spillPage
  rw [h1, g1]
  dsimp only
  cases hv : a₁.getLast? with
  | some p =>
    rw [hv] at hinv
    refine ⟨_, _, rfl, hinv, ⟨rfl, rfl, rfl, rfl, rfl, rfl, rfl⟩, fun z hz => ?_, nofun⟩
    obtain rfl := Option.some.inj hz
    have hskip := of_decide_eq_false (g3 p hv)
    obtain ⟨e1, e2⟩ := not_or.mp hskip
    refine ⟨?_, not_not.mp e1, fun hc => absurd hc e2⟩
    rw [List.append_assoc]
    exact List.mem_append_left _ (List.mem_of_getLast? hv)
  | none =>
    rw [hv] at hinv
    obtain rfl := List.getLast?_eq_none_iff.mp hv
    rw [List.nil_append] at hinv h hlen ⊢
    have hlinks : Links s.pDirtyNext s.pDirtyPrev none (a₂ ++ b ++ []) := by
      rw [List.append_nil]
      exact h.links
    obtain ⟨c₁, c₂, hc, k1, k2, k3⟩ := skipBack_spec (s := { s with pSynced := none })
      (fun h => h.nRef ≠ 0) hlinks h.length_le
    rw [← h.tail] at k1
    rw [k1]
    refine ⟨_, _, rfl, hinv, ⟨rfl, rfl, rfl, rfl, rfl, rfl, rfl⟩, fun z hz => ⟨?_, ?_, ?_⟩,
      fun hz q hq => ?_⟩
    · rw [hc]
      exact List.mem_append_left _ (List.mem_of_getLast? hz)
    · exact not_not.mp (of_decide_eq_false (k3 z hz))
    · exact fun _ q hq => hbusy q hq
    · obtain rfl := List.getLast?_eq_none_iff.mp hz
      rw [hc] at hq
      exact of_decide_eq_true (k2 q hq)

end Spill

end Sqlite.Pcache

import Sqlite.SharedCache.Begin
import Sqlite.SharedCache.Calls

/-! The begin and the end of a transaction. -/
namespace Sqlite.SharedCache


section

variable {β : Type} [DecidableEq β] [Fintype β] {m : BtShared β} {p : β}

omit [DecidableEq β] in
theorem Inv.one_le_count (h : Inv m) {q : β} (hq : (m.handle q).inTrans ≠ TRANS_NONE) :
    1 ≤ m.nTransaction := by
  rw [h.count]
  exact_mod_cast Finset.card_pos.mpr ⟨q, mem_active.mpr hq⟩

theorem count_leave (h : Inv m) (hp : (m.handle p).inTrans ≠ TRANS_NONE) :
    m.nTransaction - 1 = ((active m).erase p).card := by
  have hcard := Finset.card_erase_of_mem (mem_active.mpr hp)
  have hpos := Finset.card_pos.mpr ⟨p, mem_active.mpr hp⟩
  rw [h.count]
  omega

/-- The end of the transaction of `p`, with its locks. The flag stays when a third handle is in a
transaction. -/
theorem Inv.leave (h : Inv m) (hp : (m.handle p).inTrans ≠ TRANS_NONE) {w : Option β} {t : ℕ}
    {x d : Bool} (hw : ∀ q, w = some q ↔ m.pWriter = some q ∧ q ≠ p)
    (ht : t = if m.nTransaction - 1 = 0 then TRANS_NONE
      else if m.pWriter = some p then TRANS_READ else m.inTransaction)
    (hx : x = true → m.exclusive = true ∧ m.pWriter ≠ some p)
    (hd : d = true → m.pending = true ∧ m.pWriter ≠ some p ∧ m.nTransaction ≠ 2) :
    Inv (setTrans { m with
      pLock := m.pLock.filter fun k => k.pBtree ≠ p
      pWriter := w, inTransaction := t, nTransaction := m.nTransaction - 1
      exclusive := x, pending := d } p TRANS_NONE) := by
  have hcount := count_leave h hp
  -- the others are as they were
  have hrest : ∀ q, q ≠ p → (m.handle q).inTrans ≠ TRANS_NONE → m.nTransaction - 1 ≠ 0 := by
    intro q hq hqt h0
    rw [hcount] at h0
    have hmem : q ∈ (active m).erase p := Finset.mem_erase.mpr ⟨hq, mem_active.mpr hqt⟩
    have hpos := Finset.card_pos.mpr ⟨q, hmem⟩
    omega
  have hwriter : ∀ q, q ≠ p → m.pWriter = some q → t = TRANS_WRITE := by
    intro q hq hm
    have hq2 := (h.writer q).mpr hm
    have hne : m.pWriter ≠ some p := fun hc => hq (Option.some.inj (hm.symm.trans hc))
    rw [ht, if_neg (hrest q hq (by rw [hq2]; decide)), if_neg hne, h.shared, hm]
    exact Option.some_ne_none q
  have hmem : ∀ k, k ∈ m.pLock.filter (fun k => k.pBtree ≠ p) ↔ k ∈ m.pLock ∧ k.pBtree ≠ p := by
    intro k
    rw [List.mem_filter, decide_eq_true_iff]
  constructor
  case alone =>
    intro q r hqr
    rw [setTrans_sharable]
    exact h.alone q r hqr
  case writer =>
    intro q
    change _ ↔ w = some q
    rw [hw]
    by_cases hq : q = p
    · subst hq
      rw [setTrans_handle_self]
      exact ⟨fun hc => (by cases hc), fun hc => absurd rfl hc.2⟩
    · rw [setTrans_handle_of_ne _ hq]
      exact (h.writer q).trans ⟨fun hm => ⟨hm, hq⟩, fun hm => hm.1⟩
  case shared =>
    change t = TRANS_WRITE ↔ w ≠ none
    constructor
    · intro ht2
      rw [ht] at ht2
      split_ifs at ht2 with h0 h1
      · cases ht2
      · cases ht2
      · obtain ⟨q, hq⟩ := Option.ne_none_iff_exists'.mp (h.shared.mp ht2)
        rw [(hw q).mpr ⟨hq, fun hc => h1 (by rw [hq, hc])⟩]
        exact Option.some_ne_none q
    · intro hne
      obtain ⟨q, hq⟩ := Option.ne_none_iff_exists'.mp hne
      obtain ⟨hm, hqp⟩ := (hw q).mp hq
      exact hwriter q hqp hm
  case top =>
    change t ≤ TRANS_WRITE
    rw [ht]
    split_ifs
    · decide
    · decide
    · exact h.top
  case le =>
    intro q
    change _ ≤ t
    by_cases hq : q = p
    · subst hq
      rw [setTrans_handle_self]
      exact Nat.zero_le t
    · rw [setTrans_handle_of_ne _ hq]
      by_cases hqt : (m.handle q).inTrans = TRANS_NONE
      · exact hqt.trans_le (Nat.zero_le t)
      · change (m.handle q).inTrans ≤ t
        rw [ht, if_neg (hrest q hq hqt)]
        split_ifs with h1
        · -- `p` is the writer, so the other one reads
          have hne : (m.handle q).inTrans ≠ TRANS_WRITE := by
            rw [Ne, h.writer, h1]
            exact fun hc => hq (Option.some.inj hc).symm
          exact Nat.le_of_lt_succ (lt_of_le_of_ne (h.trans_le q) hne)
        · exact h.le q
  case count =>
    change m.nTransaction - 1 = _
    rw [hcount, active_leave]
    rfl
  case idle =>
    intro h0
    change m.nTransaction - 1 = 0 at h0
    change t = _
    rw [ht, if_pos h0]
  case lock =>
    intro k hk
    obtain ⟨hk, hne⟩ := (hmem k).mp hk
    refine (h.lock k hk).congr ?_ (setTrans_sharable _ _)
    rw [setTrans_handle_of_ne _ hne]
  case once =>
    exact h.once.sublist (List.Sublist.map BtLock.key List.filter_sublist)
  case master =>
    intro q hs hq
    by_cases hqp : q = p
    · subst hqp
      rw [setTrans_handle_self] at hq
      exact absurd rfl hq
    · rw [setTrans_sharable] at hs
      rw [setTrans_handle_of_ne _ hqp] at hq
      obtain ⟨k, hk, hkey⟩ := List.mem_map.mp (h.master q hs hq)
      refine List.mem_map.mpr ⟨k, (hmem k).mpr ⟨hk, ?_⟩, hkey⟩
      rw [show k.pBtree = q from congrArg Prod.fst hkey]
      exact hqp
  case apart =>
    intro k hk k' hk'
    exact h.apart k ((hmem k).mp hk).1 k' ((hmem k').mp hk').1
  case exclusive =>
    intro hm
    obtain ⟨hm, hne⟩ := hx hm
    obtain ⟨v, hv, hall⟩ := h.exclusive hm
    refine ⟨v, (hw v).mpr ⟨hv, ?_⟩, fun k hk => hall k ((hmem k).mp hk).1⟩
    rintro rfl
    exact hne hv
  case pending =>
    intro hm
    obtain ⟨hm, hne, htwo⟩ := hd hm
    obtain ⟨v, hv, -⟩ := h.pending hm
    have hvp : v ≠ p := by
      rintro rfl
      exact hne hv
    refine ⟨v, (hw v).mpr ⟨hv, hvp⟩, ?_⟩
    have hvmem : v ∈ (active m).erase p := Finset.mem_erase.mpr ⟨hvp, h.writer_active hv⟩
    have hthird : 1 < ((active m).erase p).card := by
      have hpos := Finset.card_pos.mpr ⟨v, hvmem⟩
      omega
    obtain ⟨q, hq, hqv⟩ := Finset.exists_mem_ne hthird v
    obtain ⟨hqp, hqa⟩ := Finset.mem_erase.mp hq
    refine ⟨q, hqv, ?_⟩
    rw [setTrans_handle_of_ne _ hqp]
    exact mem_active.mp hqa

/-- The writer becomes a reader, and its locks read locks. -/
theorem Inv.downgrade (h : Inv m) (hp : m.pWriter = some p) :
    Inv (setTrans { m with
      pLock := m.pLock.map fun k => { k with eLock := READ_LOCK }
      pWriter := none, inTransaction := TRANS_READ, exclusive := false, pending := false }
      p TRANS_READ) := by
  have hpw := (h.writer p).mpr hp
  have hread : ∀ q, q ≠ p → (m.handle q).inTrans ≤ TRANS_READ := by
    intro q hq
    have hne : (m.handle q).inTrans ≠ TRANS_WRITE := by
      rw [Ne, h.writer, hp]
      exact fun hc => hq (Option.some.inj hc).symm
    exact Nat.le_of_lt_succ (lt_of_le_of_ne (h.trans_le q) hne)
  have hpa : (m.handle p).inTrans ≠ TRANS_NONE := by
    rw [hpw]
    decide
  have hkeys : (m.pLock.map fun k => { k with eLock := READ_LOCK }).map BtLock.key =
      m.pLock.map BtLock.key := by
    rw [List.map_map]
    rfl
  constructor
  case alone =>
    intro q r hqr
    rw [setTrans_sharable]
    exact h.alone q r hqr
  case writer =>
    intro q
    change _ ↔ none = some q
    constructor
    · intro hc
      by_cases hq : q = p
      · subst hq
        rw [setTrans_handle_self] at hc
        cases hc
      · rw [setTrans_handle_of_ne _ hq] at hc
        have hle := hread q hq
        change (m.handle q).inTrans = _ at hc
        rw [hc] at hle
        exact absurd hle (by decide)
    · intro hc
      cases hc
  case shared => exact ⟨fun hc => (by cases hc), fun hc => absurd rfl hc⟩
  case top => exact (by decide : TRANS_READ ≤ TRANS_WRITE)
  case le =>
    intro q
    by_cases hq : q = p
    · subst hq
      rw [setTrans_handle_self]
      exact le_rfl
    · rw [setTrans_handle_of_ne _ hq]
      exact hread q hq
  case count =>
    change m.nTransaction = _
    rw [h.count, active_enter (by decide)]
    exact congrArg (fun s : Finset β => (s.card : ℤ))
      (Finset.insert_eq_of_mem (mem_active.mpr hpa)).symm
  case idle =>
    intro h0
    have hone := h.one_le_count hpa
    change m.nTransaction = 0 at h0
    omega
  case lock =>
    intro k hk
    obtain ⟨a, ha, rfl⟩ := List.mem_map.mp hk
    have hok := h.lock a ha
    refine ⟨Or.inl rfl, ?_, ?_, hok.embedded⟩
    · by_cases hq : a.pBtree = p
      · change READ_LOCK ≤ ((setTrans _ p TRANS_READ).handle a.pBtree).inTrans
        rw [hq, setTrans_handle_self]
        exact le_rfl
      · change READ_LOCK ≤ ((setTrans _ p TRANS_READ).handle a.pBtree).inTrans
        rw [setTrans_handle_of_ne _ hq]
        exact Nat.one_le_iff_ne_zero.mpr hok.active
    · exact (setTrans_sharable _ _).trans hok.sharable
  case once =>
    change (List.map BtLock.key (m.pLock.map _)).Nodup
    rw [hkeys]
    exact h.once
  case master =>
    intro q hs hq
    change (q, 1) ∈ List.map BtLock.key (m.pLock.map _)
    rw [hkeys]
    rw [setTrans_sharable] at hs
    by_cases hqp : q = p
    · subst hqp
      exact h.master q hs hpa
    · rw [setTrans_handle_of_ne _ hqp] at hq
      exact h.master q hs hq
  case apart =>
    intro k hk k' hk' ht hne
    obtain ⟨a, ha, rfl⟩ := List.mem_map.mp hk
    rfl
  case exclusive => exact fun hc => by cases hc
  case pending => exact fun hc => by cases hc

/-- What the locks of `p` are cleared to. -/
theorem Inv.clear (h : Inv m) (hp : (m.handle p).inTrans ≠ TRANS_NONE) (t : ℕ) :
    ∃ w x d, clearAllSharedCacheTableLocks { m with inTransaction := t } p = some { m with
        pLock := m.pLock.filter fun k => k.pBtree ≠ p
        pWriter := w, inTransaction := t, exclusive := x, pending := d } ∧
      (∀ q, w = some q ↔ m.pWriter = some q ∧ q ≠ p) ∧
      (x = true → m.exclusive = true ∧ m.pWriter ≠ some p) ∧
      (d = true → m.pending = true ∧ m.pWriter ≠ some p ∧ m.nTransaction ≠ 2) := by
  have h1 : (m.handle p).sharable = true ∨ m.pLock = [] := by
    rw [or_iff_not_imp_right]
    intro hne
    obtain ⟨k, hk⟩ := List.exists_mem_of_ne_nil _ hne
    by_cases hkp : k.pBtree = p
    · rw [← hkp]
      exact (h.lock k hk).sharable
    · exact h.alone p k.pBtree (Ne.symm hkp)
  have h2 : 0 < (m.handle p).inTrans := Nat.pos_of_ne_zero hp
  have h3 : m.pending = false ∨ m.pWriter.isSome = true := by
    by_cases hm : m.pending = true
    · obtain ⟨w, hw, -⟩ := h.pending hm
      right
      rw [hw]
      rfl
    · exact Or.inl (Bool.not_eq_true _ ▸ hm)
  have hloop := clearLoop_eq (m := { m with inTransaction := t }) (p := p) m.pLock
    (fun hm k hk => by
      obtain ⟨w, hw, hall⟩ := h.exclusive hm
      rw [hall k hk]
      exact hw)
    (fun k hk => (h.lock k hk).congr le_rfl rfl)
  have hne : ∀ q, m.pWriter ≠ some p → (m.pWriter = some q ↔ m.pWriter = some q ∧ q ≠ p) := by
    intro q hc
    refine ⟨fun hm => ⟨hm, ?_⟩, fun hm => hm.1⟩
    rintro rfl
    exact hc hm
  rw [clearAllSharedCacheTableLocks, guard, if_pos h1, guard, if_pos h2, hloop]
  simp only [pure_bind, Option.bind_eq_bind, Option.bind_some, guard, if_pos h3]
  by_cases hw : m.pWriter = some p
  · refine ⟨none, false, false, ?_, ?_, fun hc => (by cases hc), fun hc => (by cases hc)⟩
    · exact if_pos hw
    · intro q
      constructor
      · intro hc
        cases hc
      · intro hc
        exact absurd (Option.some.inj (hc.1.symm.trans hw)) hc.2
  · by_cases htwo : m.nTransaction = 2
    · refine ⟨m.pWriter, m.exclusive, false, ?_, fun q => hne q hw, fun hc => ⟨hc, hw⟩,
        fun hc => (by cases hc)⟩
      exact (if_neg hw).trans (if_pos htwo)
    · refine ⟨m.pWriter, m.exclusive, m.pending, ?_, fun q => hne q hw, fun hc => ⟨hc, hw⟩,
        fun hc => ⟨hc, hw, htwo⟩⟩
      exact (if_neg hw).trans (if_neg htwo)

theorem Inv.downgrade_eq (h : Inv m) (hp : m.pWriter = some p) (t : ℕ) :
    downgradeAllSharedCacheTableLocks { m with inTransaction := t } p = some { m with
      pLock := m.pLock.map fun k => { k with eLock := READ_LOCK }
      pWriter := none, inTransaction := t, exclusive := false, pending := false } := by
  have hall : ∀ k ∈ m.pLock, k.eLock = READ_LOCK ∨ k.pBtree = p := by
    intro k hk
    refine (h.lock k hk).kind.imp_right fun hE => ?_
    exact Option.some.inj ((h.writer_of_lock hk hE).symm.trans hp)
  refine (if_pos hp).trans ?_
  rw [guard, if_pos hall]
  rfl

/-- The lock of `q` on a table when the transaction of `p` is over, as `m'` has it: the locks of `p`
are gone, or all locks are downgraded with the writer. -/
def endLock (m m' : BtShared β) (p q : β) (i : ℕ) : ℕ :=
  if (m'.handle p).inTrans = TRANS_NONE then (if q = p then 0 else lockIn m.pLock q i)
  else if m'.pWriter = m.pWriter then lockIn m.pLock q i
  else min (lockIn m.pLock q i) READ_LOCK

theorem Inv.endLock_same (h : Inv m) (q : β) (i : ℕ) : endLock m m p q i = lockIn m.pLock q i := by
  unfold endLock
  split_ifs with h0 hq hw
  · rw [hq, h.lockIn_idle h0]
  · rfl
  · rfl
  · exact absurd rfl hw

/-- Before it, the shared state of a writer has been set to `TRANS_READ`. -/
theorem Inv.endTransaction (h : Inv m) (p : β) (db : Connection) {t : ℕ}
    (ht : t = if (m.handle p).inTrans = TRANS_WRITE then TRANS_READ else m.inTransaction) :
    ∃ m', btreeEndTransaction { m with inTransaction := t } p db = some m' ∧ Inv m' ∧
      ∀ q i, lockIn m'.pLock q i = endLock m m' p q i := by
  have hfin : ∀ m', Inv m' → (do btreeIntegrity m' p; return m' : Option (BtShared β)) = some m' := by
    intro m' h'
    rw [h'.integrity p]
    rfl
  have hpw := h.writer p
  by_cases h0 : (m.handle p).inTrans = TRANS_NONE
  · have hm : { m with inTransaction := t } = m := by
      rw [ht, h0]
      rfl
    have hs : setTrans m p TRANS_NONE = m := setTrans_same h0
    have hc1 : ¬ (TRANS_NONE < (m.handle p).inTrans ∧ 1 < db.activeVdbeCnt) := by
      rw [h0]
      exact fun hc => absurd hc.1 (lt_irrefl _)
    refine ⟨m, ?_, h, fun q i => (h.endLock_same q i).symm⟩
    rw [hm, btreeEndTransaction, if_neg hc1, if_neg (not_not.mpr h0), hs]
    exact hfin m h
  · by_cases hc1 : TRANS_NONE < (m.handle p).inTrans ∧ 1 < db.activeVdbeCnt
    · by_cases hw : m.pWriter = some p
      · have htr : t = TRANS_READ := by
          rw [ht, if_pos (hpw.mpr hw)]
        subst htr
        refine ⟨_, ?_, h.downgrade hw, fun q i => ?_⟩
        swap
        · refine (lockIn_downgrade h.read_le).trans ?_
          have hp : ((setTrans { m with
              pLock := m.pLock.map fun k => { k with eLock := READ_LOCK }
              pWriter := none, inTransaction := TRANS_READ, exclusive := false, pending := false } p
              TRANS_READ).handle p).inTrans ≠ TRANS_NONE := by
            rw [setTrans_handle_self]
            exact (by decide : TRANS_READ ≠ TRANS_NONE)
          have hgone : (none : Option β) ≠ m.pWriter := hw ▸ (Option.some_ne_none p).symm
          exact ((if_neg hp).trans (if_neg hgone)).symm
        rw [btreeEndTransaction, if_pos hc1, h.downgrade_eq hw]
        exact hfin _ (h.downgrade hw)
      · have hn2 : (m.handle p).inTrans ≠ TRANS_WRITE := fun hc => hw (hpw.mp hc)
        have hm : { m with inTransaction := t } = m := by
          rw [ht, if_neg hn2]
        have hone : (m.handle p).inTrans = TRANS_READ :=
          le_antisymm (Nat.le_of_lt_succ (lt_of_le_of_ne (h.trans_le p) hn2))
            (Nat.one_le_iff_ne_zero.mpr h0)
        have hd : downgradeAllSharedCacheTableLocks m p = some m := if_neg hw
        refine ⟨m, ?_, h, fun q i => (h.endLock_same q i).symm⟩
        rw [hm, btreeEndTransaction, if_pos hc1, hd]
        change (do
          btreeIntegrity (setTrans m p TRANS_READ) p
          return setTrans m p TRANS_READ : Option (BtShared β)) = some m
        rw [setTrans_same hone]
        exact hfin m h
    · obtain ⟨w, x, d, hcl, hw, hx, hd⟩ := h.clear h0 t
      have hT : (if m.nTransaction - 1 = 0 then TRANS_NONE else t) =
          if m.nTransaction - 1 = 0 then TRANS_NONE
          else if m.pWriter = some p then TRANS_READ else m.inTransaction := by
        rw [ht]
        simp only [hpw]
      have hinv := h.leave h0 hw hT hx hd
      refine ⟨_, ?_, hinv, fun q i => (lockIn_filter m.pLock).trans (if_pos ?_).symm⟩
      swap
      · rw [setTrans_handle_self]
      rw [btreeEndTransaction, if_neg hc1, if_pos h0, hcl]
      exact hfin _ hinv

theorem Inv.commitPhaseTwo (h : Inv m) (p : β) (db : Connection) (bCleanup : Bool) (pagerRc : ℕ) :
    ∃ r, sqlite3BtreeCommitPhaseTwo m p db bCleanup pagerRc = some r ∧ Inv r.1 ∧
      ∀ q i, lockIn r.1.pLock q i = endLock m r.1 p q i := by
  unfold sqlite3BtreeCommitPhaseTwo
  by_cases h0 : (m.handle p).inTrans = TRANS_NONE
  · exact ⟨_, if_pos h0, h, fun q i => (h.endLock_same q i).symm⟩
  · rw [if_neg h0, h.integrity p]
    by_cases hw : (m.handle p).inTrans = TRANS_WRITE
    · have h1 : m.inTransaction = TRANS_WRITE := by
        rw [h.shared, (h.writer p).mp hw]
        exact Option.some_ne_none p
      have h2 : 0 < m.nTransaction := h.one_le_count h0
      rw [if_pos hw, guard, if_pos h1, guard, if_pos h2]
      by_cases hrc : pagerRc ≠ SQLITE_OK ∧ bCleanup = false
      · exact ⟨_, if_pos hrc, h, fun q i => (h.endLock_same q i).symm⟩
      · obtain ⟨m', hm', hinv, hlock⟩ := h.endTransaction p db (if_pos hw).symm
        refine ⟨(m', SQLITE_OK), ?_, hinv, hlock⟩
        refine (if_neg hrc).trans ?_
        rw [hm']
        rfl
    · obtain ⟨m', hm', hinv, hlock⟩ := h.endTransaction p db (if_neg hw).symm
      refine ⟨(m', SQLITE_OK), ?_, hinv, hlock⟩
      rw [if_neg hw, hm']
      rfl

theorem Inv.rollback (h : Inv m) (p : β) (db : Connection) (tripCode saveRc pagerRc : ℕ) :
    ∃ r, sqlite3BtreeRollback m p db tripCode saveRc pagerRc = some r ∧ Inv r.1 ∧
      ∀ q i, lockIn r.1.pLock q i = endLock m r.1 p q i := by
  unfold sqlite3BtreeRollback
  dsimp only
  rw [h.integrity p]
  by_cases hw : (m.handle p).inTrans = TRANS_WRITE
  · have h1 : m.inTransaction = TRANS_WRITE := by
      rw [h.shared, (h.writer p).mp hw]
      exact Option.some_ne_none p
    obtain ⟨m', hm', hinv, hlock⟩ := h.endTransaction p db (if_pos hw).symm
    refine ⟨(m', if pagerRc ≠ SQLITE_OK then pagerRc
      else if tripCode = SQLITE_OK then saveRc else SQLITE_OK), ?_, hinv, hlock⟩
    rw [if_pos hw, guard, if_pos h1, hm']
    rfl
  · obtain ⟨m', hm', hinv, hlock⟩ := h.endTransaction p db (if_neg hw).symm
    refine ⟨(m', if tripCode = SQLITE_OK then saveRc else SQLITE_OK), ?_, hinv, hlock⟩
    rw [if_neg hw, hm']
    rfl

end

/-! The locks of a shared cache, in every run of calls. -/

variable {β : Type} [DecidableEq β] [Fintype β] {m : BtShared β}

omit [DecidableEq β] in
theorem opened_inv {sharable : β → Bool} (hs : ∀ p q, p ≠ q → sharable p = true)
    (readOnly : Bool) : Inv (opened sharable readOnly) := by
  constructor
  case alone => exact hs
  case writer => exact fun p => ⟨fun hc => (by cases hc), fun hc => (by cases hc)⟩
  case shared => exact ⟨fun hc => (by cases hc), fun hc => absurd rfl hc⟩
  case top => exact Nat.zero_le _
  case le => exact fun p => le_rfl
  case count =>
    have hnone : active (opened sharable readOnly) = ∅ := by
      rw [Finset.eq_empty_iff_forall_notMem]
      exact fun p hp => mem_active.mp hp rfl
    rw [hnone]
    rfl
  case idle => exact fun _ => rfl
  case lock => exact fun k hk => absurd hk List.not_mem_nil
  case once => exact List.nodup_nil
  case master => exact fun p _ hp => absurd rfl hp
  case apart => exact fun k hk => absurd hk List.not_mem_nil
  case exclusive => exact fun hc => by cases hc
  case pending => exact fun hc => by cases hc

/-- The lock of `q` on a table after a call with the result `r`: a lock that is asked for and granted
is held, at least as strong, and no other lock changes before the end of a transaction. -/
def Op.lockAfter (m : BtShared β) (r : BtShared β × ℕ) (q : β) (i : ℕ) : Op β → ℕ
  | .beginTrans p _ _ _ => beginLock m r.1 p q i
  | .lockTable p _ iTab isWriteLock _ =>
    if q = p ∧ i = iTab ∧ (m.handle p).sharable ∧ r.2 = SQLITE_OK then
      max (lockIn m.pLock q i) (READ_LOCK + isWriteLock.toNat)
    else lockIn m.pLock q i
  | .commitPhaseTwo p _ _ _ => endLock m r.1 p q i
  | .rollback p _ _ _ _ => endLock m r.1 p q i

/-- A call that the assertions allow has a result. -/
theorem Inv.run (h : Inv m) {op : Op β} (hl : op.Legal m) :
    ∃ r, op.run m = some r ∧ Inv r.1 ∧ ∀ q i, lockIn r.1.pLock q i = op.lockAfter m r q i := by
  cases op with
  | beginTrans p db wrflag pager => exact h.beginTrans p db wrflag pager
  | lockTable p db iTab isWriteLock malloc => exact h.lockTable hl
  | commitPhaseTwo p db bCleanup pagerRc => exact h.commitPhaseTwo p db bCleanup pagerRc
  | rollback p db tripCode saveRc pagerRc => exact h.rollback p db tripCode saveRc pagerRc

theorem Reach.inv {m₀ m : BtShared β} (h0 : Inv m₀) (hr : Reach m₀ m) : Inv m := by
  induction hr with
  | init => exact h0
  | step op r _ hl hrun ih =>
    obtain ⟨r', hr', hinv, -⟩ := ih.run hl
    rw [hrun] at hr'
    rw [Option.some.inj hr']
    exact hinv

/-- In every reachable state: there is at most one writer, and it is `pWriter`; a table that one
handle may write has no lock of another handle; the flags are only set while there is a writer, and
while it waits for another handle; a handle in a transaction has its lock on the schema table; and a
call that the assertions allow has a result, so that no null pointer is read, with the locks that it
grants on the list, once and at least as strong, and the others as they were. -/
theorem shared_cache_sound {sharable : β → Bool} (hs : ∀ p q, p ≠ q → sharable p = true)
    {readOnly : Bool} (hr : Reach (opened sharable readOnly) m) :
    (∀ p, (m.handle p).inTrans = TRANS_WRITE ↔ m.pWriter = some p) ∧
    (∀ p q, (m.handle p).inTrans = TRANS_WRITE → (m.handle q).inTrans = TRANS_WRITE → p = q) ∧
    (m.pWriter ≠ none ↔ m.inTransaction = TRANS_WRITE) ∧
    (∀ k ∈ m.pLock, ∀ k' ∈ m.pLock, k.iTable = k'.iTable → k.eLock = WRITE_LOCK →
      k'.pBtree = k.pBtree) ∧
    (m.exclusive = true → ∀ k ∈ m.pLock, m.pWriter = some k.pBtree) ∧
    (m.pending = true ∨ m.exclusive = true → m.pWriter ≠ none) ∧
    (m.pending = true →
      ∃ q, m.pWriter ≠ some q ∧ (m.handle q).inTrans ≠ TRANS_NONE) ∧
    m.nTransaction = (Finset.univ.filter fun p => (m.handle p).inTrans ≠ TRANS_NONE).card ∧
    (m.pLock.map fun k => (k.pBtree, k.iTable)).Nodup ∧
    (∀ k ∈ m.pLock, k.embedded = true ↔ k.iTable = 1) ∧
    (∀ p, (m.handle p).sharable = true → (m.handle p).inTrans ≠ TRANS_NONE →
      READ_LOCK ≤ lockIn m.pLock p MASTER_ROOT) ∧
    ∀ op : Op β, op.Legal m → ∃ r, op.run m = some r ∧
      ∀ q i, lockIn r.1.pLock q i = op.lockAfter m r q i := by
  have h : Inv m := hr.inv (opened_inv hs readOnly)
  refine ⟨h.writer, ?_, h.shared.symm, ?_, ?_, ?_, ?_, h.count, h.once,
    fun k hk => (h.lock k hk).embedded, fun p => h.lockIn_master, ?_⟩
  · intro p q hp hq
    rw [h.writer] at hp hq
    exact Option.some.inj (hp.symm.trans hq)
  · intro k hk k' hk' ht hw
    by_contra hne
    rw [h.apart k hk k' hk' ht (Ne.symm hne)] at hw
    cases hw
  · intro hx k hk
    obtain ⟨w, hw, hall⟩ := h.exclusive hx
    rw [hall k hk, hw]
  · rintro (hd | hx)
    · obtain ⟨w, hw, -⟩ := h.pending hd
      rw [hw]
      exact Option.some_ne_none w
    · obtain ⟨w, hw, -⟩ := h.exclusive hx
      rw [hw]
      exact Option.some_ne_none w
  · intro hd
    obtain ⟨w, hw, q, hq, ha⟩ := h.pending hd
    refine ⟨q, ?_, ha⟩
    rw [hw]
    exact fun hc => hq (Option.some.inj hc).symm
  · intro op hl
    obtain ⟨r, hrun, -, hlock⟩ := h.run hl
    exact ⟨r, hrun, hlock⟩

/-- The answers of a pager in which nothing fails. -/
def calm : Pager := ⟨⟨SQLITE_OK, false, SQLITE_OK, SQLITE_OK⟩, [], SQLITE_OK, SQLITE_OK⟩

/-- A writer has to wait for a reader of a table. -/
theorem shared_cache_sound_pending : ∃ m : BtShared Bool,
    Reach (opened (fun _ => true) false) m ∧ m.pending = true ∧
      ∃ q, m.pWriter ≠ some q ∧ (m.handle q).inTrans ≠ TRANS_NONE := by
  have h0 : Reach (opened (fun _ : Bool => true) false) (opened (fun _ => true) false) := .init
  have h1 := h0.step (.beginTrans false ⟨false, 1⟩ 0 calm) _ trivial rfl
  have h2 := h1.step (.lockTable false ⟨false, 1⟩ 5 false true) _
    ⟨by decide, fun _ => ⟨Or.inl rfl, by decide, fun _ => Or.inl rfl⟩⟩ rfl
  have h3 := h2.step (.beginTrans true ⟨false, 1⟩ 1 calm) _ trivial rfl
  have h4 := h3.step (.lockTable true ⟨false, 1⟩ 5 true true) _
    ⟨by decide, fun _ => ⟨Or.inl rfl, fun _ => by decide, fun _ => Or.inl rfl⟩⟩ rfl
  refine ⟨_, h4, rfl, ?_⟩
  exact (shared_cache_sound (fun _ _ _ => rfl) h4).2.2.2.2.2.2.1 rfl

end Sqlite.SharedCache

import Sqlite.SharedCache.Invariant

/-! Each call keeps what holds between calls. -/
namespace Sqlite.SharedCache

variable {β : Type} [DecidableEq β] [Fintype β] {m : BtShared β} {p : β}

omit [DecidableEq β] in
/-- The flag is set by the writer, while another handle has a lock. -/
theorem Inv.pend (h : Inv m) (hw : m.pWriter = some p) {q : β} (hq : q ≠ p)
    (ha : (m.handle q).inTrans ≠ TRANS_NONE) : Inv { m with pending := true } :=
  { h with
    count := h.count
    lock := fun k hk => (h.lock k hk).congr le_rfl rfl
    pending := fun _ => ⟨p, hw, q, hq, ha⟩ }

/-- When the answer is `SQLITE_OK` nothing has changed, and the lock may be taken. -/
theorem Inv.query (h : Inv m) (p : β) (db : Connection) (iTab : ℕ) {eLock : ℕ}
    (he : eLock = READ_LOCK ∨ eLock = WRITE_LOCK)
    (hdb : db.readUncommitted = false ∨ eLock = WRITE_LOCK ∨ iTab = 1)
    (hw : eLock = WRITE_LOCK → (m.handle p).inTrans = TRANS_WRITE) :
    ∃ m' rc, querySharedCacheTableLock m p db iTab eLock = some (m', rc) ∧ Inv m' ∧
      m'.pLock = m.pLock ∧ m'.handle = m.handle ∧ (rc = SQLITE_OK → m' = m ∧ ((m.handle p).sharable = true →
        (m.exclusive = true → m.pWriter = some p) ∧
        ∀ k ∈ m.pLock, k.pBtree ≠ p → k.iTable = iTab → k.eLock = eLock)) := by
  have hpw : eLock = WRITE_LOCK → m.pWriter = some p := fun hE => (h.writer p).mp (hw hE)
  have h1 : eLock = READ_LOCK ∨ m.pWriter = some p ∧ (m.handle p).inTrans = TRANS_WRITE :=
    he.imp_right fun hE => ⟨hpw hE, hw hE⟩
  have h2 : eLock = READ_LOCK ∨ m.inTransaction = TRANS_WRITE := by
    refine he.imp_right fun hE => h.shared.mpr ?_
    rw [hpw hE]
    exact Option.some_ne_none p
  rw [querySharedCacheTableLock, guard, if_pos he, guard, if_pos hdb, guard, if_pos h1, guard,
    if_pos h2]
  by_cases hs : (m.handle p).sharable = false
  · refine ⟨m, SQLITE_OK, if_pos hs, h, rfl, rfl, fun _ => ⟨rfl, fun hc => ?_⟩⟩
    rw [hs] at hc
    cases hc
  · by_cases hx : m.pWriter ≠ some p ∧ m.exclusive = true
    · have hsome : m.pWriter.isSome = true := by
        obtain ⟨w, hm, -⟩ := h.exclusive hx.2
        rw [hm]
        rfl
      refine ⟨m, SQLITE_LOCKED_SHAREDCACHE, ?_, h, rfl, rfl, fun hc => by cases hc⟩
      rw [guard, if_pos hsome]
      exact (if_neg hs).trans (if_pos hx)
    · have hrun : ∀ r, queryLoop m p iTab eLock m.pLock = some r →
          ((fun _ => if (m.handle p).sharable = false then return (m, SQLITE_OK)
          else if m.pWriter ≠ some p ∧ m.exclusive = true then do
            guard (m.pWriter.isSome = true)
            return (m, SQLITE_LOCKED_SHAREDCACHE)
          else queryLoop m p iTab eLock m.pLock : Unit → Option (BtShared β × ℕ)) ()) = some r := by
        intro r hr
        exact (if_neg hs).trans ((if_neg hx).trans hr)
      rcases queryLoop_spec he hpw m.pLock
        (fun k hk => ⟨(h.lock k hk).kind, h.writer_of_lock hk⟩) with
        ⟨hr, hk⟩ | hr | ⟨hr, hwp, k, hk, hne⟩
      · refine ⟨m, SQLITE_OK, hrun _ hr, h, rfl, rfl, fun _ => ⟨rfl, fun _ => ⟨fun hm => ?_, hk⟩⟩⟩
        by_contra hc
        exact hx ⟨hc, hm⟩
      · exact ⟨m, _, hrun _ hr, h, rfl, rfl, fun hc => by cases hc⟩
      · exact ⟨_, _, hrun _ hr, h.pend hwp hne (h.lock k hk).active, rfl, rfl, fun hc => by cases hc⟩

omit [DecidableEq β] in
/-- New locks are locks of `p` on one table, which nothing stands in the way of. -/
theorem Inv.setLocks (h : Inv m) {l : List (BtLock β)} {iTable eLock : ℕ}
    (hle : eLock ≤ (m.handle p).inTrans) (hs : (m.handle p).sharable = true)
    (hx : m.exclusive = true → m.pWriter = some p)
    (hfree : ∀ k ∈ m.pLock, k.pBtree ≠ p → k.iTable = iTable →
      k.eLock = READ_LOCK ∧ eLock = READ_LOCK)
    (hold : ∀ q i, (q, i) ∈ m.pLock.map BtLock.key → (q, i) ∈ l.map BtLock.key)
    (hnew : ∀ k ∈ l, k ∈ m.pLock ∨ k.pBtree = p ∧ k.iTable = iTable ∧ k.eLock = eLock ∧
      (k.eLock = READ_LOCK ∨ k.eLock = WRITE_LOCK) ∧ (k.embedded = true ↔ k.iTable = 1))
    (honce : (l.map BtLock.key).Nodup) : Inv { m with pLock := l } :=
  { h with
    count := h.count
    lock := by
      intro k hk
      rcases hnew k hk with hk | ⟨hp, ht, he, hkind, hemb⟩
      · exact (h.lock k hk).congr le_rfl rfl
      · subst hp
        exact ⟨hkind, by rw [he]; exact hle, hs, hemb⟩
    once := honce
    master := fun q hq hqt => hold q 1 (h.master q hq hqt)
    apart := by
      intro k hk k' hk' ht hne
      rcases hnew k hk with hk | ⟨hp, hti, he, -⟩
      · rcases hnew k' hk' with hk' | ⟨hp', hti', -, -⟩
        · exact h.apart k hk k' hk' ht hne
        · rw [hp'] at hne
          exact (hfree k hk hne (ht.trans hti')).1
      · rcases hnew k' hk' with hk' | ⟨hp', -, -, -⟩
        · rw [hp] at hne
          rw [he]
          exact (hfree k' hk' (Ne.symm hne) (ht.symm.trans hti)).2
        · exact absurd (hp.trans hp'.symm) hne
    exclusive := by
      intro hm
      obtain ⟨w, hw, hall⟩ := h.exclusive hm
      refine ⟨w, hw, fun k hk => ?_⟩
      rcases hnew k hk with hk | ⟨hp, -⟩
      · exact hall k hk
      · rw [hp]
        exact Option.some.inj ((hx hm).symm.trans hw) }

/-- A lock that was asked for is taken: it is raised, or allocated. -/
theorem Inv.setTableLock (h : Inv m) {db : Connection} {iTable eLock : ℕ} (malloc : Bool)
    (he : eLock = READ_LOCK ∨ eLock = WRITE_LOCK)
    (hdb : db.readUncommitted = false ∨ eLock = WRITE_LOCK)
    (hs : (m.handle p).sharable = true) (hle : eLock ≤ (m.handle p).inTrans)
    (hq : querySharedCacheTableLock m p db iTable eLock = some (m, SQLITE_OK))
    (hx : m.exclusive = true → m.pWriter = some p)
    (hk : ∀ k ∈ m.pLock, k.pBtree ≠ p → k.iTable = iTable → k.eLock = eLock) :
    ∃ r, setSharedCacheTableLock m p db iTable eLock malloc = some r ∧ Inv r.1 ∧ ∀ q i,
      lockIn r.1.pLock q i = if q = p ∧ i = iTable ∧ r.2 = SQLITE_OK then max (lockIn m.pLock q i) eLock
        else lockIn m.pLock q i := by
  -- a handle that may write is the only one
  have hread : ∀ k ∈ m.pLock, k.pBtree ≠ p → k.iTable = iTable →
      k.eLock = READ_LOCK ∧ eLock = READ_LOCK := by
    intro k hm hne ht
    have hkE := hk k hm hne ht
    rcases he with he | he
    · exact ⟨hkE.trans he, he⟩
    · have hp : m.pWriter = some p := by
        rw [← h.writer]
        refine le_antisymm (h.trans_le p) ?_
        rwa [he] at hle
      have hother := h.writer_of_lock hm (hkE.trans he)
      exact absurd (Option.some.inj (hother.symm.trans hp)) hne
  have hq' : (querySharedCacheTableLock m p db iTable eLock).map Prod.snd = some SQLITE_OK := by
    rw [hq]
    rfl
  rw [setSharedCacheTableLock, guard, if_pos he, guard, if_pos hdb, guard, if_pos hs, guard,
    if_pos hq']
  cases hr : raiseLock p iTable eLock m.pLock with
  | some l =>
    obtain ⟨hkey, hmem⟩ := raiseLock_some hr
    refine ⟨_, rfl, ?_, fun q i => ?_⟩
    swap
    · simpa using lockIn_raise hr
    by_cases hch : ∃ a ∈ m.pLock, a.iTable = iTable ∧ a.pBtree = p ∧ eLock ≤ a.eLock
    · -- the lock is strong enough as it is
      obtain ⟨a, ha, hat, hap, hae⟩ := hch
      have hold : ∀ k ∈ l, k ∈ m.pLock := by
        intro k hkl
        rcases hmem k hkl with hkm | ⟨b, hb, hbt, hbp, rfl⟩
        · exact hkm
        · have hab : b = a := by
            refine List.inj_on_of_nodup_map h.once hb ha ?_
            rw [BtLock.key, BtLock.key, hbt, hbp, hat, hap]
          subst hab
          rwa [max_eq_left hae]
      exact h.setLocks hle hs hx hread
        (fun q i hqi => by rwa [hkey]) (fun k hkl => Or.inl (hold k hkl)) (by rw [hkey]; exact h.once)
    · refine h.setLocks hle hs hx hread
        (fun q i hqi => by rwa [hkey]) ?_ (by rw [hkey]; exact h.once)
      intro k hkl
      rcases hmem k hkl with hkm | ⟨b, hb, hbt, hbp, rfl⟩
      · exact Or.inl hkm
      · have hlt : b.eLock ≤ eLock := by
          by_contra hc
          exact hch ⟨b, hb, hbt, hbp, le_of_not_ge hc⟩
        refine Or.inr ⟨hbp, hbt, max_eq_right hlt, ?_, (h.lock b hb).embedded⟩
        rwa [max_eq_right hlt]
  | none =>
    cases malloc with
    | false =>
      refine ⟨_, rfl, h, fun q i => (if_neg fun hc => ?_).symm⟩
      cases hc.2.2
    | true =>
      have hnot := raiseLock_none hr
      refine ⟨_, rfl, h.setLocks hle hs hx hread
        (fun q i hqi => List.mem_cons_of_mem _ hqi) ?_ (List.nodup_cons.mpr ⟨hnot, h.once⟩), fun q i => ?_⟩
      swap
      · rw [lockIn]
        by_cases hq : q = p ∧ i = iTable
        · obtain ⟨rfl, rfl⟩ := hq
          rw [if_pos ⟨rfl, rfl⟩, if_pos ⟨rfl, rfl, rfl⟩, lockIn_eq_zero hnot, Nat.zero_max]
        · rw [if_neg fun hc => hq ⟨hc.1.symm, hc.2.symm⟩, if_neg fun hc => hq ⟨hc.1, hc.2.1⟩]
      intro k hkl
      rcases List.mem_cons.mp hkl with rfl | hkl
      · refine Or.inr ⟨rfl, rfl, rfl, he, ?_⟩
        have hne : iTable ≠ 1 := by
          rintro rfl
          refine hnot (h.master p hs ?_)
          intro h0
          rw [h0] at hle
          rcases he with he | he <;> rw [he] at hle <;> cases hle
        simp [hne]
      · exact Or.inl hkl

theorem Inv.lockTable (h : Inv m) {db : Connection} {iTab : ℕ} {isWriteLock malloc : Bool}
    (hl : (Op.lockTable p db iTab isWriteLock malloc).Legal m) :
    ∃ r, sqlite3BtreeLockTable m p db iTab isWriteLock malloc = some r ∧ Inv r.1 ∧ ∀ q i,
      lockIn r.1.pLock q i =
        if q = p ∧ i = iTab ∧ (m.handle p).sharable = true ∧ r.2 = SQLITE_OK then
          max (lockIn m.pLock q i) (READ_LOCK + isWriteLock.toNat)
        else lockIn m.pLock q i := by
  obtain ⟨ht, hl⟩ := hl
  rw [sqlite3BtreeLockTable, guard, if_pos ht]
  by_cases hs : (m.handle p).sharable = true
  · obtain ⟨hdb, hw, hset⟩ := hl hs
    generalize hE : READ_LOCK + isWriteLock.toNat = eLock at *
    have hkind : eLock = READ_LOCK ∧ isWriteLock = false ∨
        eLock = WRITE_LOCK ∧ isWriteLock = true := by
      subst hE
      cases isWriteLock
      · exact Or.inl ⟨rfl, rfl⟩
      · exact Or.inr ⟨rfl, rfl⟩
    have hwl : eLock = WRITE_LOCK → isWriteLock = true := by
      rcases hkind with ⟨hk, -⟩ | ⟨-, hk⟩
      · intro hc
        rw [hk] at hc
        cases hc
      · exact fun _ => hk
    have hlw : isWriteLock = true → eLock = WRITE_LOCK := by
      rintro rfl
      exact hE.symm
    have hle : eLock ≤ (m.handle p).inTrans := by
      rcases hkind with ⟨hk, -⟩ | ⟨hk, hb⟩
      · rw [hk]
        exact Nat.one_le_iff_ne_zero.mpr ht
      · rw [hk, hw hb]
        exact le_rfl
    obtain ⟨m', rc, hq, hinv, hlock, -, hok⟩ := h.query p db iTab (hkind.imp And.left And.left)
      (hdb.imp_right (Or.imp_left hlw)) (fun hk => hw (hwl hk))
    by_cases hrc : rc = SQLITE_OK
    · obtain ⟨rfl, hfree⟩ := hok hrc
      obtain ⟨hx, hk⟩ := hfree hs
      subst hrc
      have hsnd : (querySharedCacheTableLock m' p db iTab eLock).map Prod.snd = some SQLITE_OK := by
        rw [hq]
        rfl
      obtain ⟨r, hr, hinv', hlocks⟩ := h.setTableLock malloc (hkind.imp And.left And.left)
        ((hset hsnd).imp_right hlw) hs hle hq hx hk
      refine ⟨r, ?_, hinv', fun q i => by simpa [hs] using hlocks q i⟩
      refine (if_pos hs).trans ?_
      rw [hq]
      exact hr
    · refine ⟨(m', rc), ?_, hinv, fun q i => ?_⟩
      swap
      · rw [if_neg fun hc => hrc hc.2.2.2, hlock]
      refine (if_pos hs).trans ?_
      rw [hq]
      exact if_neg hrc
  · exact ⟨(m, SQLITE_OK), if_neg hs, h, fun q i => (if_neg fun hc => hs hc.2.2.1).symm⟩

end Sqlite.SharedCache

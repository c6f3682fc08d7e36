import Sqlite.SharedCache.Calls

/-! How a transaction begins: the handle enters as a reader, and a writer goes on from there. -/
namespace Sqlite.SharedCache

variable {β : Type} [DecidableEq β] [Fintype β] {m : BtShared β} {p : β}

/-- The lock of `q` on a table when `p` is in the state of `m'`: to begin is to lock the schema
table. -/
def beginLock (m m' : BtShared β) (p q : β) (i : ℕ) : ℕ :=
  if q = p ∧ i = MASTER_ROOT ∧ (m.handle p).sharable ∧ (m'.handle p).inTrans ≠ TRANS_NONE then
    max (lockIn m.pLock q i) READ_LOCK
  else lockIn m.pLock q i

theorem Inv.beginLock_same (h : Inv m) {m' : BtShared β}
    (hp : (m'.handle p).inTrans = (m.handle p).inTrans) (q : β) (i : ℕ) :
    beginLock m m' p q i = lockIn m.pLock q i := by
  unfold beginLock
  split_ifs with hc
  · obtain ⟨rfl, rfl, hs, ht⟩ := hc
    exact max_eq_left (h.lockIn_master hs (hp ▸ ht))
  · rfl

theorem Inv.lockIn_push (h : Inv m) (hp : (m.handle p).inTrans = TRANS_NONE) {m' : BtShared β}
    (ht : (m'.handle p).inTrans ≠ TRANS_NONE) (q : β) (i : ℕ) :
    lockIn (pushLock m p).pLock q i = beginLock m m' p q i := by
  unfold pushLock beginLock
  dsimp only
  by_cases hs : (m.handle p).sharable = true
  · rw [if_pos hs, lockIn]
    by_cases hq : p = q ∧ 1 = i
    · obtain ⟨rfl, rfl⟩ := hq
      rw [if_pos ⟨rfl, rfl⟩, if_pos ⟨rfl, rfl, hs, ht⟩, h.lockIn_idle hp]
      rfl
    · rw [if_neg hq, if_neg fun hc => hq ⟨hc.1.symm, hc.2.1.symm⟩]
  · rw [if_neg hs, if_neg fun hc => hs hc.2.2.1]

theorem Inv.enterRead (h : Inv m) (hp : (m.handle p).inTrans = TRANS_NONE)
    (hx : m.exclusive = false) (hfree : (m.handle p).sharable = true →
      ∀ k ∈ m.pLock, k.pBtree ≠ p → k.iTable = MASTER_ROOT → k.eLock = READ_LOCK) :
    Inv { setTrans (pushLock m p) p TRANS_READ with
      inTransaction := max m.inTransaction TRANS_READ } := by
  have hlocks : (pushLock m p).pLock = m.pLock ∨ (m.handle p).sharable = true ∧
      (pushLock m p).pLock = ⟨p, 1, READ_LOCK, true⟩ :: m.pLock := by
    by_cases hs : (m.handle p).sharable = true
    · exact Or.inr ⟨hs, if_pos hs⟩
    · exact Or.inl (if_neg hs)
  have hnone : ∀ k ∈ m.pLock, k.pBtree ≠ p := fun k hk hkp => (h.lock k hk).active (hkp ▸ hp)
  have hmem : ∀ k ∈ (pushLock m p).pLock, k ∈ m.pLock ∨ (m.handle p).sharable = true ∧
      k = ⟨p, 1, READ_LOCK, true⟩ := by
    intro k hk
    rcases hlocks with he | ⟨hs, he⟩
    · rw [he] at hk
      exact Or.inl hk
    · rw [he] at hk
      exact (List.mem_cons.mp hk).symm.imp_right fun hk => ⟨hs, hk⟩
  have hmax : max m.inTransaction TRANS_READ = TRANS_WRITE ↔ m.inTransaction = TRANS_WRITE := by
    have htop := h.top
    unfold TRANS_WRITE TRANS_READ at *
    omega
  constructor
  case alone =>
    intro q r hqr
    exact (setTrans_sharable _ q).trans (h.alone q r hqr)
  case writer =>
    intro q
    change ((setTrans (pushLock m p) p TRANS_READ).handle q).inTrans = _ ↔ m.pWriter = some q
    by_cases hq : q = p
    · subst hq
      rw [setTrans_handle_self, ← h.writer, hp]
      exact ⟨fun hc => (by cases hc), fun hc => (by cases hc)⟩
    · rw [setTrans_handle_of_ne _ hq]
      exact h.writer q
  case shared => exact hmax.trans h.shared
  case top => exact max_le h.top (by decide)
  case le =>
    intro q
    change ((setTrans (pushLock m p) p TRANS_READ).handle q).inTrans ≤ _
    by_cases hq : q = p
    · subst hq
      rw [setTrans_handle_self]
      exact le_max_right _ _
    · rw [setTrans_handle_of_ne _ hq]
      exact le_trans (h.le q) (le_max_left _ _)
  case count =>
    have hcard : (active (setTrans (pushLock m p) p TRANS_READ)).card = (active m).card + 1 := by
      rw [active_enter (by decide)]
      exact Finset.card_insert_of_notMem fun hc => mem_active.mp hc hp
    change m.nTransaction + 1 = ((active (setTrans (pushLock m p) p TRANS_READ)).card : ℤ)
    rw [hcard, h.count]
    rfl
  case idle =>
    intro h0
    have hpos : 0 ≤ m.nTransaction := by
      rw [h.count]
      exact Int.natCast_nonneg _
    change m.nTransaction + 1 = 0 at h0
    omega
  case lock =>
    intro k hk
    rcases hmem k hk with hk | ⟨hs, rfl⟩
    · refine (h.lock k hk).congr ?_ (setTrans_sharable _ _)
      change _ ≤ ((setTrans (pushLock m p) p TRANS_READ).handle k.pBtree).inTrans
      rw [setTrans_handle_of_ne _ (hnone k hk)]
      exact le_rfl
    · refine ⟨Or.inl rfl, ?_, (setTrans_sharable _ _).trans hs, fun _ => rfl, fun _ => rfl⟩
      change _ ≤ ((setTrans (pushLock m p) p TRANS_READ).handle p).inTrans
      rw [setTrans_handle_self]
      exact le_rfl
  case once =>
    change ((pushLock m p).pLock.map BtLock.key).Nodup
    rcases hlocks with he | ⟨-, he⟩
    · rw [he]
      exact h.once
    · rw [he, List.map_cons, List.nodup_cons]
      refine ⟨fun hc => ?_, h.once⟩
      obtain ⟨k, hk, hkey⟩ := List.mem_map.mp hc
      exact hnone k hk (congrArg Prod.fst hkey)
  case master =>
    intro q hs hq
    have hs' : (m.handle q).sharable = true := (setTrans_sharable TRANS_READ q).symm.trans hs
    change (q, 1) ∈ (pushLock m p).pLock.map BtLock.key
    rcases hlocks with he | ⟨-, he⟩
    · by_cases hqp : q = p
      · subst hqp
        rw [pushLock, if_pos hs'] at he
        exact absurd he (List.cons_ne_self _ _)
      · change ((setTrans (pushLock m p) p TRANS_READ).handle q).inTrans ≠ _ at hq
        rw [setTrans_handle_of_ne _ hqp] at hq
        rw [he]
        exact h.master q hs' hq
    · rw [he, List.map_cons]
      by_cases hqp : q = p
      · subst hqp
        exact List.mem_cons_self
      · change ((setTrans (pushLock m p) p TRANS_READ).handle q).inTrans ≠ _ at hq
        rw [setTrans_handle_of_ne _ hqp] at hq
        exact List.mem_cons_of_mem _ (h.master q hs' hq)
  case apart =>
    intro k hk k' hk' ht hne
    rcases hmem k hk with hk | ⟨hs, rfl⟩
    · rcases hmem k' hk' with hk' | ⟨hs, rfl⟩
      · exact h.apart k hk k' hk' ht hne
      · exact hfree hs k hk hne ht
    · rfl
  case exclusive =>
    intro hc
    change m.exclusive = true at hc
    rw [hx] at hc
    cases hc
  case pending =>
    intro hc
    obtain ⟨w, hw, q, hqw, hq⟩ := h.pending hc
    refine ⟨w, hw, q, hqw, ?_⟩
    change ((setTrans (pushLock m p) p TRANS_READ).handle q).inTrans ≠ _
    by_cases hqp : q = p
    · subst hqp
      exact absurd hp hq
    · rwa [setTrans_handle_of_ne _ hqp]

theorem Inv.enterWrite (h : Inv m) (hp : (m.handle p).inTrans = TRANS_READ)
    (hw : m.pWriter = none) (hd : m.pending = false) {x : Bool}
    (hx : x = true → ∀ k ∈ m.pLock, k.pBtree = p) :
    Inv { setTrans m p TRANS_WRITE with
      inTransaction := TRANS_WRITE, pWriter := some p, exclusive := x } := by
  have hpa : (m.handle p).inTrans ≠ TRANS_NONE := by
    rw [hp]
    decide
  have hup : ∀ q, (m.handle q).inTrans ≤ ((setTrans m p TRANS_WRITE).handle q).inTrans := by
    intro q
    by_cases hq : q = p
    · subst hq
      rw [setTrans_handle_self, hp]
      exact (by decide : TRANS_READ ≤ TRANS_WRITE)
    · rw [setTrans_handle_of_ne _ hq]
  constructor
  case alone =>
    intro q r hqr
    exact (setTrans_sharable _ q).trans (h.alone q r hqr)
  case writer =>
    intro q
    change ((setTrans m p TRANS_WRITE).handle q).inTrans = _ ↔ some p = some q
    by_cases hq : q = p
    · subst hq
      rw [setTrans_handle_self]
      exact ⟨fun _ => rfl, fun _ => rfl⟩
    · rw [setTrans_handle_of_ne _ hq, h.writer, hw]
      exact ⟨fun hc => (by cases hc), fun hc => absurd (Option.some.inj hc).symm hq⟩
  case shared => exact ⟨fun _ => Option.some_ne_none p, fun _ => rfl⟩
  case top => exact le_rfl
  case le =>
    intro q
    change ((setTrans m p TRANS_WRITE).handle q).inTrans ≤ TRANS_WRITE
    by_cases hq : q = p
    · subst hq
      rw [setTrans_handle_self]
    · rw [setTrans_handle_of_ne _ hq]
      exact h.trans_le q
  case count =>
    have hact : active (setTrans m p TRANS_WRITE) = active m := by
      rw [active_enter (by decide)]
      exact Finset.insert_eq_of_mem (mem_active.mpr hpa)
    change m.nTransaction = ((active (setTrans m p TRANS_WRITE)).card : ℤ)
    rw [hact, h.count]
  case idle =>
    intro h0
    change m.nTransaction = 0 at h0
    rw [h.count] at h0
    have hpos := Finset.card_pos.mpr ⟨p, mem_active.mpr hpa⟩
    omega
  case lock => exact fun k hk => (h.lock k hk).congr (hup _) (setTrans_sharable _ _)
  case once => exact h.once
  case master =>
    intro q hs hq
    have hs' : (m.handle q).sharable = true := (setTrans_sharable TRANS_WRITE q).symm.trans hs
    change ((setTrans m p TRANS_WRITE).handle q).inTrans ≠ _ at hq
    by_cases hqp : q = p
    · subst hqp
      exact h.master q hs' hpa
    · rw [setTrans_handle_of_ne _ hqp] at hq
      exact h.master q hs' hq
  case apart => exact h.apart
  case exclusive => exact fun hc => ⟨p, rfl, hx hc⟩
  case pending =>
    intro hc
    change m.pending = true at hc
    rw [hd] at hc
    cases hc

omit [Fintype β] in
theorem transOpened_read {n : BtShared β}
    (hn : (if (m.handle p).inTrans = TRANS_NONE then pushLock m p else m) = n) :
    transOpened m p 0 =
      some { setTrans n p TRANS_READ with inTransaction := max n.inTransaction TRANS_READ } := by
  subst hn
  unfold transOpened
  simp only [setTrans_handle_self]
  rfl

omit [Fintype β] in
theorem transOpened_write {n : BtShared β} {wrflag : ℕ} (hwr : wrflag ≠ 0)
    (hn : (if (m.handle p).inTrans = TRANS_NONE then pushLock m p else m) = n)
    (hw : n.pWriter = none) (htop : n.inTransaction ≤ TRANS_WRITE) :
    transOpened m p wrflag = some { setTrans n p TRANS_WRITE with
      inTransaction := TRANS_WRITE, pWriter := some p, exclusive := decide (1 < wrflag) } := by
  subst hn
  unfold transOpened
  generalize (if (m.handle p).inTrans = TRANS_NONE then pushLock m p else m) = n at *
  simp only [if_pos hwr, setTrans_handle_self]
  have hmax : max (setTrans n p TRANS_WRITE).inTransaction TRANS_WRITE = TRANS_WRITE :=
    max_eq_right htop
  have hg : (setTrans n p TRANS_WRITE).pWriter = none := hw
  rw [hmax, guard, if_pos hg]
  rfl

omit [DecidableEq β] in
theorem Inv.readOnly (h : Inv m) (b : Bool) : Inv { m with readOnly := b } :=
  { h with
    count := h.count
    lock := fun k hk => (h.lock k hk).congr le_rfl rfl }

omit [DecidableEq β] [Fintype β] in
theorem attemptLoop_eq (wrflag : ℕ) (l : List Attempt) (m : BtShared β) (a : Attempt) :
    ∃ b rc, attemptLoop wrflag m a l = ({ m with readOnly := b }, rc) := by
  have hone : ∀ (m : BtShared β) (a : Attempt), ∃ b rc,
      attempt m wrflag a = ({ m with readOnly := b }, rc) := by
    intro m a
    unfold attempt
    dsimp only
    split_ifs <;> exact ⟨_, _, rfl⟩
  induction l generalizing m a with
  | nil => exact hone m a
  | cons c l ih =>
    obtain ⟨b, rc, hr⟩ := hone m a
    rw [attemptLoop, hr]
    dsimp only
    split_ifs with hc
    · obtain ⟨b', rc', hr'⟩ := ih { m with readOnly := b } c
      exact ⟨b', rc', hr'⟩
    · exact ⟨b, rc, rfl⟩

/-- The writer is there to be named when there is one in the way. -/
theorem Inv.blocked (h : Inv m) (p : β) (wrflag : ℕ) : ∃ b, blocked m p wrflag = some b ∧
    (b = false → (wrflag ≠ 0 → m.pWriter = none) ∧ m.pending = false ∧
      (1 < wrflag → ∀ k ∈ m.pLock, k.pBtree = p)) := by
  unfold SharedCache.blocked
  by_cases hc : (wrflag ≠ 0 ∧ m.inTransaction = TRANS_WRITE) ∨ m.pending = true
  · have hsome : m.pWriter.isSome = true := by
      rw [Option.isSome_iff_ne_none]
      rcases hc with ⟨-, hc⟩ | hc
      · exact h.shared.mp hc
      · obtain ⟨w, hw, -⟩ := h.pending hc
        rw [hw]
        exact Option.some_ne_none w
    refine ⟨true, ?_, fun hf => by cases hf⟩
    rw [if_pos hc, guard, if_pos hsome]
    rfl
  · rw [if_neg hc]
    rw [not_or, not_and] at hc
    have hw : wrflag ≠ 0 → m.pWriter = none := by
      intro hwr
      by_contra hne
      exact hc.1 hwr (h.shared.mpr hne)
    have hd : m.pending = false := Bool.not_eq_true _ ▸ hc.2
    by_cases hx : 1 < wrflag
    · refine ⟨_, if_pos hx, fun hf => ⟨hw, hd, fun _ k hk => ?_⟩⟩
      by_contra hne
      rw [List.any_eq_false] at hf
      exact hf k hk (decide_eq_true hne)
    · exact ⟨false, if_neg hx, fun _ => ⟨hw, hd, fun hc => absurd hc hx⟩⟩

theorem Inv.transOpened (h : Inv m) {wrflag : ℕ} (hne : (m.handle p).inTrans ≠ TRANS_WRITE)
    (hgo : (m.handle p).inTrans = TRANS_READ → wrflag ≠ 0)
    (hw : wrflag ≠ 0 → m.pWriter = none) (hd : m.pending = false)
    (hall : 1 < wrflag → ∀ k ∈ m.pLock, k.pBtree = p)
    (hfree : (m.handle p).sharable = true → (m.exclusive = true → m.pWriter = some p) ∧
      ∀ k ∈ m.pLock, k.pBtree ≠ p → k.iTable = MASTER_ROOT → k.eLock = READ_LOCK) :
    ∃ m', transOpened m p wrflag = some m' ∧ Inv m' ∧
      ∀ q i, lockIn m'.pLock q i = beginLock m m' p q i := by
  have hx : m.exclusive = false := by
    by_contra hc
    rw [Bool.not_eq_false] at hc
    obtain ⟨w, hmw, -⟩ := h.exclusive hc
    have hwp : w ≠ p := by
      rintro rfl
      exact hne ((h.writer w).mpr hmw)
    have hp := (hfree (h.alone p w (Ne.symm hwp))).1 hc
    exact hwp (Option.some.inj (hmw.symm.trans hp))
  by_cases h0 : (m.handle p).inTrans = TRANS_NONE
  · have hread := h.enterRead h0 hx fun hs => (hfree hs).2
    by_cases hwr : wrflag = 0
    · subst hwr
      refine ⟨_, transOpened_read (if_pos h0), hread, h.lockIn_push h0 ?_⟩
      change ((setTrans (pushLock m p) p TRANS_READ).handle p).inTrans ≠ TRANS_NONE
      rw [setTrans_handle_self]
      exact (by decide : TRANS_READ ≠ TRANS_NONE)
    · refine ⟨_, transOpened_write hwr (if_pos h0) (hw hwr) h.top, ?_, h.lockIn_push h0 ?_⟩
      swap
      · change ((setTrans (pushLock m p) p TRANS_WRITE).handle p).inTrans ≠ TRANS_NONE
        rw [setTrans_handle_self]
        exact (by decide : TRANS_WRITE ≠ TRANS_NONE)
      have hrp : ((setTrans (pushLock m p) p TRANS_READ).handle p).inTrans = TRANS_READ := by
        rw [setTrans_handle_self]
      have hwrite := hread.enterWrite (p := p) (x := decide (1 < wrflag)) hrp (hw hwr) hd ?_
      · have hidem : setTrans { setTrans (pushLock m p) p TRANS_READ with
            inTransaction := max m.inTransaction TRANS_READ } p TRANS_WRITE =
            { setTrans (pushLock m p) p TRANS_WRITE with
              inTransaction := max m.inTransaction TRANS_READ } := by
          unfold setTrans
          simp only [Function.update_self, Function.update_idem]
        rw [hidem] at hwrite
        exact hwrite
      · intro hx k hk
        change k ∈ (pushLock m p).pLock at hk
        unfold pushLock at hk
        dsimp only at hk
        split_ifs at hk
        · rcases List.mem_cons.mp hk with rfl | hk
          · rfl
          · exact hall (of_decide_eq_true hx) k hk
        · exact hall (of_decide_eq_true hx) k hk
  · have hp : (m.handle p).inTrans = TRANS_READ :=
      le_antisymm (Nat.le_of_lt_succ (lt_of_le_of_ne (h.trans_le p) hne))
        (Nat.one_le_iff_ne_zero.mpr h0)
    have hwr := hgo hp
    refine ⟨_, transOpened_write hwr (if_neg h0) (hw hwr) h.top,
      h.enterWrite hp (hw hwr) hd fun hx => hall (of_decide_eq_true hx), fun q i => ?_⟩
    -- the lock on the schema table is from the time when it was a reader
    unfold beginLock
    split_ifs with hc
    · obtain ⟨rfl, rfl, hs, -⟩ := hc
      exact (max_eq_left (h.lockIn_master hs h0)).symm
    · rfl

omit [DecidableEq β] in
theorem Inv.transBegun (h : Inv m) (p : β) (wrflag rc savepointRc : ℕ) :
    ∃ rc', transBegun m p wrflag rc savepointRc = some (m, rc') := by
  refine ⟨if rc = SQLITE_OK ∧ wrflag ≠ 0 then savepointRc else rc, ?_⟩
  unfold SharedCache.transBegun
  rw [h.integrity p]
  rfl

theorem Inv.beginTrans (h : Inv m) (p : β) (db : Connection) (wrflag : ℕ) (pager : Pager) :
    ∃ r, sqlite3BtreeBeginTrans m p db wrflag pager = some r ∧ Inv r.1 ∧
      ∀ q i, lockIn r.1.pLock q i = beginLock m r.1 p q i := by
  unfold sqlite3BtreeBeginTrans
  rw [h.integrity p]
  by_cases hno : (m.handle p).inTrans = TRANS_WRITE ∨
      (m.handle p).inTrans = TRANS_READ ∧ wrflag = 0
  · obtain ⟨rc, hr⟩ := h.transBegun p wrflag SQLITE_OK pager.savepointRc
    exact ⟨_, (if_pos hno).trans hr, h, fun q i => (h.beginLock_same rfl q i).symm⟩
  by_cases hro : m.readOnly = true ∧ wrflag ≠ 0
  · obtain ⟨rc, hr⟩ := h.transBegun p wrflag SQLITE_READONLY pager.savepointRc
    exact ⟨_, (if_neg hno).trans ((if_pos hro).trans hr), h,
      fun q i => (h.beginLock_same rfl q i).symm⟩
  obtain ⟨b, hb, hgo⟩ := h.blocked p wrflag
  obtain ⟨m', rc, hq, hinv, hlock, hhand, hok⟩ := h.query p db MASTER_ROOT (Or.inl rfl) (Or.inr (Or.inr rfl))
    (fun hc => by cases hc)
  rw [if_neg hno, if_neg hro, hb]
  rw [not_or, not_and] at hno
  cases b with
  | true =>
    obtain ⟨rc', hr⟩ := h.transBegun p wrflag SQLITE_LOCKED_SHAREDCACHE pager.savepointRc
    exact ⟨_, hr, h, fun q i => (h.beginLock_same rfl q i).symm⟩
  | false =>
    by_cases hrc : rc = SQLITE_OK
    · obtain ⟨rfl, hfree⟩ := hok hrc
      obtain ⟨hw, hd, hall⟩ := hgo rfl
      obtain ⟨ro, rc₁, hloop⟩ := attemptLoop_eq wrflag pager.more m' pager.first
      by_cases hrc₁ : rc₁ = SQLITE_OK
      · obtain ⟨m₂, hop, hinv₂, hlock₂⟩ := (h.readOnly ro).transOpened hno.1 hno.2 hw hd hall hfree
        obtain ⟨rc₂, hr⟩ := hinv₂.transBegun p wrflag (if wrflag ≠ 0 then pager.headerRc else rc₁)
          pager.savepointRc
        refine ⟨(m₂, rc₂), ?_, hinv₂, hlock₂⟩
        rw [hq]
        refine (if_neg (not_not.mpr hrc)).trans ?_
        rw [hloop]
        refine (if_pos hrc₁).trans ?_
        rw [hop]
        exact hr
      · obtain ⟨rc₂, hr⟩ := (h.readOnly ro).transBegun p wrflag rc₁ pager.savepointRc
        refine ⟨(_, rc₂), ?_, h.readOnly ro, fun q i => (h.beginLock_same rfl q i).symm⟩
        rw [hq]
        refine (if_neg (not_not.mpr hrc)).trans ?_
        rw [hloop]
        exact (if_neg hrc₁).trans hr
    · obtain ⟨rc₂, hr⟩ := hinv.transBegun p wrflag rc pager.savepointRc
      refine ⟨(m', rc₂), ?_, hinv, fun q i => ?_⟩
      swap
      · rw [hlock]
        exact (h.beginLock_same (congrArg (fun f => (f p).inTrans) hhand) q i).symm
      rw [hq]
      exact (if_pos hrc).trans hr

end Sqlite.SharedCache

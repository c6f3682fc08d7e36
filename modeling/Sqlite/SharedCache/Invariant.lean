import Mathlib.Data.Finset.Card
import Mathlib.Data.List.Nodup
import Sqlite.SharedCache.Model

/-! What holds between calls, and what the loops over the locks do then. -/
namespace Sqlite.SharedCache

variable {β : Type} [DecidableEq β] {m : BtShared β} {p : β}

def BtLock.key (k : BtLock β) : β × ℕ := (k.pBtree, k.iTable)

/-- The lock of `p` on a table among `l`, 0 if there is none. -/
def lockIn : List (BtLock β) → β → ℕ → ℕ
  | [], _, _ => 0
  | k :: l, p, i => if k.pBtree = p ∧ k.iTable = i then k.eLock else lockIn l p i

/-- The handles that are in a transaction. -/
def active [Fintype β] (m : BtShared β) : Finset β :=
  Finset.univ.filter fun p => (m.handle p).inTrans ≠ TRANS_NONE

structure LockOk (m : BtShared β) (k : BtLock β) : Prop where
  kind : k.eLock = READ_LOCK ∨ k.eLock = WRITE_LOCK
  le : k.eLock ≤ (m.handle k.pBtree).inTrans
  sharable : (m.handle k.pBtree).sharable = true
  embedded : k.embedded = true ↔ k.iTable = 1

structure Inv [Fintype β] (m : BtShared β) : Prop where
  alone : ∀ p q, p ≠ q → (m.handle p).sharable = true
  writer : ∀ p, (m.handle p).inTrans = TRANS_WRITE ↔ m.pWriter = some p
  shared : m.inTransaction = TRANS_WRITE ↔ m.pWriter ≠ none
  top : m.inTransaction ≤ TRANS_WRITE
  le : ∀ p, (m.handle p).inTrans ≤ m.inTransaction
  count : m.nTransaction = (active m).card
  idle : m.nTransaction = 0 → m.inTransaction = TRANS_NONE
  lock : ∀ k ∈ m.pLock, LockOk m k
  once : (m.pLock.map BtLock.key).Nodup
  master : ∀ p, (m.handle p).sharable = true → (m.handle p).inTrans ≠ TRANS_NONE →
    (p, 1) ∈ m.pLock.map BtLock.key
  apart : ∀ k ∈ m.pLock, ∀ k' ∈ m.pLock, k.iTable = k'.iTable → k.pBtree ≠ k'.pBtree →
    k.eLock = READ_LOCK
  exclusive : m.exclusive = true → ∃ w, m.pWriter = some w ∧ ∀ k ∈ m.pLock, k.pBtree = w
  pending : m.pending = true →
    ∃ w, m.pWriter = some w ∧ ∃ q, q ≠ w ∧ (m.handle q).inTrans ≠ TRANS_NONE

@[simp] theorem setTrans_handle_self (t : ℕ) :
    (setTrans m p t).handle p = { m.handle p with inTrans := t } :=
  Function.update_self ..

theorem setTrans_handle_of_ne {q : β} (t : ℕ) (hq : q ≠ p) :
    (setTrans m p t).handle q = m.handle q :=
  Function.update_of_ne hq ..

@[simp] theorem setTrans_sharable (t : ℕ) (q : β) :
    ((setTrans m p t).handle q).sharable = (m.handle q).sharable := by
  by_cases hq : q = p
  · subst hq
    rw [setTrans_handle_self]
  · rw [setTrans_handle_of_ne t hq]

theorem setTrans_same {t : ℕ} (h : (m.handle p).inTrans = t) : setTrans m p t = m := by
  unfold setTrans
  subst h
  rw [Function.update_eq_self]

section Active
variable [Fintype β]

omit [DecidableEq β] in
theorem mem_active {q : β} : q ∈ active m ↔ (m.handle q).inTrans ≠ TRANS_NONE := by
  simp [active]

theorem active_enter {t : ℕ} (ht : t ≠ TRANS_NONE) :
    active (setTrans m p t) = insert p (active m) := by
  ext q
  rw [Finset.mem_insert, mem_active, mem_active]
  by_cases hq : q = p
  · subst hq
    simp [ht]
  · simp [setTrans_handle_of_ne t hq, hq]

theorem active_leave : active (setTrans m p TRANS_NONE) = (active m).erase p := by
  ext q
  rw [Finset.mem_erase, mem_active, mem_active]
  by_cases hq : q = p
  · subst hq
    simp
  · simp [setTrans_handle_of_ne _ hq, hq]

end Active

omit [DecidableEq β] in
theorem LockOk.active {k : BtLock β} (h : LockOk m k) :
    (m.handle k.pBtree).inTrans ≠ TRANS_NONE := by
  intro h0
  have hle := h.le
  rw [h0] at hle
  rcases h.kind with hk | hk <;> rw [hk] at hle <;> cases hle

omit [DecidableEq β] in
/-- A lock only depends on its handle. -/
theorem LockOk.congr {m' : BtShared β} {k : BtLock β} (h : LockOk m k)
    (ht : (m.handle k.pBtree).inTrans ≤ (m'.handle k.pBtree).inTrans)
    (hs : (m'.handle k.pBtree).sharable = (m.handle k.pBtree).sharable) : LockOk m' k :=
  ⟨h.kind, le_trans h.le ht, by rw [hs, h.sharable], h.embedded⟩

section Facts
variable [Fintype β]

omit [DecidableEq β] in
theorem Inv.trans_le (h : Inv m) (q : β) : (m.handle q).inTrans ≤ TRANS_WRITE :=
  le_trans (h.le q) h.top

omit [DecidableEq β] in
theorem Inv.integrity (h : Inv m) (p : β) : btreeIntegrity m p = some () := by
  have h1 : m.inTransaction ≠ TRANS_NONE ∨ m.nTransaction = 0 := by
    by_cases h0 : m.inTransaction = TRANS_NONE
    · right
      have hempty : active m = ∅ := by
        rw [Finset.eq_empty_iff_forall_notMem]
        intro q hq
        have hle := h.le q
        rw [h0] at hle
        exact mem_active.mp hq (Nat.le_zero.mp hle)
      rw [h.count, hempty]
      rfl
    · exact Or.inl h0
  unfold btreeIntegrity
  rw [guard, if_pos h1, guard, if_pos (h.le p)]
  rfl

omit [DecidableEq β] in
theorem Inv.writer_of_lock (h : Inv m) {k : BtLock β} (hk : k ∈ m.pLock)
    (hw : k.eLock = WRITE_LOCK) : m.pWriter = some k.pBtree := by
  rw [← h.writer]
  refine le_antisymm (h.trans_le _) ?_
  have hle := (h.lock k hk).le
  rwa [hw] at hle

omit [DecidableEq β] in
/-- The writer is in a transaction. -/
theorem Inv.writer_active (h : Inv m) {w : β} (hw : m.pWriter = some w) : w ∈ active m := by
  rw [mem_active, (h.writer w).mpr hw]
  decide

end Facts

/-- The test of the loop suffices: no other handle has a lock in its way. -/
theorem queryLoop_spec {iTab eLock : ℕ} (he : eLock = READ_LOCK ∨ eLock = WRITE_LOCK)
    (hw : eLock = WRITE_LOCK → m.pWriter = some p) (l : List (BtLock β))
    (hl : ∀ k ∈ l, (k.eLock = READ_LOCK ∨ k.eLock = WRITE_LOCK) ∧
      (k.eLock = WRITE_LOCK → m.pWriter = some k.pBtree)) :
    (queryLoop m p iTab eLock l = some (m, SQLITE_OK) ∧
      ∀ k ∈ l, k.pBtree ≠ p → k.iTable = iTab → k.eLock = eLock) ∨
    queryLoop m p iTab eLock l = some (m, SQLITE_LOCKED_SHAREDCACHE) ∨
    (queryLoop m p iTab eLock l = some ({ m with pending := true }, SQLITE_LOCKED_SHAREDCACHE) ∧
      m.pWriter = some p ∧ ∃ k ∈ l, k.pBtree ≠ p) := by
  induction l with
  | nil => exact Or.inl ⟨rfl, fun k hk => absurd hk List.not_mem_nil⟩
  | cons a l ih =>
    obtain ⟨hkind, hwr⟩ := hl a List.mem_cons_self
    have hguard : eLock = READ_LOCK ∨ a.pBtree = p ∨ a.eLock = READ_LOCK := by
      rcases he with he | he
      · exact Or.inl he
      · right
        rcases hkind with hk | hk
        · exact Or.inr hk
        · have hp := (hwr hk).symm.trans (hw he)
          exact Or.inl (Option.some.inj hp)
    have hun : queryLoop m p iTab eLock (a :: l) =
        if a.pBtree ≠ p ∧ a.iTable = iTab ∧ a.eLock ≠ eLock then
          if eLock = WRITE_LOCK then do
            guard (m.pWriter = some p)
            return ({ m with pending := true }, SQLITE_LOCKED_SHAREDCACHE)
          else return (m, SQLITE_LOCKED_SHAREDCACHE)
        else queryLoop m p iTab eLock l := by
      rw [queryLoop, guard, if_pos hkind, guard, if_pos hguard]
      rfl
    rw [hun]
    by_cases hc : a.pBtree ≠ p ∧ a.iTable = iTab ∧ a.eLock ≠ eLock
    · rw [if_pos hc]
      by_cases hE : eLock = WRITE_LOCK
      · rw [if_pos hE, guard, if_pos (hw hE)]
        exact Or.inr (Or.inr ⟨rfl, hw hE, a, List.mem_cons_self, hc.1⟩)
      · rw [if_neg hE]
        exact Or.inr (Or.inl rfl)
    · rw [if_neg hc]
      rcases ih (fun k hk => hl k (List.mem_cons_of_mem a hk)) with
        ⟨hr, hk⟩ | hr | ⟨hr, hp, k, hk, hne⟩
      · refine Or.inl ⟨hr, ?_⟩
        intro k hm hne ht
        rcases List.mem_cons.mp hm with rfl | hm
        · by_contra hx
          exact hc ⟨hne, ht, hx⟩
        · exact hk k hm hne ht
      · exact Or.inr (Or.inl hr)
      · exact Or.inr (Or.inr ⟨hr, hp, k, List.mem_cons_of_mem a hk, hne⟩)

theorem raiseLock_none {iTable eLock : ℕ} {l : List (BtLock β)}
    (h : raiseLock p iTable eLock l = none) : (p, iTable) ∉ l.map BtLock.key := by
  induction l with
  | nil => exact List.not_mem_nil
  | cons a l ih =>
    unfold raiseLock at h
    split_ifs at h with hc
    rw [Option.map_eq_none_iff] at h
    rw [List.map_cons, List.mem_cons, not_or]
    refine ⟨?_, ih h⟩
    intro hk
    cases hk
    exact hc ⟨rfl, rfl⟩

theorem raiseLock_some {iTable eLock : ℕ} {l l' : List (BtLock β)}
    (h : raiseLock p iTable eLock l = some l') :
    l'.map BtLock.key = l.map BtLock.key ∧ ∀ k ∈ l', k ∈ l ∨
      ∃ a ∈ l, a.iTable = iTable ∧ a.pBtree = p ∧ k = { a with eLock := max a.eLock eLock } := by
  induction l generalizing l' with
  | nil => cases h
  | cons a l ih =>
    unfold raiseLock at h
    split_ifs at h with hc
    · cases h
      refine ⟨rfl, ?_⟩
      intro k hk
      rcases List.mem_cons.mp hk with rfl | hk
      · exact Or.inr ⟨a, List.mem_cons_self, hc.1, hc.2, rfl⟩
      · exact Or.inl (List.mem_cons_of_mem a hk)
    · rw [Option.map_eq_some_iff] at h
      obtain ⟨r, hr, rfl⟩ := h
      obtain ⟨hkey, hmem⟩ := ih hr
      refine ⟨by rw [List.map_cons, List.map_cons, hkey], ?_⟩
      intro k hk
      rcases List.mem_cons.mp hk with rfl | hk
      · exact Or.inl List.mem_cons_self
      · rcases hmem k hk with hk | ⟨b, hb, hrest⟩
        · exact Or.inl (List.mem_cons_of_mem a hk)
        · exact Or.inr ⟨b, List.mem_cons_of_mem a hb, hrest⟩

/-! The locks of each handle, after the loops. -/

theorem lockIn_eq_zero {l : List (BtLock β)} {i : ℕ} (h : (p, i) ∉ l.map BtLock.key) : lockIn l p i = 0 := by
  induction l with
  | nil => rfl
  | cons a l ih =>
    rw [List.map_cons, List.mem_cons, not_or] at h
    have hne : ¬ (a.pBtree = p ∧ a.iTable = i) := fun hc => h.1 (Prod.ext hc.1.symm hc.2.symm)
    rw [lockIn, if_neg hne, ih h.2]

theorem lockIn_pos {l : List (BtLock β)} {i : ℕ} (hl : ∀ k ∈ l, READ_LOCK ≤ k.eLock)
    (h : (p, i) ∈ l.map BtLock.key) : READ_LOCK ≤ lockIn l p i := by
  induction l with
  | nil => exact absurd h List.not_mem_nil
  | cons a l ih =>
    rw [lockIn]
    split_ifs with hc
    · exact hl a List.mem_cons_self
    · rw [List.map_cons, List.mem_cons] at h
      refine ih (fun k hk => hl k (List.mem_cons_of_mem a hk)) (h.resolve_left fun hk => hc ?_)
      exact ⟨(congrArg Prod.fst hk).symm, (congrArg Prod.snd hk).symm⟩

theorem lockIn_raise {q : β} {i iTable eLock : ℕ} {l l' : List (BtLock β)}
    (h : raiseLock p iTable eLock l = some l') :
    lockIn l' q i = if q = p ∧ i = iTable then max (lockIn l q i) eLock else lockIn l q i := by
  induction l generalizing l' with
  | nil => cases h
  | cons a l ih =>
    unfold raiseLock at h
    split_ifs at h with hc
    · obtain rfl := Option.some.inj h
      simp only [lockIn]
      by_cases hq : q = p ∧ i = iTable
      · rw [if_pos hq, hq.1, hq.2, if_pos ⟨hc.2, hc.1⟩, if_pos ⟨hc.2, hc.1⟩]
      · have hne : ¬ (a.pBtree = q ∧ a.iTable = i) := fun he => hq ⟨he.1 ▸ hc.2, he.2 ▸ hc.1⟩
        rw [if_neg hq, if_neg hne, if_neg hne]
    · rw [Option.map_eq_some_iff] at h
      obtain ⟨r, hr, rfl⟩ := h
      simp only [lockIn, ih hr]
      by_cases he : a.pBtree = q ∧ a.iTable = i
      · have hq : ¬ (q = p ∧ i = iTable) := fun hq => hc ⟨he.2.trans hq.2, he.1.trans hq.1⟩
        rw [if_pos he, if_neg hq, if_pos he]
      · rw [if_neg he, if_neg he]

theorem lockIn_filter {q : β} {i : ℕ} (l : List (BtLock β)) :
    lockIn (l.filter fun k => k.pBtree ≠ p) q i = if q = p then 0 else lockIn l q i := by
  induction l with
  | nil => exact (ite_self 0).symm
  | cons a l ih =>
    by_cases ha : a.pBtree = p
    · rw [List.filter_cons_of_neg (by simpa using ha), ih, lockIn]
      by_cases hq : q = p
      · rw [if_pos hq, if_pos hq]
      · have hne : ¬ (a.pBtree = q ∧ a.iTable = i) := fun he => hq (he.1.symm.trans ha)
        rw [if_neg hq, if_neg hq, if_neg hne]
    · rw [List.filter_cons_of_pos (by simpa using ha), lockIn, ih, lockIn]
      by_cases hq : q = p
      · have hne : ¬ (a.pBtree = q ∧ a.iTable = i) := fun he => ha (he.1.trans hq)
        rw [if_pos hq, if_pos hq, if_neg hne]
      · rw [if_neg hq, if_neg hq]

theorem lockIn_downgrade {q : β} {i : ℕ} {l : List (BtLock β)} (hl : ∀ k ∈ l, READ_LOCK ≤ k.eLock) :
    lockIn (l.map fun k => { k with eLock := READ_LOCK }) q i = min (lockIn l q i) READ_LOCK := by
  induction l with
  | nil => rfl
  | cons a l ih =>
    rw [List.map_cons, lockIn, lockIn, ih fun k hk => hl k (List.mem_cons_of_mem a hk)]
    dsimp only
    split_ifs
    · exact (min_eq_right (hl a List.mem_cons_self)).symm
    · rfl

theorem clearLoop_eq (l : List (BtLock β))
    (hx : m.exclusive = true → ∀ k ∈ l, m.pWriter = some k.pBtree)
    (hl : ∀ k ∈ l, LockOk m k) :
    clearLoop m p l = some (l.filter fun k => k.pBtree ≠ p) := by
  induction l with
  | nil => rfl
  | cons a l ih =>
    have ha := hl a List.mem_cons_self
    have hg : m.exclusive = false ∨ m.pWriter = some a.pBtree := by
      cases hm : m.exclusive
      · exact Or.inl rfl
      · exact Or.inr (hx hm a List.mem_cons_self)
    have hrest := ih (fun hm k hk => hx hm k (List.mem_cons_of_mem a hk))
      (fun k hk => hl k (List.mem_cons_of_mem a hk))
    have h1 : a.iTable ≠ 1 ∨ a.embedded = true := by
      rw [ha.embedded]
      exact (em _).symm
    have h2 : a.iTable = 1 ∨ a.embedded = false := by
      rw [← ha.embedded, ← Bool.not_eq_true]
      exact em _
    rw [clearLoop, guard, if_pos hg, guard, if_pos ha.le, hrest]
    by_cases hp : a.pBtree = p
    · rw [if_pos hp, guard, if_pos h1, guard, if_pos h2, List.filter_cons_of_neg (by simpa using hp)]
      rfl
    · rw [if_neg hp, List.filter_cons_of_pos (by simpa using hp)]
      rfl

omit [DecidableEq β] in
theorem Inv.read_le [Fintype β] (h : Inv m) : ∀ k ∈ m.pLock, READ_LOCK ≤ k.eLock := by
  intro k hk
  rcases (h.lock k hk).kind with he | he
  · exact he.ge
  · rw [he]
    decide

/-- A handle that is in no transaction has no lock. -/
theorem Inv.lockIn_idle [Fintype β] (h : Inv m) (hp : (m.handle p).inTrans = TRANS_NONE) (i : ℕ) :
    lockIn m.pLock p i = 0 := by
  refine lockIn_eq_zero fun hk => ?_
  obtain ⟨k, hk, hkey⟩ := List.mem_map.mp hk
  have hkp : k.pBtree = p := congrArg Prod.fst hkey
  exact (h.lock k hk).active (hkp ▸ hp)

/-- A handle in a transaction has its lock on the schema table. -/
theorem Inv.lockIn_master [Fintype β] (h : Inv m) (hs : (m.handle p).sharable = true)
    (hp : (m.handle p).inTrans ≠ TRANS_NONE) : READ_LOCK ≤ lockIn m.pLock p MASTER_ROOT :=
  lockIn_pos h.read_le (h.master p hs hp)

end Sqlite.SharedCache

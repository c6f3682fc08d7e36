import Sqlite.Shm.Invariant

/-! Each call of `unixShmLock` keeps the invariant, and changes nothing when it fails. -/
namespace Sqlite.Shm
open Foundation

section

variable {m m' : UnixShmNode} {held : ℕ → LockType} {p q ofst n i : ℕ} {mask : BitVec 16}

/-- What is promised of a call: when it fails, masks and locks are those from before. -/
def shmLock : Contract Op UnixShmNode Rc where
  Idle := Idle
  Mid := fun c m held => Idle m held ∧ m = c.mem
  Moves := fun _ _ _ _ _ => True
  Post := fun c m rc held => rc = .SQLITE_BUSY → m = c.mem ∧ held = c.held

/-- The run of a call that began with `m` and `held`. -/
def Meets (op : Op) (m : UnixShmNode) (held : ℕ → LockType) (run : Run UnixShmNode Rc)
    (held' : ℕ → LockType) : Prop :=
  shmLock.Holds ⟨some ⟨op, m, held⟩, run⟩ held'

variable {op : Op}

theorem meets_busy (hI : Idle m held) : Meets op m held (.ret m .SQLITE_BUSY) held :=
  ⟨hI, fun _ => ⟨rfl, rfl⟩⟩

theorem meets_ok {held' : ℕ → LockType} (hI : Idle m' held') :
    Meets op m held (.ret m' .SQLITE_OK) held' := by
  refine ⟨hI, fun hc => ?_⟩
  cases hc

theorem meets_systemLock {t : LockType} {next : Rc → Run UnixShmNode Rc} (hI : Idle m held)
    (hfail : t ≠ .F_UNLCK → next .SQLITE_BUSY = .ret m .SQLITE_BUSY)
    (hok : ∀ held', (∀ i, ¬ (ofst ≤ i ∧ i < ofst + n) →
        held' (i + UNIX_SHM_BASE) = held (i + UNIX_SHM_BASE)) →
      (∀ i, ofst ≤ i → i < ofst + n → held' (i + UNIX_SHM_BASE) =
        if 0 ≤ m.h then t else held (i + UNIX_SHM_BASE)) →
      Meets op m held (next .SQLITE_OK) held') (hn : 1 ≤ n) :
    Meets op m held (unixShmSystemLock m t (ofst + UNIX_SHM_BASE) n next) held := by
  unfold unixShmSystemLock
  by_cases hh : 0 ≤ m.h
  · rw [if_pos hh]
    refine ⟨⟨hI, rfl⟩, ?_⟩
    intro x held' hx
    refine ⟨trivial, ?_⟩
    cases hx with
    | granted =>
      apply hok
      · intro i hi
        have hc : ¬ (⟨t, ofst + UNIX_SHM_BASE, n⟩ : Flock).Covers (i + UNIX_SHM_BASE) := by
          unfold Flock.Covers
          simp only
          omega
        exact if_neg hc
      · intro i h1 h2
        have hc : (⟨t, ofst + UNIX_SHM_BASE, n⟩ : Flock).Covers (i + UNIX_SHM_BASE) := by
          unfold Flock.Covers
          simp only
          omega
        rw [if_pos hh]
        exact if_pos hc
    | refused _ _ ht =>
      show Meets op m held (next .SQLITE_BUSY) held
      rw [hfail ht]
      exact meets_busy hI
  · rw [if_neg hh]
    apply hok held
    · exact fun i _ => rfl
    · exact fun i _ _ => (if_neg hh).symm

/-- The range of a mask. -/
def Covers (mask : BitVec 16) (ofst n : ℕ) : Prop :=
  ∀ i, mask.getLsbD i = true ↔ ofst ≤ i ∧ i < ofst + n

theorem changes_unlock (hm : Covers mask ofst n) :
    Changes m (setShm m p ⟨(m.shm p).sharedMask &&& ~~~mask, (m.shm p).exclMask &&& ~~~mask⟩)
      p ofst n := by
  apply Changes.of_bits
  intro i hi
  rw [and_not_bit, and_not_bit, hm i]
  exact ⟨⟨fun hc => hc.1, fun hc => ⟨hc, hi⟩⟩, ⟨fun hc => hc.1, fun hc => ⟨hc, hi⟩⟩⟩

theorem meets_unlocked (hI : Idle m held) (hp : p ∈ m.pFirst) (hn : 1 ≤ n)
    (h8 : ofst + n ≤ SQLITE_SHM_NLOCK) (hm : Covers mask ofst n)
    (hold : (∀ i, ofst ≤ i → i < ofst + n → HoldsExcl m p i) ∨ n = 1 ∧ HoldsShared m p ofst) :
    Meets op m held (if mask &&& siblingShared m p m.pFirst 0 = 0 then
      unixShmSystemLock m .F_UNLCK (ofst + UNIX_SHM_BASE) n (unlocked m p mask)
      else unlocked m p mask .SQLITE_OK) held := by
  have hx : ∀ i, ofst ≤ i → i < ofst + n → ∀ q ∈ m.pFirst, q ≠ p → ¬ HoldsExcl m q i := by
    intro i h1 h2 q hq hqp hc
    rcases hold with he | ⟨rfl, hs⟩
    · exact (hI.apart.siblings p hp q hq (Ne.symm hqp) i (he i h1 h2)).1 hc
    · have : i = ofst := by omega
      rw [this] at hc
      exact (hI.apart.siblings q hq p hp hqp ofst hc).2 hs
  have hch := @changes_unlock m p ofst n mask hm
  have hnone : ∀ i, ofst ≤ i → i < ofst + n →
      ¬ HoldsExcl (setShm m p ⟨(m.shm p).sharedMask &&& ~~~mask, (m.shm p).exclMask &&& ~~~mask⟩) p i ∧
      ¬ HoldsShared (setShm m p ⟨(m.shm p).sharedMask &&& ~~~mask, (m.shm p).exclMask &&& ~~~mask⟩) p i := by
    intro i h1 h2
    rw [setShm_excl, setShm_shared, and_not_bit, and_not_bit, hm i]
    exact ⟨fun hc => hc.2 ⟨h1, h2⟩, fun hc => hc.2 ⟨h1, h2⟩⟩
  have hend : ∀ rc, unlocked m p mask rc = if rc = .SQLITE_OK then
      .ret (setShm m p ⟨(m.shm p).sharedMask &&& ~~~mask, (m.shm p).exclMask &&& ~~~mask⟩) rc
      else .ret m rc := fun _ => rfl
  generalize setShm m p ⟨(m.shm p).sharedMask &&& ~~~mask, (m.shm p).exclMask &&& ~~~mask⟩ = m'
    at hch hnone hend
  have hin : ∀ i, ofst ≤ i → i < ofst + n → HoldsExcl m' p i → ¬ HoldsShared m' p i ∧
      ∀ q ∈ m.pFirst, q ≠ p → ¬ HoldsExcl m q i ∧ ¬ HoldsShared m q i :=
    fun i h1 h2 hc => absurd hc (hnone i h1 h2).1
  have hsh : ∀ i, ofst ≤ i → i < ofst + n → HoldsShared m' p i → ∀ q ∈ m.pFirst, q ≠ p →
      ¬ HoldsExcl m q i := fun i h1 h2 hc => absurd hc (hnone i h1 h2).2
  by_cases hz : mask &&& siblingShared m p m.pFirst 0 = 0
  · rw [if_pos hz]
    have hs : ∀ i, ofst ≤ i → i < ofst + n → ∀ q ∈ m.pFirst, q ≠ p → ¬ HoldsShared m q i := by
      intro i h1 h2 q hq hqp hc
      exact and_eq_zero.mp hz i ((hm i).mpr ⟨h1, h2⟩)
        ((siblingShared_bit _ _ i).mpr (Or.inr ⟨q, hq, hqp, hc⟩))
    apply meets_systemLock hI _ _ hn
    · exact fun hc => absurd rfl hc
    · intro held' hout hset
      rw [hend]
      apply meets_ok
      apply hI.changed hch held' hin hsh hout
      intro i h1 h2
      have hst : strongest m' i = .F_UNLCK := by
        apply strongest_of_none
        rw [hch.pFirst]
        intro q hq
        by_cases hqp : q = p
        · rw [hqp]
          exact hnone i h1 h2
        · rw [(hch.others q hqp i).1, (hch.others q hqp i).2]
          exact ⟨hx i h1 h2 q hq hqp, hs i h1 h2 q hq hqp⟩
      rw [hset i h1 h2, hst]
      split
      · rfl
      · rename_i hh
        rw [hI.agrees i (by omega), if_neg hh]
  · rw [if_neg hz, hend]
    apply meets_ok
    apply hI.changed hch held hin hsh (fun _ _ => rfl)
    -- a sibling has a shared lock there, so that the range is one slot
    obtain ⟨j, hj, q, hq, hqp, hsq⟩ : ∃ j, mask.getLsbD j = true ∧
        ∃ q ∈ m.pFirst, q ≠ p ∧ HoldsShared m q j := by
      by_contra hc
      apply hz
      apply and_eq_zero.mpr
      intro j hj hb
      rcases (siblingShared_bit _ _ j).mp hb with hb | hb
      · simp at hb
      · exact hc ⟨j, hj, hb⟩
    obtain ⟨g1, g2⟩ := (hm j).mp hj
    rcases hold with he | ⟨rfl, hs⟩
    · exact absurd hsq (hI.apart.siblings p hp q hq (Ne.symm hqp) j (he j g1 g2)).2
    intro i h1 h2
    have hji : j = i := by omega
    rw [hji] at hsq
    have hno : ∀ a ∈ m.pFirst, ¬ HoldsExcl m a i := by
      intro a ha hc
      by_cases hap : a = p
      · rw [hap] at hc
        exact (hI.apart.siblings p hp q hq (Ne.symm hqp) i hc).2 hsq
      · exact hx i h1 h2 a ha hap hc
    rw [hI.agrees i (by omega), strongest_of_shared hno hq hsq]
    have hst : strongest m' i = .F_RDLCK := by
      apply strongest_of_shared
      · rw [hch.pFirst]
        intro a ha
        by_cases hap : a = p
        · rw [hap]
          exact (hnone i h1 h2).1
        · rw [(hch.others a hap i).1]
          exact hno a ha
      · rw [hch.pFirst]
        exact hq
      · exact (hch.others q hqp i).2.mpr hsq
    rw [hst]

theorem meets_shared (hI : Idle m held) (hp : p ∈ m.pFirst) (h8 : ofst + 1 ≤ SQLITE_SHM_NLOCK)
    (hm : Covers mask ofst 1) :
    Meets op m held (match sharedLoop m mask m.pFirst 0 with
      | (.SQLITE_BUSY, _) => .ret m .SQLITE_BUSY
      | (.SQLITE_OK, allShared) =>
        if allShared &&& mask = 0 then
          unixShmSystemLock m .F_RDLCK (ofst + UNIX_SHM_BASE) 1 (lockedShared m p mask)
        else lockedShared m p mask .SQLITE_OK) held := by
  have hloop := @sharedLoop_ok m mask m.pFirst 0
  generalize sharedLoop m mask m.pFirst 0 = r at hloop
  obtain ⟨rc, allShared⟩ := r
  cases rc
  case SQLITE_BUSY => exact meets_busy hI
  obtain ⟨hx, hbits⟩ := @hloop allShared rfl
  have hx' : ∀ q ∈ m.pFirst, ¬ HoldsExcl m q ofst :=
    fun q hq => hx q hq ofst ((hm ofst).mpr ⟨le_refl _, by omega⟩)
  have hch : Changes m (setShm m p ⟨(m.shm p).sharedMask ||| mask, (m.shm p).exclMask⟩) p ofst 1 := by
    apply Changes.of_bits
    intro i hi
    rw [or_bit, hm i]
    exact ⟨Iff.rfl, ⟨fun hc => hc.resolve_right hi, Or.inl⟩⟩
  have hself : HoldsShared (setShm m p ⟨(m.shm p).sharedMask ||| mask, (m.shm p).exclMask⟩) p ofst := by
    rw [setShm_shared, or_bit]
    exact Or.inr ((hm ofst).mpr ⟨le_refl _, by omega⟩)
  have hexcl : ∀ q ∈ m.pFirst,
      ¬ HoldsExcl (setShm m p ⟨(m.shm p).sharedMask ||| mask, (m.shm p).exclMask⟩) q ofst := by
    intro q hq
    by_cases hqp : q = p
    · rw [hqp, setShm_excl]
      exact hx' p hp
    · rw [(hch.others q hqp ofst).1]
      exact hx' q hq
  have hend : ∀ rc, lockedShared m p mask rc = if rc = .SQLITE_OK then
      .ret (setShm m p ⟨(m.shm p).sharedMask ||| mask, (m.shm p).exclMask⟩) rc
      else .ret m rc := fun _ => rfl
  generalize setShm m p ⟨(m.shm p).sharedMask ||| mask, (m.shm p).exclMask⟩ = m'
    at hch hself hexcl hend
  have hst : strongest m' ofst = .F_RDLCK := by
    apply strongest_of_shared
    · rw [hch.pFirst]
      exact hexcl
    · rw [hch.pFirst]
      exact hp
    · exact hself
  have hin : ∀ i, ofst ≤ i → i < ofst + 1 → HoldsExcl m' p i → ¬ HoldsShared m' p i ∧
      ∀ q ∈ m.pFirst, q ≠ p → ¬ HoldsExcl m q i ∧ ¬ HoldsShared m q i := by
    intro i h1 h2 hc
    rw [show i = ofst by omega] at hc
    exact absurd hc (hexcl p hp)
  have hsh : ∀ i, ofst ≤ i → i < ofst + 1 → HoldsShared m' p i → ∀ q ∈ m.pFirst, q ≠ p →
      ¬ HoldsExcl m q i := by
    intro i h1 h2 _ q hq _
    rw [show i = ofst by omega]
    exact hx' q hq
  have hrange : ∀ i, ofst ≤ i → i < ofst + 1 → i = ofst := fun i h1 h2 => by omega
  simp only
  by_cases hz : allShared &&& mask = 0
  · rw [if_pos hz]
    apply meets_systemLock hI _ _ (le_refl 1)
    · exact fun _ => rfl
    · intro held' hout hset
      rw [hend]
      apply meets_ok
      apply hI.changed hch held' hin hsh hout
      intro i h1 h2
      rw [hset i h1 h2, hrange i h1 h2, hst]
      split
      · rfl
      · rename_i hh
        rw [hI.agrees ofst (by omega), if_neg hh]
  · rw [if_neg hz, hend]
    apply meets_ok
    apply hI.changed hch held hin hsh (fun _ _ => rfl)
    intro i h1 h2
    obtain ⟨j, hj, q, hq, hsq⟩ : ∃ j, mask.getLsbD j = true ∧ ∃ q ∈ m.pFirst, HoldsShared m q j := by
      by_contra hc
      apply hz
      apply and_eq_zero.mpr
      intro j hb hj
      rcases (hbits j).mp hb with hb | hb
      · simp at hb
      · exact hc ⟨j, hj, hb⟩
    obtain ⟨g1, g2⟩ := (hm j).mp hj
    rw [hrange j g1 g2] at hsq
    rw [hrange i h1 h2, hI.agrees ofst (by omega), hst, strongest_of_shared hx' hq hsq]

theorem meets_exclusive (hI : Idle m held) (hp : p ∈ m.pFirst) (hn : 1 ≤ n)
    (h8 : ofst + n ≤ SQLITE_SHM_NLOCK) (hm : Covers mask ofst n) :
    Meets op m held (match exclusiveLoop m mask m.pFirst with
      | .SQLITE_BUSY => .ret m .SQLITE_BUSY
      | .SQLITE_OK => unixShmSystemLock m .F_WRLCK (ofst + UNIX_SHM_BASE) n
          (lockedExclusive m p mask)) held := by
  have hloop := @exclusiveLoop_ok m mask m.pFirst
  generalize exclusiveLoop m mask m.pFirst = rc at hloop
  cases rc
  case SQLITE_BUSY => exact meets_busy hI
  have hnone : ∀ i, ofst ≤ i → i < ofst + n → ∀ q ∈ m.pFirst,
      ¬ HoldsExcl m q i ∧ ¬ HoldsShared m q i :=
    fun i h1 h2 q hq => hloop rfl q hq i ((hm i).mpr ⟨h1, h2⟩)
  have hch : Changes m (setShm m p ⟨(m.shm p).sharedMask, (m.shm p).exclMask ||| mask⟩) p ofst n := by
    apply Changes.of_bits
    intro i hi
    rw [or_bit, hm i]
    exact ⟨⟨fun hc => hc.resolve_right hi, Or.inl⟩, Iff.rfl⟩
  have hself : ∀ i, ofst ≤ i → i < ofst + n →
      HoldsExcl (setShm m p ⟨(m.shm p).sharedMask, (m.shm p).exclMask ||| mask⟩) p i ∧
      ¬ HoldsShared (setShm m p ⟨(m.shm p).sharedMask, (m.shm p).exclMask ||| mask⟩) p i := by
    intro i h1 h2
    rw [setShm_excl, setShm_shared, or_bit]
    exact ⟨Or.inr ((hm i).mpr ⟨h1, h2⟩), (hnone i h1 h2 p hp).2⟩
  have hend : ∀ rc, lockedExclusive m p mask rc = if rc = .SQLITE_OK then
      .ret (setShm m p ⟨(m.shm p).sharedMask, (m.shm p).exclMask ||| mask⟩) rc
      else .ret m rc := fun _ => rfl
  generalize setShm m p ⟨(m.shm p).sharedMask, (m.shm p).exclMask ||| mask⟩ = m' at hch hself hend
  apply meets_systemLock hI _ _ hn
  · exact fun _ => rfl
  · intro held' hout hset
    rw [hend]
    apply meets_ok
    refine hI.changed hch held' ?_ ?_ hout ?_
    · exact fun i h1 h2 _ => ⟨(hself i h1 h2).2, fun q hq _ => hnone i h1 h2 q hq⟩
    · exact fun i h1 h2 _ q hq _ => (hnone i h1 h2 q hq).1
    · intro i h1 h2
      have hp' : p ∈ m'.pFirst := by
        rw [hch.pFirst]
        exact hp
      rw [hset i h1 h2, strongest_of_excl hp' (hself i h1 h2).1]
      split
      · rfl
      · rename_i hh
        rw [hI.agrees i (by omega), if_neg hh]

/-- Every call keeps its promise. -/
theorem Idle.meets (hI : Idle m held) (hl : op.Legal m) : Meets op m held (op.start m) held := by
  obtain ⟨hp, hn, h8, hflags⟩ := hl
  have hmask : Covers (maskOf op.ofst op.n) op.ofst op.n := maskOf_bit h8
  obtain ⟨p, ofst, n, flags⟩ := op
  simp only at hp hn h8 hflags hmask
  unfold Op.start unixShmLock
  simp only
  rcases hflags with ⟨rfl, rfl, -⟩ | ⟨rfl, -⟩ | ⟨rfl, rfl, hs⟩ | ⟨rfl, hx⟩
  · rw [if_neg (by decide), if_pos (by decide)]
    exact meets_shared hI hp h8 hmask
  · rw [if_neg (by decide), if_neg (by decide)]
    exact meets_exclusive hI hp hn h8 hmask
  · rw [if_pos (by decide)]
    exact meets_unlocked hI hp hn h8 hmask (Or.inr ⟨rfl, hs ofst (le_refl _) (by omega)⟩)
  · rw [if_pos (by decide)]
    exact meets_unlocked hI hp hn h8 hmask (Or.inl hx)

end

/-! The locks of connections exclude each other, in every interleaving of their calls. -/

variable {Proc : Type*} {m : UnixShmNode} {held : ℕ → LockType}

theorem opened_sound {node : Proc → UnixShmNode} (h0 : ∀ a p, (node a).shm p = ⟨0, 0⟩) :
    (opened node).Sound shmLock := by
  have hno : ∀ a p i, ¬ HoldsExcl (node a) p i ∧ ¬ HoldsShared (node a) p i := by
    intro a p i
    unfold HoldsExcl HoldsShared
    rw [h0 a p]
    simp
  constructor
  · intro a
    refine ⟨node a, .SQLITE_OK, rfl, ⟨⟨?_, ?_⟩, ?_⟩⟩
    · exact fun p _ q _ _ i hc => absurd hc (hno a p i).1
    · exact fun p _ i hc => absurd hc (hno a p i).1
    · intro i _
      rw [strongest_of_none (fun q _ => hno a q i), ite_self]
      rfl
  · exact fun a c _ b => not_clash_unlocked _

theorem holds_idle {p : Process Op UnixShmNode Rc} (h : shmLock.Holds p held) :
    Idle p.run.mem held := by
  obtain ⟨call, run⟩ := p
  cases run with
  | ret m rc => exact h.idle rfl
  | ask m q next =>
    cases call with
    | none =>
      obtain ⟨m', rc, hc, -⟩ := h
      cases hc
    | some c => exact (h.mid rfl rfl).1

theorem systemLock_all {P : UnixShmNode → Prop} {t : LockType} {ofst n : ℕ}
    {next : Rc → Run UnixShmNode Rc} (hP : P m) (h : ∀ rc, (next rc).All P) :
    (unixShmSystemLock m t ofst n next).All P := by
  unfold unixShmSystemLock
  split
  · refine ⟨hP, fun x => ?_⟩
    cases x with
    | failed e => exact h _
    | done t => exact h _
  · exact h _

/-- No call changes the file or the list of connections. -/
theorem start_fixed (op : Op) (m : UnixShmNode) :
    (op.start m).All (fun m' => (m'.h, m'.pFirst) = (m.h, m.pFirst)) := by
  have h1 : ∀ p mask rc, (unlocked m p mask rc).All
      (fun m' => (m'.h, m'.pFirst) = (m.h, m.pFirst)) := by
    intro p mask rc
    cases rc <;> rfl
  have h2 : ∀ p mask rc, (lockedShared m p mask rc).All
      (fun m' => (m'.h, m'.pFirst) = (m.h, m.pFirst)) := by
    intro p mask rc
    cases rc <;> rfl
  have h3 : ∀ p mask rc, (lockedExclusive m p mask rc).All
      (fun m' => (m'.h, m'.pFirst) = (m.h, m.pFirst)) := by
    intro p mask rc
    cases rc <;> rfl
  unfold Op.start unixShmLock
  simp only
  split
  · split
    · exact systemLock_all rfl (h1 _ _)
    · exact h1 _ _ _
  · split
    · split
      · rfl
      · split
        · exact systemLock_all rfl (h2 _ _)
        · exact h2 _ _ _
    · split
      · rfl
      · exact systemLock_all rfl (h3 _ _)

/-- In every reachable state: connections that use one wal-index exclude each other, the locks at
the system are the strongest ones of the connections when there is a file, and a call that failed
has changed nothing. -/
theorem shm_locks_sound [DecidableEq Proc] {node : Proc → UnixShmNode}
    (h0 : ∀ a p, (node a).shm p = ⟨0, 0⟩) {w : World Proc Op UnixShmNode Rc}
    (hr : (opened node).Reach Op.Legal Op.start w) :
    (∀ a c p q i, p ∈ (node a).pFirst → q ∈ (node c).pFirst → (a, p) ≠ (c, q) →
      (a = c ∨ 0 ≤ (node a).h ∧ 0 ≤ (node c).h) → i < SQLITE_SHM_NLOCK →
      HoldsExcl (w.proc a).run.mem p i →
      ¬ HoldsExcl (w.proc c).run.mem q i ∧ ¬ HoldsShared (w.proc c).run.mem q i) ∧
    (∀ a i, i < SQLITE_SHM_NLOCK → w.locks a (i + UNIX_SHM_BASE) =
      if 0 ≤ (node a).h then strongest (w.proc a).run.mem i else .F_UNLCK) ∧
    ∀ a c m, (w.proc a).call = some c → (w.proc a).run = .ret m .SQLITE_BUSY →
      m = c.mem ∧ w.locks a = c.held := by
  have hs : w.Sound shmLock :=
    (opened_sound h0).reach (fun op m held hI hl => Idle.meets hI hl) hr
  have hfix : ∀ a, ((w.proc a).run.mem.h, (w.proc a).run.mem.pFirst) =
      ((node a).h, (node a).pFirst) := fun a =>
    hr.frame (fun m : UnixShmNode => (m.h, m.pFirst)) (fun op m _ => start_fixed op m)
      (fun a => ⟨node a, _, rfl⟩) a
  have hh : ∀ a, (w.proc a).run.mem.h = (node a).h := fun a => (Prod.ext_iff.mp (hfix a)).1
  have hl : ∀ a, (w.proc a).run.mem.pFirst = (node a).pFirst := fun a => (Prod.ext_iff.mp (hfix a)).2
  have hidle := fun a => holds_idle (hs.holds a)
  have hagree : ∀ a i, i < SQLITE_SHM_NLOCK → w.locks a (i + UNIX_SHM_BASE) =
      if 0 ≤ (node a).h then strongest (w.proc a).run.mem i else .F_UNLCK := by
    intro a i hi
    rw [← hh a]
    exact (hidle a).agrees i hi
  refine ⟨?_, hagree, ?_⟩
  · intro a c p q i hp hq hne hfile hi hx
    rw [← hl] at hp hq
    by_cases hac : a = c
    · subst hac
      exact (hidle a).apart.siblings p hp q hq (fun hc => hne (by rw [hc])) i hx
    · obtain ⟨ha, hc⟩ := hfile.resolve_left hac
      have hlock := hs.compatible a c hac (i + UNIX_SHM_BASE)
      rw [hagree a i hi, hagree c i hi, if_pos ha, if_pos hc, strongest_of_excl hp hx] at hlock
      have hnone : strongest (w.proc c).run.mem i = .F_UNLCK := by
        by_contra hn
        exact hlock (Or.inl ⟨rfl, hn⟩)
      constructor
      · intro hb
        rw [strongest_of_excl hq hb] at hnone
        cases hnone
      · intro hb
        by_cases hex : ∃ r ∈ (w.proc c).run.mem.pFirst, HoldsExcl (w.proc c).run.mem r i
        · obtain ⟨r, hr, hrx⟩ := hex
          rw [strongest_of_excl hr hrx] at hnone
          cases hnone
        · rw [strongest_of_shared (fun r hr hrx => hex ⟨r, hr, hrx⟩) hq hb] at hnone
          cases hnone
  · intro a c m hcall hrun
    exact (hs.holds a).post hcall hrun rfl

/-- Two connections in each of two processes. -/
def twoEach : Bool → UnixShmNode := fun _ => ⟨3, [0, 1], fun _ => ⟨0, 0⟩⟩

theorem shm_locks_sound_reader : ∃ w : World Bool Op UnixShmNode Rc,
    (opened twoEach).Reach Op.Legal Op.start w ∧ HoldsShared (w.proc true).run.mem 0 3 ∧
      w.locks true (3 + UNIX_SHM_BASE) = .F_RDLCK := by
  have hlegal : (⟨0, 3, 1, SQLITE_SHM_LOCK ||| SQLITE_SHM_SHARED⟩ : Op).Legal (twoEach true) := by
    refine ⟨List.mem_cons_self, le_refl _, by decide, Or.inl ⟨rfl, rfl, ?_⟩⟩
    intro i _ _
    unfold HoldsShared HoldsExcl twoEach
    simp
  obtain ⟨w, hr, hm⟩ : ∃ w : World Bool Op UnixShmNode Rc,
      (opened twoEach).Reach Op.Legal Op.start w ∧
        (w.proc true).run.mem = setShm (twoEach true) 0 ⟨8#16, 0#16⟩ := by
    refine ⟨_, World.Reach.step (World.Reach.step World.Reach.init
      (World.Step.start true _ _ .SQLITE_OK rfl hlegal)) (World.Step.answer true (twoEach true)
        (.F_SETLK ⟨.F_RDLCK, 3 + UNIX_SHM_BASE, 1⟩) _ (.done .F_RDLCK) _ rfl ?_
        (Answers.granted _ _)), rfl⟩
    rintro ⟨c, -, b, -, hc⟩
    exact not_clash_unlocked _ hc
  refine ⟨w, hr, ?_, ?_⟩
  · rw [hm]
    decide
  · rw [(shm_locks_sound (fun _ _ => rfl) hr).2.1 true 3 (by decide), hm]
    decide

theorem shm_heap_without_system_lock : ∃ w : World Unit Op UnixShmNode Rc,
    (opened fun _ => ⟨-1, [0], fun _ => ⟨0, 0⟩⟩).Reach Op.Legal Op.start w ∧
      w.locks () (0 + UNIX_SHM_BASE) ≠ strongest (w.proc ()).run.mem 0 := by
  have hlegal : (⟨0, 0, 1, SQLITE_SHM_LOCK ||| SQLITE_SHM_EXCLUSIVE⟩ : Op).Legal
      ⟨-1, [0], fun _ => ⟨0, 0⟩⟩ := by
    refine ⟨List.mem_cons_self, le_refl _, by decide, Or.inr (Or.inl ⟨rfl, ?_⟩)⟩
    intro i _ _
    unfold HoldsShared HoldsExcl
    simp
  refine ⟨_, World.Reach.step World.Reach.init (World.Step.start () _ _ .SQLITE_OK rfl hlegal), ?_⟩
  decide

end Sqlite.Shm

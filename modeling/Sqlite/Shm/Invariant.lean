import Mathlib.Data.Int.Notation
import Mathlib.Data.Nat.Bitwise
import Sqlite.Foundation.PosixLocks

/-! What holds of the masks of connections, and of the locks at the system. -/
namespace Sqlite.Shm
open Foundation

section

/-! The locks on the slots of a wal-index. A process has one `unixShmNode` for it, with a connection
for each of its users. The locks of the process on the bytes of the file are in the state of the
system, and a call of `unixShmLock` holds the mutex of the node. -/

def SQLITE_SHM_NLOCK : ℕ := 8

def UNIX_SHM_BASE : ℕ := (22 + SQLITE_SHM_NLOCK) * 4

def SQLITE_SHM_UNLOCK : ℕ := 1

def SQLITE_SHM_LOCK : ℕ := 2

def SQLITE_SHM_SHARED : ℕ := 4

def SQLITE_SHM_EXCLUSIVE : ℕ := 8

inductive Rc
  | SQLITE_OK
  | SQLITE_BUSY
  deriving DecidableEq

structure UnixShm where
  sharedMask : BitVec 16
  exclMask : BitVec 16

/-- `h` is negative when the wal-index is in heap memory, and there is no file. -/
structure UnixShmNode where
  h : ℤ
  pFirst : List ℕ
  shm : ℕ → UnixShm

variable (m : UnixShmNode)

def unixShmSystemLock (lockType : LockType) (ofst n : ℕ) (next : Rc → Run UnixShmNode Rc) :
    Run UnixShmNode Rc :=
  if 0 ≤ m.h then
    .ask m (.F_SETLK ⟨lockType, ofst, n⟩) fun x =>
      match x with
      | .failed _ => next .SQLITE_BUSY
      | .done _ => next .SQLITE_OK
  else next .SQLITE_OK

/-- The mask of `n` slots from `ofst` on. -/
def maskOf (ofst n : ℕ) : BitVec 16 := BitVec.ofNat 16 ((1 <<< (ofst + n)) - (1 <<< ofst))

/-- The loop over the siblings of `p` before locks are released. -/
def siblingShared (p : ℕ) : List ℕ → BitVec 16 → BitVec 16
  | [], allMask => allMask
  | pX :: l, allMask =>
    if pX = p then siblingShared p l allMask
    else siblingShared p l (allMask ||| (m.shm pX).sharedMask)

/-- The loop before a shared lock is taken. -/
def sharedLoop (mask : BitVec 16) : List ℕ → BitVec 16 → Rc × BitVec 16
  | [], allShared => (.SQLITE_OK, allShared)
  | pX :: l, allShared =>
    if (m.shm pX).exclMask &&& mask ≠ 0 then (.SQLITE_BUSY, allShared)
    else sharedLoop mask l (allShared ||| (m.shm pX).sharedMask)

/-- The loop before exclusive locks are taken. -/
def exclusiveLoop (mask : BitVec 16) : List ℕ → Rc
  | [] => .SQLITE_OK
  | pX :: l =>
    if (m.shm pX).exclMask &&& mask ≠ 0 ∨ (m.shm pX).sharedMask &&& mask ≠ 0 then .SQLITE_BUSY
    else exclusiveLoop mask l

def setShm (p : ℕ) (s : UnixShm) : UnixShmNode := { m with shm := Function.update m.shm p s }

/-- The local locks are undone. -/
def unlocked (p : ℕ) (mask : BitVec 16) (rc : Rc) : Run UnixShmNode Rc :=
  if rc = .SQLITE_OK then
    .ret (setShm m p ⟨(m.shm p).sharedMask &&& ~~~mask, (m.shm p).exclMask &&& ~~~mask⟩) rc
  else .ret m rc

def lockedShared (p : ℕ) (mask : BitVec 16) (rc : Rc) : Run UnixShmNode Rc :=
  if rc = .SQLITE_OK then
    .ret (setShm m p ⟨(m.shm p).sharedMask ||| mask, (m.shm p).exclMask⟩) rc
  else .ret m rc

def lockedExclusive (p : ℕ) (mask : BitVec 16) (rc : Rc) : Run UnixShmNode Rc :=
  if rc = .SQLITE_OK then
    .ret (setShm m p ⟨(m.shm p).sharedMask, (m.shm p).exclMask ||| mask⟩) rc
  else .ret m rc

def unixShmLock (p ofst n flags : ℕ) : Run UnixShmNode Rc :=
  let mask := maskOf ofst n
  if flags &&& SQLITE_SHM_UNLOCK ≠ 0 then
    let allMask := siblingShared m p m.pFirst 0
    if mask &&& allMask = 0 then
      unixShmSystemLock m .F_UNLCK (ofst + UNIX_SHM_BASE) n (unlocked m p mask)
    else unlocked m p mask .SQLITE_OK
  else if flags &&& SQLITE_SHM_SHARED ≠ 0 then
    match sharedLoop m mask m.pFirst 0 with
    | (.SQLITE_BUSY, _) => .ret m .SQLITE_BUSY
    | (.SQLITE_OK, allShared) =>
      if allShared &&& mask = 0 then
        unixShmSystemLock m .F_RDLCK (ofst + UNIX_SHM_BASE) n (lockedShared m p mask)
      else lockedShared m p mask .SQLITE_OK
  else
    match exclusiveLoop m mask m.pFirst with
    | .SQLITE_BUSY => .ret m .SQLITE_BUSY
    | .SQLITE_OK => unixShmSystemLock m .F_WRLCK (ofst + UNIX_SHM_BASE) n (lockedExclusive m p mask)

/-- The slots on which a connection has a lock. -/
def HoldsShared (p i : ℕ) : Prop := (m.shm p).sharedMask.getLsbD i = true

def HoldsExcl (p i : ℕ) : Prop := (m.shm p).exclMask.getLsbD i = true

instance (p i : ℕ) : Decidable (HoldsShared m p i) := inferInstanceAs (Decidable (_ = _))

instance (p i : ℕ) : Decidable (HoldsExcl m p i) := inferInstanceAs (Decidable (_ = _))

/-- The strongest lock of the connections on a slot. -/
def strongest (i : ℕ) : LockType :=
  if ∃ p ∈ m.pFirst, HoldsExcl m p i then .F_WRLCK
  else if ∃ p ∈ m.pFirst, HoldsShared m p i then .F_RDLCK
  else .F_UNLCK

structure Op where
  p : ℕ
  ofst : ℕ
  n : ℕ
  flags : ℕ

def Op.start (op : Op) (m : UnixShmNode) : Run UnixShmNode Rc :=
  unixShmLock m op.p op.ofst op.n op.flags

/-- Some slots that are unlocked get locked, or some that are locked get unlocked. -/
def Op.Legal (op : Op) (m : UnixShmNode) : Prop :=
  op.p ∈ m.pFirst ∧ 1 ≤ op.n ∧ op.ofst + op.n ≤ SQLITE_SHM_NLOCK ∧
    let slots := fun P : ℕ → Prop => ∀ i, op.ofst ≤ i → i < op.ofst + op.n → P i
    (op.flags = SQLITE_SHM_LOCK ||| SQLITE_SHM_SHARED ∧ op.n = 1 ∧
        slots (fun i => ¬ HoldsShared m op.p i ∧ ¬ HoldsExcl m op.p i) ∨
      op.flags = SQLITE_SHM_LOCK ||| SQLITE_SHM_EXCLUSIVE ∧
        slots (fun i => ¬ HoldsShared m op.p i ∧ ¬ HoldsExcl m op.p i) ∨
      op.flags = SQLITE_SHM_UNLOCK ||| SQLITE_SHM_SHARED ∧ op.n = 1 ∧
        slots (HoldsShared m op.p) ∨
      op.flags = SQLITE_SHM_UNLOCK ||| SQLITE_SHM_EXCLUSIVE ∧ slots (HoldsExcl m op.p))

/-- Before the first call: no connection has a lock. -/
def opened {Proc : Type*} (node : Proc → UnixShmNode) : World Proc Op UnixShmNode Rc :=
  ⟨fun a => ⟨none, .ret (node a) .SQLITE_OK⟩, fun _ _ => .F_UNLCK⟩

end

section

/-! The masks bit by bit, and what the loops over the connections find. -/

variable {m : UnixShmNode} {p q ofst n i : ℕ} {mask : BitVec 16} {l : List ℕ}

theorem maskOf_bit (h : ofst + n ≤ SQLITE_SHM_NLOCK) (i : ℕ) :
    (maskOf ofst n).getLsbD i = true ↔ ofst ≤ i ∧ i < ofst + n := by
  have h8 : ofst + n ≤ 8 := h
  have hval : (1 <<< (ofst + n)) - (1 <<< ofst) = (2 ^ n - 1) <<< ofst := by
    rw [Nat.shiftLeft_eq, Nat.shiftLeft_eq, Nat.shiftLeft_eq, Nat.one_mul, Nat.one_mul,
      Nat.sub_mul, Nat.one_mul, ← Nat.pow_add, Nat.add_comm n ofst]
  unfold maskOf
  rw [BitVec.getLsbD_ofNat, hval, Nat.testBit_shiftLeft, Nat.testBit_two_pow_sub_one]
  simp only [Bool.and_eq_true, decide_eq_true_eq]
  omega

/-- Two masks have no bit in common. -/
theorem and_eq_zero {x y : BitVec 16} :
    x &&& y = 0 ↔ ∀ i, x.getLsbD i = true → ¬ y.getLsbD i = true := by
  constructor
  · intro h i hx hy
    have hi : (x &&& y).getLsbD i = true := by
      rw [BitVec.getLsbD_and, hx, hy]
      rfl
    rw [h] at hi
    simp at hi
  · intro h
    apply BitVec.eq_of_getLsbD_eq
    intro i _
    have hi := h i
    rw [BitVec.getLsbD_and]
    cases hx : x.getLsbD i <;> cases hy : y.getLsbD i <;> simp_all

theorem and_not_bit {x : BitVec 16} (i : ℕ) :
    (x &&& ~~~mask).getLsbD i = true ↔ x.getLsbD i = true ∧ ¬ mask.getLsbD i = true := by
  rw [BitVec.getLsbD_and, BitVec.getLsbD_not]
  have hlt : x.getLsbD i = true → i < 16 := BitVec.lt_of_getLsbD
  by_cases hi : i < 16
  · simp [hi]
  · have : ¬ x.getLsbD i = true := fun hc => hi (hlt hc)
    simp [hi, this]

theorem or_bit {x y : BitVec 16} (i : ℕ) :
    (x ||| y).getLsbD i = true ↔ x.getLsbD i = true ∨ y.getLsbD i = true := by
  rw [BitVec.getLsbD_or, Bool.or_eq_true]

theorem siblingShared_bit (l : List ℕ) (allMask : BitVec 16) (i : ℕ) :
    (siblingShared m p l allMask).getLsbD i = true ↔
      allMask.getLsbD i = true ∨ ∃ q ∈ l, q ≠ p ∧ HoldsShared m q i := by
  induction l generalizing allMask with
  | nil => simp [siblingShared]
  | cons pX l ih =>
    unfold siblingShared
    by_cases hp : pX = p
    · rw [if_pos hp, ih]
      simp [hp]
    · rw [if_neg hp, ih, or_bit]
      simp only [List.mem_cons, exists_eq_or_imp]
      unfold HoldsShared
      tauto

theorem sharedLoop_ok {l : List ℕ} {a b : BitVec 16}
    (h : sharedLoop m mask l a = (.SQLITE_OK, b)) :
    (∀ q ∈ l, ∀ i, mask.getLsbD i = true → ¬ HoldsExcl m q i) ∧
      ∀ i, b.getLsbD i = true ↔ a.getLsbD i = true ∨ ∃ q ∈ l, HoldsShared m q i := by
  induction l generalizing a with
  | nil =>
    cases h
    simp
  | cons pX l ih =>
    unfold sharedLoop at h
    split at h
    · cases h
    · rename_i hx
      have hx' := and_eq_zero.mp (not_not.mp hx)
      obtain ⟨h1, h2⟩ := ih h
      constructor
      · intro q hq i hi
        rcases List.mem_cons.mp hq with rfl | hq
        · exact fun hc => hx' i hc hi
        · exact h1 q hq i hi
      · intro i
        rw [h2 i, or_bit]
        simp only [List.mem_cons, exists_eq_or_imp]
        unfold HoldsShared
        tauto

theorem exclusiveLoop_ok {l : List ℕ} (h : exclusiveLoop m mask l = .SQLITE_OK) :
    ∀ q ∈ l, ∀ i, mask.getLsbD i = true → ¬ HoldsExcl m q i ∧ ¬ HoldsShared m q i := by
  induction l with
  | nil =>
    intro q hq
    cases hq
  | cons pX l ih =>
    unfold exclusiveLoop at h
    split at h
    · cases h
    · rename_i hx
      obtain ⟨hx1, hx2⟩ := not_or.mp hx
      intro q hq i hi
      rcases List.mem_cons.mp hq with rfl | hq
      · constructor
        · exact fun hc => and_eq_zero.mp (not_not.mp hx1) i hc hi
        · exact fun hc => and_eq_zero.mp (not_not.mp hx2) i hc hi
      · exact ih h q hq i hi

end

variable {m m' : UnixShmNode} {held : ℕ → LockType} {p q ofst n i : ℕ} {mask : BitVec 16}

/-- The connections of one process exclude each other. -/
structure Apart (m : UnixShmNode) : Prop where
  siblings : ∀ p ∈ m.pFirst, ∀ q ∈ m.pFirst, p ≠ q → ∀ i, HoldsExcl m p i →
    ¬ HoldsExcl m q i ∧ ¬ HoldsShared m q i
  self : ∀ p ∈ m.pFirst, ∀ i, HoldsExcl m p i → ¬ HoldsShared m p i

/-- What the process holds at the system. -/
def Agrees (m : UnixShmNode) (held : ℕ → LockType) : Prop :=
  ∀ i, i < SQLITE_SHM_NLOCK →
    held (i + UNIX_SHM_BASE) = if 0 ≤ m.h then strongest m i else .F_UNLCK

structure Idle (m : UnixShmNode) (held : ℕ → LockType) : Prop where
  apart : Apart m
  agrees : Agrees m held

theorem strongest_of_excl (hp : p ∈ m.pFirst) (h : HoldsExcl m p i) : strongest m i = .F_WRLCK :=
  if_pos ⟨p, hp, h⟩

theorem strongest_of_shared (hx : ∀ q ∈ m.pFirst, ¬ HoldsExcl m q i) (hp : p ∈ m.pFirst)
    (h : HoldsShared m p i) : strongest m i = .F_RDLCK := by
  have hno : ¬ ∃ q ∈ m.pFirst, HoldsExcl m q i := by
    rintro ⟨q, hq, hc⟩
    exact hx q hq hc
  unfold strongest
  rw [if_neg hno, if_pos ⟨p, hp, h⟩]

theorem strongest_of_none (h : ∀ q ∈ m.pFirst, ¬ HoldsExcl m q i ∧ ¬ HoldsShared m q i) :
    strongest m i = .F_UNLCK := by
  have hx : ¬ ∃ q ∈ m.pFirst, HoldsExcl m q i := by
    rintro ⟨q, hq, hc⟩
    exact (h q hq).1 hc
  have hs : ¬ ∃ q ∈ m.pFirst, HoldsShared m q i := by
    rintro ⟨q, hq, hc⟩
    exact (h q hq).2 hc
  unfold strongest
  rw [if_neg hx, if_neg hs]

theorem strongest_congr (hl : m'.pFirst = m.pFirst)
    (h : ∀ q ∈ m.pFirst, (HoldsExcl m' q i ↔ HoldsExcl m q i) ∧
      (HoldsShared m' q i ↔ HoldsShared m q i)) : strongest m' i = strongest m i := by
  have hx : (∃ q ∈ m'.pFirst, HoldsExcl m' q i) ↔ ∃ q ∈ m.pFirst, HoldsExcl m q i := by
    rw [hl]
    exact ⟨fun ⟨q, hq, hc⟩ => ⟨q, hq, (h q hq).1.mp hc⟩, fun ⟨q, hq, hc⟩ => ⟨q, hq, (h q hq).1.mpr hc⟩⟩
  have hs : (∃ q ∈ m'.pFirst, HoldsShared m' q i) ↔ ∃ q ∈ m.pFirst, HoldsShared m q i := by
    rw [hl]
    exact ⟨fun ⟨q, hq, hc⟩ => ⟨q, hq, (h q hq).2.mp hc⟩, fun ⟨q, hq, hc⟩ => ⟨q, hq, (h q hq).2.mpr hc⟩⟩
  unfold strongest
  simp only [hx, hs]

/-- The memory after the masks of `p` changed in the slots of a range. -/
structure Changes (m m' : UnixShmNode) (p ofst n : ℕ) : Prop where
  h : m'.h = m.h
  pFirst : m'.pFirst = m.pFirst
  others : ∀ q, q ≠ p → ∀ i, (HoldsExcl m' q i ↔ HoldsExcl m q i) ∧
    (HoldsShared m' q i ↔ HoldsShared m q i)
  outside : ∀ i, ¬ (ofst ≤ i ∧ i < ofst + n) → (HoldsExcl m' p i ↔ HoldsExcl m p i) ∧
    (HoldsShared m' p i ↔ HoldsShared m p i)

theorem Changes.same (h : Changes m m' p ofst n) (q : ℕ) (hi : ¬ (ofst ≤ i ∧ i < ofst + n)) :
    (HoldsExcl m' q i ↔ HoldsExcl m q i) ∧ (HoldsShared m' q i ↔ HoldsShared m q i) := by
  by_cases hq : q = p
  · rw [hq]
    exact h.outside i hi
  · exact h.others q hq i

/-- The invariant holds again when it does in the range that changed. -/
theorem Idle.changed (hI : Idle m held) (h : Changes m m' p ofst n) (held' : ℕ → LockType)
    (hin : ∀ i, ofst ≤ i → i < ofst + n → HoldsExcl m' p i → ¬ HoldsShared m' p i ∧
      ∀ q ∈ m.pFirst, q ≠ p → ¬ HoldsExcl m q i ∧ ¬ HoldsShared m q i)
    (hsh : ∀ i, ofst ≤ i → i < ofst + n → HoldsShared m' p i → ∀ q ∈ m.pFirst, q ≠ p →
      ¬ HoldsExcl m q i)
    (hout : ∀ i, ¬ (ofst ≤ i ∧ i < ofst + n) →
      held' (i + UNIX_SHM_BASE) = held (i + UNIX_SHM_BASE))
    (hagree : ∀ i, ofst ≤ i → i < ofst + n →
      held' (i + UNIX_SHM_BASE) = if 0 ≤ m.h then strongest m' i else .F_UNLCK) :
    Idle m' held' := by
  refine ⟨⟨?_, ?_⟩, ?_⟩
  · rw [h.pFirst]
    intro a ha b hb hab i hx
    by_cases hi : ofst ≤ i ∧ i < ofst + n
    · by_cases hap : a = p
      · rw [hap] at hx hab
        rw [(h.others b (Ne.symm hab) i).1, (h.others b (Ne.symm hab) i).2]
        exact (hin i hi.1 hi.2 hx).2 b hb (Ne.symm hab)
      · rw [(h.others a hap i).1] at hx
        by_cases hbp : b = p
        · rw [hbp]
          constructor
          · exact fun hc => ((hin i hi.1 hi.2 hc).2 a ha hap).1 hx
          · exact fun hc => hsh i hi.1 hi.2 hc a ha hap hx
        · rw [(h.others b hbp i).1, (h.others b hbp i).2]
          exact hI.apart.siblings a ha b hb hab i hx
    · rw [(h.same a hi).1] at hx
      rw [(h.same b hi).1, (h.same b hi).2]
      exact hI.apart.siblings a ha b hb hab i hx
  · rw [h.pFirst]
    intro a ha i hx
    by_cases hi : ofst ≤ i ∧ i < ofst + n
    · by_cases hap : a = p
      · rw [hap] at hx ⊢
        exact (hin i hi.1 hi.2 hx).1
      · rw [(h.others a hap i).1] at hx
        rw [(h.others a hap i).2]
        exact hI.apart.self a ha i hx
    · rw [(h.same a hi).1] at hx
      rw [(h.same a hi).2]
      exact hI.apart.self a ha i hx
  · intro i hi8
    rw [h.h]
    by_cases hi : ofst ≤ i ∧ i < ofst + n
    · exact hagree i hi.1 hi.2
    · rw [hout i hi, hI.agrees i hi8, strongest_congr h.pFirst (fun q _ => h.same q hi)]

theorem setShm_excl (s : UnixShm) :
    HoldsExcl (setShm m p s) p i ↔ s.exclMask.getLsbD i = true := by
  have hs : (setShm m p s).shm p = s := Function.update_self ..
  unfold HoldsExcl
  rw [hs]

theorem setShm_shared (s : UnixShm) :
    HoldsShared (setShm m p s) p i ↔ s.sharedMask.getLsbD i = true := by
  have hs : (setShm m p s).shm p = s := Function.update_self ..
  unfold HoldsShared
  rw [hs]

theorem Changes.of_bits (s : UnixShm)
    (h : ∀ i, ¬ (ofst ≤ i ∧ i < ofst + n) → (s.exclMask.getLsbD i = true ↔ HoldsExcl m p i) ∧
      (s.sharedMask.getLsbD i = true ↔ HoldsShared m p i)) :
    Changes m (setShm m p s) p ofst n := by
  constructor
  · rfl
  · rfl
  · intro q hq i
    have hs : (setShm m p s).shm q = m.shm q := Function.update_of_ne hq _ _
    unfold HoldsExcl HoldsShared
    rw [hs]
    exact ⟨Iff.rfl, Iff.rfl⟩
  · intro i hi
    rw [setShm_excl, setShm_shared]
    exact h i hi

end Sqlite.Shm

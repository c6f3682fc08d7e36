import Mathlib.Data.Fintype.Card
import Mathlib.Data.Int.Notation

/-! The locks of a shared cache. The handles of type `β` share one `BtShared`, and a call holds its
mutex. An assertion that fails, a null pointer that is read and a bad `free` are `none`. -/
namespace Sqlite.SharedCache

def SQLITE_OK : ℕ := 0

def SQLITE_BUSY : ℕ := 5

def SQLITE_LOCKED_SHAREDCACHE : ℕ := 6 ||| (1 <<< 8)

def SQLITE_NOMEM : ℕ := 7

def SQLITE_READONLY : ℕ := 8

def TRANS_NONE : ℕ := 0

def TRANS_READ : ℕ := 1

def TRANS_WRITE : ℕ := 2

def READ_LOCK : ℕ := 1

def WRITE_LOCK : ℕ := 2

def MASTER_ROOT : ℕ := 1

/-- A lock is `embedded` when it is the `lock` of its handle, and allocated otherwise. -/
structure BtLock (β : Type) where
  pBtree : β
  iTable : ℕ
  eLock : ℕ
  embedded : Bool

structure Btree where
  sharable : Bool
  inTrans : ℕ

/-- With its handles. The last three fields are bits of `btsFlags`. -/
structure BtShared (β : Type) where
  handle : β → Btree
  pLock : List (BtLock β)
  pWriter : Option β
  inTransaction : ℕ
  nTransaction : ℤ
  readOnly : Bool
  exclusive : Bool
  pending : Bool

/-- The connection of a handle, at the time of a call. -/
structure Connection where
  readUncommitted : Bool
  activeVdbeCnt : ℕ

variable {β : Type} [DecidableEq β] (m : BtShared β) (p : β)

def setTrans (inTrans : ℕ) : BtShared β :=
  { m with handle := Function.update m.handle p { m.handle p with inTrans } }

def btreeIntegrity : Option Unit := do
  guard (m.inTransaction ≠ TRANS_NONE ∨ m.nTransaction = 0)
  guard ((m.handle p).inTrans ≤ m.inTransaction)

def queryLoop (iTab eLock : ℕ) : List (BtLock β) → Option (BtShared β × ℕ)
  | [] => some (m, SQLITE_OK)
  | pIter :: l => do
    guard (pIter.eLock = READ_LOCK ∨ pIter.eLock = WRITE_LOCK)
    guard (eLock = READ_LOCK ∨ pIter.pBtree = p ∨ pIter.eLock = READ_LOCK)
    if pIter.pBtree ≠ p ∧ pIter.iTable = iTab ∧ pIter.eLock ≠ eLock then
      if eLock = WRITE_LOCK then do
        guard (m.pWriter = some p)
        return ({ m with pending := true }, SQLITE_LOCKED_SHAREDCACHE)
      else return (m, SQLITE_LOCKED_SHAREDCACHE)
    else queryLoop iTab eLock l

def querySharedCacheTableLock (db : Connection) (iTab eLock : ℕ) : Option (BtShared β × ℕ) := do
  guard (eLock = READ_LOCK ∨ eLock = WRITE_LOCK)
  guard (db.readUncommitted = false ∨ eLock = WRITE_LOCK ∨ iTab = 1)
  guard (eLock = READ_LOCK ∨ m.pWriter = some p ∧ (m.handle p).inTrans = TRANS_WRITE)
  guard (eLock = READ_LOCK ∨ m.inTransaction = TRANS_WRITE)
  if (m.handle p).sharable = false then return (m, SQLITE_OK)
  else if m.pWriter ≠ some p ∧ m.exclusive then do
    -- the connection of the writer is read
    guard m.pWriter.isSome
    return (m, SQLITE_LOCKED_SHAREDCACHE)
  else queryLoop m p iTab eLock m.pLock

/-- Raises the lock of `p` on a table, when there is one. -/
def raiseLock (iTable eLock : ℕ) : List (BtLock β) → Option (List (BtLock β))
  | [] => none
  | pIter :: l =>
    if pIter.iTable = iTable ∧ pIter.pBtree = p then
      some ({ pIter with eLock := max pIter.eLock eLock } :: l)
    else (raiseLock iTable eLock l).map (pIter :: ·)

def setSharedCacheTableLock (db : Connection) (iTable eLock : ℕ) (malloc : Bool) :
    Option (BtShared β × ℕ) := do
  guard (eLock = READ_LOCK ∨ eLock = WRITE_LOCK)
  guard (db.readUncommitted = false ∨ eLock = WRITE_LOCK)
  guard (m.handle p).sharable
  guard ((querySharedCacheTableLock m p db iTable eLock).map Prod.snd = some SQLITE_OK)
  match raiseLock p iTable eLock m.pLock with
  | some l => return ({ m with pLock := l }, SQLITE_OK)
  | none =>
    if malloc then return ({ m with pLock := ⟨p, iTable, eLock, false⟩ :: m.pLock }, SQLITE_OK)
    else return (m, SQLITE_NOMEM)

def sqlite3BtreeLockTable (db : Connection) (iTab : ℕ) (isWriteLock malloc : Bool) :
    Option (BtShared β × ℕ) := do
  guard ((m.handle p).inTrans ≠ TRANS_NONE)
  if (m.handle p).sharable then do
    let lockType := READ_LOCK + isWriteLock.toNat
    let (m, rc) ← querySharedCacheTableLock m p db iTab lockType
    if rc = SQLITE_OK then setSharedCacheTableLock m p db iTab lockType malloc
    else return (m, rc)
  else return (m, SQLITE_OK)

/-- The loop of `clearAllSharedCacheTableLocks`. Only an allocated lock may be freed. -/
def clearLoop : List (BtLock β) → Option (List (BtLock β))
  | [] => some []
  | pLock :: l => do
    guard (m.exclusive = false ∨ m.pWriter = some pLock.pBtree)
    guard (pLock.eLock ≤ (m.handle pLock.pBtree).inTrans)
    if pLock.pBtree = p then do
      guard (pLock.iTable ≠ 1 ∨ pLock.embedded)
      guard (pLock.iTable = 1 ∨ pLock.embedded = false)
      clearLoop l
    else do
      let rest ← clearLoop l
      return pLock :: rest

def clearAllSharedCacheTableLocks : Option (BtShared β) := do
  guard ((m.handle p).sharable ∨ m.pLock = [])
  guard (0 < (m.handle p).inTrans)
  let l ← clearLoop m p m.pLock
  guard (m.pending = false ∨ m.pWriter.isSome)
  if m.pWriter = some p then
    return { m with pLock := l, pWriter := none, exclusive := false, pending := false }
  else if m.nTransaction = 2 then return { m with pLock := l, pending := false }
  else return { m with pLock := l }

def downgradeAllSharedCacheTableLocks : Option (BtShared β) :=
  if m.pWriter = some p then do
    guard (∀ pLock ∈ m.pLock, pLock.eLock = READ_LOCK ∨ pLock.pBtree = p)
    return { m with
      pWriter := none, exclusive := false, pending := false
      pLock := m.pLock.map fun pLock => { pLock with eLock := READ_LOCK } }
  else some m

/-- How a call to the pager for one attempt to begin ends: in `lockBtree`, which may find that the
file is read-only, in `sqlite3PagerBegin` and in `newDatabase`. -/
structure Attempt where
  lockRc : ℕ
  readOnly : Bool
  beginRc : ℕ
  newRc : ℕ

def attempt (wrflag : ℕ) (a : Attempt) : BtShared β × ℕ :=
  let m := { m with readOnly := m.readOnly || a.readOnly }
  if a.lockRc = SQLITE_OK ∧ wrflag ≠ 0 then
    if m.readOnly then (m, SQLITE_READONLY)
    else if a.beginRc = SQLITE_OK then (m, a.newRc)
    else (m, a.beginRc)
  else (m, a.lockRc)

/-- The busy handler asks for one more attempt while there is one. -/
def attemptLoop (wrflag : ℕ) (m : BtShared β) (a : Attempt) : List Attempt → BtShared β × ℕ
  | [] => attempt m wrflag a
  | b :: l =>
    let (m, rc) := attempt m wrflag a
    if rc &&& 0xFF = SQLITE_BUSY ∧ m.inTransaction = TRANS_NONE then attemptLoop wrflag m b l
    else (m, rc)

/-- Whether the connection of another handle blocks a transaction. -/
def blocked (wrflag : ℕ) : Option Bool :=
  if (wrflag ≠ 0 ∧ m.inTransaction = TRANS_WRITE) ∨ m.pending then do
    -- the connection of the writer is read
    guard m.pWriter.isSome
    return true
  else if 1 < wrflag then some (m.pLock.any fun pIter => pIter.pBtree ≠ p)
  else some false

/-- What the pager answers while a transaction begins: `more` has the attempts after the first one,
`headerRc` is for the write of the size in the header and `savepointRc` for the savepoints. -/
structure Pager where
  first : Attempt
  more : List Attempt
  headerRc : ℕ
  savepointRc : ℕ

def pushLock : BtShared β :=
  { m with
    nTransaction := m.nTransaction + 1
    pLock := if (m.handle p).sharable then ⟨p, 1, READ_LOCK, true⟩ :: m.pLock else m.pLock }

/-- The transaction of `p` has begun in the pager. -/
def transOpened (wrflag : ℕ) : Option (BtShared β) :=
  let m := if (m.handle p).inTrans = TRANS_NONE then pushLock m p else m
  let m := setTrans m p (if wrflag ≠ 0 then TRANS_WRITE else TRANS_READ)
  let m := { m with inTransaction := max m.inTransaction (m.handle p).inTrans }
  if wrflag ≠ 0 then do
    guard (m.pWriter = none)
    return { m with pWriter := some p, exclusive := decide (1 < wrflag) }
  else some m

def transBegun (wrflag rc savepointRc : ℕ) : Option (BtShared β × ℕ) := do
  btreeIntegrity m p
  return (m, if rc = SQLITE_OK ∧ wrflag ≠ 0 then savepointRc else rc)

def sqlite3BtreeBeginTrans (db : Connection) (wrflag : ℕ) (pager : Pager) :
    Option (BtShared β × ℕ) := do
  btreeIntegrity m p
  if (m.handle p).inTrans = TRANS_WRITE ∨ (m.handle p).inTrans = TRANS_READ ∧ wrflag = 0 then
    transBegun m p wrflag SQLITE_OK pager.savepointRc
  else if m.readOnly ∧ wrflag ≠ 0 then transBegun m p wrflag SQLITE_READONLY pager.savepointRc
  else if ← blocked m p wrflag then
    transBegun m p wrflag SQLITE_LOCKED_SHAREDCACHE pager.savepointRc
  else do
    let (m, rc) ← querySharedCacheTableLock m p db MASTER_ROOT READ_LOCK
    if rc ≠ SQLITE_OK then transBegun m p wrflag rc pager.savepointRc
    else do
      let (m, rc) := attemptLoop wrflag m pager.first pager.more
      if rc = SQLITE_OK then do
        let m ← transOpened m p wrflag
        transBegun m p wrflag (if wrflag ≠ 0 then pager.headerRc else rc) pager.savepointRc
      else transBegun m p wrflag rc pager.savepointRc

/-- The transaction of `p` is no longer counted. -/
def uncount : BtShared β :=
  { m with
    nTransaction := m.nTransaction - 1
    inTransaction := if m.nTransaction - 1 = 0 then TRANS_NONE else m.inTransaction }

def btreeEndTransaction (db : Connection) : Option (BtShared β) := do
  let m ←
    if TRANS_NONE < (m.handle p).inTrans ∧ 1 < db.activeVdbeCnt then do
      let m ← downgradeAllSharedCacheTableLocks m p
      pure (setTrans m p TRANS_READ)
    else if (m.handle p).inTrans ≠ TRANS_NONE then do
      let m ← clearAllSharedCacheTableLocks m p
      pure (setTrans (uncount m) p TRANS_NONE)
    else pure (setTrans m p TRANS_NONE)
  btreeIntegrity m p
  return m

def sqlite3BtreeCommitPhaseTwo (db : Connection) (bCleanup : Bool) (pagerRc : ℕ) :
    Option (BtShared β × ℕ) := do
  if (m.handle p).inTrans = TRANS_NONE then return (m, SQLITE_OK)
  else do
    btreeIntegrity m p
    if (m.handle p).inTrans = TRANS_WRITE then do
      guard (m.inTransaction = TRANS_WRITE)
      guard (0 < m.nTransaction)
      if pagerRc ≠ SQLITE_OK ∧ bCleanup = false then return (m, pagerRc)
      else do
        let m ← btreeEndTransaction { m with inTransaction := TRANS_READ } p db
        return (m, SQLITE_OK)
    else do
      let m ← btreeEndTransaction m p db
      return (m, SQLITE_OK)

/-- `saveRc` is the result of `saveAllCursors`. -/
def sqlite3BtreeRollback (db : Connection) (tripCode saveRc pagerRc : ℕ) :
    Option (BtShared β × ℕ) := do
  let rc := if tripCode = SQLITE_OK then saveRc else SQLITE_OK
  btreeIntegrity m p
  if (m.handle p).inTrans = TRANS_WRITE then do
    guard (m.inTransaction = TRANS_WRITE)
    let m ← btreeEndTransaction { m with inTransaction := TRANS_READ } p db
    return (m, if pagerRc ≠ SQLITE_OK then pagerRc else rc)
  else do
    let m ← btreeEndTransaction m p db
    return (m, rc)

inductive Op (β : Type)
  | beginTrans (p : β) (db : Connection) (wrflag : ℕ) (pager : Pager)
  | lockTable (p : β) (db : Connection) (iTab : ℕ) (isWriteLock malloc : Bool)
  | commitPhaseTwo (p : β) (db : Connection) (bCleanup : Bool) (pagerRc : ℕ)
  | rollback (p : β) (db : Connection) (tripCode saveRc pagerRc : ℕ)

def Op.run (m : BtShared β) : Op β → Option (BtShared β × ℕ)
  | .beginTrans p db wrflag pager => sqlite3BtreeBeginTrans m p db wrflag pager
  | .lockTable p db iTab isWriteLock malloc => sqlite3BtreeLockTable m p db iTab isWriteLock malloc
  | .commitPhaseTwo p db bCleanup pagerRc => sqlite3BtreeCommitPhaseTwo m p db bCleanup pagerRc
  | .rollback p db tripCode saveRc pagerRc => sqlite3BtreeRollback m p db tripCode saveRc pagerRc

/-- What the assertions ask of a caller: only a lock on a table needs something. A handle that
reads uncommitted data may ask whether it could read the schema table, but may not lock it. -/
def Op.Legal (m : BtShared β) : Op β → Prop
  | .lockTable p db iTab isWriteLock _ => (m.handle p).inTrans ≠ TRANS_NONE ∧
      ((m.handle p).sharable = true →
        (db.readUncommitted = false ∨ isWriteLock ∨ iTab = 1) ∧
        (isWriteLock → (m.handle p).inTrans = TRANS_WRITE) ∧
        ((querySharedCacheTableLock m p db iTab (READ_LOCK + isWriteLock.toNat)).map Prod.snd =
          some SQLITE_OK → db.readUncommitted = false ∨ isWriteLock))
  | _ => True

inductive Reach (m₀ : BtShared β) : BtShared β → Prop
  | init : Reach m₀ m₀
  | step {m : BtShared β} (op : Op β) (r : BtShared β × ℕ) :
      Reach m₀ m → op.Legal m → op.run m = some r → Reach m₀ r.1

/-- The handles are open and no call was made. -/
def opened (sharable : β → Bool) (readOnly : Bool) : BtShared β :=
  ⟨fun p => ⟨sharable p, TRANS_NONE⟩, [], none, TRANS_NONE, 0, readOnly, false, false⟩

end Sqlite.SharedCache

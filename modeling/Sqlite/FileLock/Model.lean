import Mathlib.Data.Finset.Card
import Sqlite.Foundation.PosixLocks

/-! The locks on a database file. The handles of a process on one inode share its `unixInodeInfo`,
and a call holds the mutex of the process. -/
namespace Sqlite.FileLock
open Foundation

def NO_LOCK : ℕ := 0

def SHARED_LOCK : ℕ := 1

def RESERVED_LOCK : ℕ := 2

def PENDING_LOCK : ℕ := 3

def EXCLUSIVE_LOCK : ℕ := 4

def PENDING_BYTE : ℕ := 0x40000000

def RESERVED_BYTE : ℕ := PENDING_BYTE + 1

def SHARED_FIRST : ℕ := PENDING_BYTE + 2

def SHARED_SIZE : ℕ := 510

def UNIXFILE_EXCL : ℕ := 0x01

def UNIXFILE_RDONLY : ℕ := 0x02

inductive Rc
  | SQLITE_OK
  | SQLITE_BUSY
  | SQLITE_PERM
  | SQLITE_IOERR_LOCK
  | SQLITE_IOERR_UNLOCK
  | SQLITE_IOERR_RDLOCK
  | SQLITE_IOERR_CHECKRESERVEDLOCK
  deriving DecidableEq

/-- The result code of a call, and `*pResOut` of `unixCheckReservedLock`. -/
structure Out where
  rc : Rc
  reserved : Bool

structure UnixFile where
  eFileLock : ℕ
  ctrlFlags : ℕ

/-- With the open handles of the process on the inode, which are numbers. -/
structure UnixInodeInfo where
  nShared : ℤ
  eFileLock : ℕ
  bProcessLock : Bool
  nLock : ℤ
  files : Finset ℕ
  file : ℕ → UnixFile

def EPERM : ℕ := 1

def EINTR : ℕ := 4

def EAGAIN : ℕ := 11

def EACCES : ℕ := 13

def EBUSY : ℕ := 16

def ENOLCK : ℕ := 37

def ETIMEDOUT : ℕ := 110

def sqliteErrorFromPosixError (posixError : ℕ) (sqliteIOErr : Rc) : Rc :=
  if posixError ∈ [EAGAIN, ETIMEDOUT, EBUSY, EINTR, ENOLCK] then .SQLITE_BUSY
  else if posixError = EACCES ∧ sqliteIOErr ∈ [.SQLITE_IOERR_LOCK, .SQLITE_IOERR_UNLOCK,
      .SQLITE_IOERR_RDLOCK, .SQLITE_IOERR_CHECKRESERVEDLOCK] then .SQLITE_BUSY
  else if posixError = EACCES ∨ posixError = EPERM then .SQLITE_PERM
  else sqliteIOErr

variable (m : UnixInodeInfo)

/-- The lock of a handle is set. -/
def setFileLock (f eFileLock : ℕ) : UnixInodeInfo :=
  { m with file := Function.update m.file f { m.file f with eFileLock := eFileLock } }

def ret (rc : Rc) : Run UnixInodeInfo Out := .ret m ⟨rc, false⟩

def unixFileLock (f : ℕ) (lock : Flock) (next : UnixInodeInfo → Answer → Run UnixInodeInfo Out) :
    Run UnixInodeInfo Out :=
  if ((m.file f).ctrlFlags &&& UNIXFILE_EXCL ≠ 0 ∨ m.bProcessLock = true) ∧
      (m.file f).ctrlFlags &&& UNIXFILE_RDONLY = 0 then
    if m.bProcessLock = false then
      .ask m (.F_SETLK ⟨.F_WRLCK, SHARED_FIRST, SHARED_SIZE⟩) fun x =>
        match x with
        | .failed errno => next m (.failed errno)
        | .done t => next { m with bProcessLock := true, nLock := m.nLock + 1 } (.done t)
    else next m (.done lock.l_type)
  else .ask m (.F_SETLK lock) (next m)

/-- The assignments before the label `end_lock`. -/
def setLock (f eFileLock : ℕ) (rc : Rc) : Run UnixInodeInfo Out :=
  if rc = .SQLITE_OK then ret { setFileLock m f eFileLock with eFileLock := eFileLock } rc
  else if eFileLock = EXCLUSIVE_LOCK then
    ret { setFileLock m f PENDING_LOCK with eFileLock := PENDING_LOCK } rc
  else ret m rc

/-- The error code of a request for a lock. -/
def lockError : Answer → Rc
  | .failed errno => sqliteErrorFromPosixError errno .SQLITE_IOERR_LOCK
  | .done _ => .SQLITE_OK

/-- The end of a request for `SHARED_LOCK`, when the temporary PENDING lock was dropped. -/
def gotShared (f : ℕ) (rc : Rc) (x : Answer) : Run UnixInodeInfo Out :=
  let rc := match x with
    | .failed _ => if rc = .SQLITE_OK then .SQLITE_IOERR_UNLOCK else rc
    | .done _ => rc
  if rc ≠ .SQLITE_OK then ret m rc
  else setLock { setFileLock m f SHARED_LOCK with nLock := m.nLock + 1, nShared := 1 }
    f SHARED_LOCK rc

/-- The system calls of `unixLock` after that for the PENDING byte. -/
def lockRanges (f eFileLock : ℕ) : Run UnixInodeInfo Out :=
  if eFileLock = SHARED_LOCK then
    unixFileLock m f ⟨.F_RDLCK, SHARED_FIRST, SHARED_SIZE⟩ fun m x =>
      unixFileLock m f ⟨.F_UNLCK, PENDING_BYTE, 1⟩ fun m y => gotShared m f (lockError x) y
  else if eFileLock = EXCLUSIVE_LOCK ∧ 1 < m.nShared then setLock m f eFileLock .SQLITE_BUSY
  else
    unixFileLock m f (if eFileLock = RESERVED_LOCK then ⟨.F_WRLCK, RESERVED_BYTE, 1⟩
      else ⟨.F_WRLCK, SHARED_FIRST, SHARED_SIZE⟩) fun m x => setLock m f eFileLock (lockError x)

def unixLock (f eFileLock : ℕ) : Run UnixInodeInfo Out :=
  if eFileLock ≤ (m.file f).eFileLock then ret m .SQLITE_OK
  else if (m.file f).eFileLock ≠ m.eFileLock ∧
      (PENDING_LOCK ≤ m.eFileLock ∨ SHARED_LOCK < eFileLock) then ret m .SQLITE_BUSY
  else if eFileLock = SHARED_LOCK ∧ (m.eFileLock = SHARED_LOCK ∨ m.eFileLock = RESERVED_LOCK) then
    ret { setFileLock m f SHARED_LOCK with nShared := m.nShared + 1, nLock := m.nLock + 1 }
      .SQLITE_OK
  else if eFileLock = SHARED_LOCK ∨
      eFileLock = EXCLUSIVE_LOCK ∧ (m.file f).eFileLock < PENDING_LOCK then
    unixFileLock m f ⟨if eFileLock = SHARED_LOCK then .F_RDLCK else .F_WRLCK, PENDING_BYTE, 1⟩
      fun m x => match x with
        | .failed errno => ret m (sqliteErrorFromPosixError errno .SQLITE_IOERR_LOCK)
        | .done _ => lockRanges m f eFileLock
  else lockRanges m f eFileLock

/-- The end of `posixUnlock`. -/
def endUnlock (f eFileLock : ℕ) (rc : Rc) : Run UnixInodeInfo Out :=
  if rc = .SQLITE_OK then ret (setFileLock m f eFileLock) rc else ret m rc

/-- The lock counts are decremented, and the locks of the process dropped with the last one. -/
def dropShared (f eFileLock : ℕ) : Run UnixInodeInfo Out :=
  if eFileLock = NO_LOCK then
    let m := { m with nShared := m.nShared - 1 }
    if m.nShared = 0 then
      unixFileLock m f ⟨.F_UNLCK, 0, 0⟩ fun m x =>
        match x with
        | .done _ => endUnlock { m with eFileLock := NO_LOCK, nLock := m.nLock - 1 } f eFileLock
            .SQLITE_OK
        | .failed _ => endUnlock { setFileLock m f NO_LOCK with
            eFileLock := NO_LOCK, nLock := m.nLock - 1 } f eFileLock .SQLITE_IOERR_UNLOCK
    else endUnlock { m with nLock := m.nLock - 1 } f eFileLock .SQLITE_OK
  else endUnlock m f eFileLock .SQLITE_OK

/-- The PENDING and RESERVED bytes are unlocked. -/
def dropBytes (f eFileLock : ℕ) : Run UnixInodeInfo Out :=
  unixFileLock m f ⟨.F_UNLCK, PENDING_BYTE, 2⟩ fun m x =>
    match x with
    | .done _ => dropShared { m with eFileLock := SHARED_LOCK } f eFileLock
    | .failed _ => endUnlock m f eFileLock .SQLITE_IOERR_UNLOCK

def posixUnlock (f eFileLock : ℕ) : Run UnixInodeInfo Out :=
  if (m.file f).eFileLock ≤ eFileLock then ret m .SQLITE_OK
  else if SHARED_LOCK < (m.file f).eFileLock then
    if eFileLock = SHARED_LOCK then
      unixFileLock m f ⟨.F_RDLCK, SHARED_FIRST, SHARED_SIZE⟩ fun m x =>
        match x with
        | .done _ => dropBytes m f eFileLock
        | .failed _ => endUnlock m f eFileLock .SQLITE_IOERR_RDLOCK
    else dropBytes m f eFileLock
  else dropShared m f eFileLock

def unixCheckReservedLock : Run UnixInodeInfo Out :=
  if SHARED_LOCK < m.eFileLock then .ret m ⟨.SQLITE_OK, true⟩
  else if m.bProcessLock = false then
    .ask m (.F_GETLK ⟨.F_WRLCK, RESERVED_BYTE, 1⟩) fun x =>
      match x with
      | .failed _ => .ret m ⟨.SQLITE_IOERR_CHECKRESERVEDLOCK, false⟩
      | .done t => .ret m ⟨.SQLITE_OK, decide (t ≠ .F_UNLCK)⟩
  else .ret m ⟨.SQLITE_OK, false⟩

inductive Op
  | lock (f eFileLock : ℕ)
  | unlock (f eFileLock : ℕ)
  | checkReserved (f : ℕ)

def Op.start : Op → UnixInodeInfo → Run UnixInodeInfo Out
  | .lock f eFileLock, m => unixLock m f eFileLock
  | .unlock f eFileLock, m => posixUnlock m f eFileLock
  | .checkReserved _, m => unixCheckReservedLock m

/-- The asserts at the beginning of the calls. -/
def Op.Legal : Op → UnixInodeInfo → Prop
  | .lock f eFileLock, m => f ∈ m.files ∧
      (eFileLock = SHARED_LOCK ∨ eFileLock = RESERVED_LOCK ∨ eFileLock = EXCLUSIVE_LOCK) ∧
      ((m.file f).eFileLock < eFileLock →
        ((m.file f).eFileLock ≠ NO_LOCK ∨ eFileLock = SHARED_LOCK) ∧
        (eFileLock ≠ RESERVED_LOCK ∨ (m.file f).eFileLock = SHARED_LOCK))
  | .unlock f eFileLock, m => f ∈ m.files ∧ eFileLock ≤ SHARED_LOCK
  | .checkReserved f, m => f ∈ m.files

/-- A process with some open handles that have no lock yet. -/
def opened (files : Finset ℕ) (ctrlFlags : ℕ → ℕ) : UnixInodeInfo :=
  ⟨0, NO_LOCK, false, 0, files, fun f => ⟨NO_LOCK, ctrlFlags f⟩⟩

/-- Before the first call. -/
def atFirst {Proc : Type*} (files : Proc → Finset ℕ) (ctrlFlags : Proc → ℕ → ℕ) :
    World Proc Op UnixInodeInfo Out :=
  ⟨fun a => ⟨none, ret (opened (files a) (ctrlFlags a)) .SQLITE_OK⟩, fun _ _ => .F_UNLCK⟩

end Sqlite.FileLock

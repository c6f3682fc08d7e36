import Sqlite.FileLock.Levels
import Sqlite.FileLock.Model

/-! What holds of the handles of a process and its locks on bytes, in a call and between calls. -/
namespace Sqlite.FileLock
open Foundation

section

/-! The locks of one process on the bytes of the file. -/

variable {p r s : LockType}

/-- The locks of a process on the PENDING byte, the RESERVED byte and the SHARED range. -/
def bytes (p r s : LockType) (b : ℕ) : LockType :=
  if b = PENDING_BYTE then p
  else if b = RESERVED_BYTE then r
  else if SHARED_FIRST ≤ b ∧ b < SHARED_FIRST + SHARED_SIZE then s
  else .F_UNLCK

theorem bytes_pending : bytes p r s PENDING_BYTE = p := if_pos rfl

theorem bytes_reserved : bytes p r s RESERVED_BYTE = r := rfl

theorem bytes_shared : bytes p r s SHARED_FIRST = s := rfl

theorem reserved_eq : RESERVED_BYTE = PENDING_BYTE + 1 := rfl

theorem first_eq : SHARED_FIRST = PENDING_BYTE + 2 := rfl

/-- The locks after a request that covers some of the three ranges whole, and no byte beside. -/
theorem set_bytes {lock : Flock} {p' r' s' : LockType}
    (hp : p' = if lock.Covers PENDING_BYTE then lock.l_type else p)
    (hr : r' = if lock.Covers RESERVED_BYTE then lock.l_type else r)
    (hs : ∀ b, SHARED_FIRST ≤ b → b < SHARED_FIRST + SHARED_SIZE →
      s' = if lock.Covers b then lock.l_type else s)
    (ho : ∀ b, b ≠ PENDING_BYTE → b ≠ RESERVED_BYTE →
      ¬ (SHARED_FIRST ≤ b ∧ b < SHARED_FIRST + SHARED_SIZE) → lock.Covers b →
      lock.l_type = .F_UNLCK) : lock.set (bytes p r s) = bytes p' r' s' := by
  funext b
  unfold Flock.set bytes
  by_cases hb : b = PENDING_BYTE
  · rw [if_pos hb, if_pos hb, hp, hb]
  · rw [if_neg hb, if_neg hb]
    by_cases hb' : b = RESERVED_BYTE
    · rw [if_pos hb', if_pos hb', hr, hb']
    · rw [if_neg hb', if_neg hb']
      by_cases hin : SHARED_FIRST ≤ b ∧ b < SHARED_FIRST + SHARED_SIZE
      · rw [if_pos hin, if_pos hin, hs b hin.1 hin.2]
      · rw [if_neg hin, if_neg hin]
        split
        · exact ho b hb hb' hin (by assumption)
        · rfl

theorem set_pending (t : LockType) :
    (⟨t, PENDING_BYTE, 1⟩ : Flock).set (bytes p r s) = bytes t r s := by
  have hc : ∀ b, (⟨t, PENDING_BYTE, 1⟩ : Flock).Covers b ↔ b = PENDING_BYTE := by
    intro b
    rw [Flock.covers_iff (by decide)]
    omega
  have hr := reserved_eq
  have hf := first_eq
  apply set_bytes
  · rw [if_pos ((hc _).mpr rfl)]
  · rw [if_neg (fun h => by have := (hc _).mp h; omega)]
  · intro b h1 _
    rw [if_neg (fun h => by have := (hc _).mp h; omega)]
  · exact fun b h1 _ _ h => absurd ((hc b).mp h) h1

theorem set_reserved (t : LockType) :
    (⟨t, RESERVED_BYTE, 1⟩ : Flock).set (bytes p r s) = bytes p t s := by
  have hc : ∀ b, (⟨t, RESERVED_BYTE, 1⟩ : Flock).Covers b ↔ b = RESERVED_BYTE := by
    intro b
    rw [Flock.covers_iff (by decide)]
    omega
  have hr := reserved_eq
  have hf := first_eq
  apply set_bytes
  · rw [if_neg (fun h => by have := (hc _).mp h; omega)]
  · rw [if_pos ((hc _).mpr rfl)]
  · intro b h1 _
    rw [if_neg (fun h => by have := (hc _).mp h; omega)]
  · exact fun b _ h1 _ h => absurd ((hc b).mp h) h1

theorem set_shared (t : LockType) :
    (⟨t, SHARED_FIRST, SHARED_SIZE⟩ : Flock).set (bytes p r s) = bytes p r t := by
  have hc : ∀ b, (⟨t, SHARED_FIRST, SHARED_SIZE⟩ : Flock).Covers b ↔
      SHARED_FIRST ≤ b ∧ b < SHARED_FIRST + SHARED_SIZE := by
    intro b
    rw [Flock.covers_iff (by decide)]
  have hr := reserved_eq
  have hf := first_eq
  apply set_bytes
  · rw [if_neg (fun h => by have := (hc _).mp h; omega)]
  · rw [if_neg (fun h => by have := (hc _).mp h; omega)]
  · intro b h1 h2
    rw [if_pos ((hc b).mpr ⟨h1, h2⟩)]
  · exact fun b _ _ h1 h => absurd ((hc b).mp h) h1

theorem set_both (t : LockType) :
    (⟨t, PENDING_BYTE, 2⟩ : Flock).set (bytes p r s) = bytes t t s := by
  have hc : ∀ b, (⟨t, PENDING_BYTE, 2⟩ : Flock).Covers b ↔ b = PENDING_BYTE ∨ b = RESERVED_BYTE := by
    intro b
    rw [Flock.covers_iff (by decide), reserved_eq]
    omega
  have hr := reserved_eq
  have hf := first_eq
  apply set_bytes
  · rw [if_pos ((hc _).mpr (Or.inl rfl))]
  · rw [if_pos ((hc _).mpr (Or.inr rfl))]
  · intro b h1 _
    rw [if_neg (fun h => by have := (hc _).mp h; omega)]
  · intro b h1 h2 _ h
    exact absurd ((hc b).mp h) (not_or.mpr ⟨h1, h2⟩)

theorem set_all : (⟨.F_UNLCK, 0, 0⟩ : Flock).set (bytes p r s) =
    bytes .F_UNLCK .F_UNLCK .F_UNLCK := by
  have hc : ∀ b, (⟨.F_UNLCK, 0, 0⟩ : Flock).Covers b := fun b => ⟨Nat.zero_le b, Or.inl rfl⟩
  apply set_bytes
  · rw [if_pos (hc _)]
  · rw [if_pos (hc _)]
  · intro b _ _
    rw [if_pos (hc b)]
  · exact fun _ _ _ _ _ => rfl

end

variable {m m' : UnixInodeInfo} {held held' : ℕ → LockType} {files : Finset ℕ} {lv lv' : ℕ → ℕ}
  {f e t : ℕ} {n l : ℤ} {p r s : LockType}

def levels (m : UnixInodeInfo) (f : ℕ) : ℕ := (m.file f).eFileLock

/-- The levels while a call is running: a handle that is unlocked counts with its new level. -/
def Op.levels (op : Op) (lv : ℕ → ℕ) : ℕ → ℕ :=
  match op with
  | .unlock f eFileLock => Function.update lv f (min eFileLock (lv f))
  | .lock _ _ => lv
  | .checkReserved _ => lv

/-- The levels exclude each other, and the locks on bytes are those that keep other processes off. -/
structure Guards (files : Finset ℕ) (lv : ℕ → ℕ) (held : ℕ → LockType) : Prop where
  one : ∀ f ∈ files, ∀ g ∈ files, SHARED_LOCK < lv f → SHARED_LOCK < lv g → f = g
  alone : ∀ f ∈ files, lv f = EXCLUSIVE_LOCK → ∀ g ∈ files, g ≠ f → lv g = NO_LOCK
  shared : ∀ f ∈ files, SHARED_LOCK ≤ lv f → held SHARED_FIRST ≠ .F_UNLCK
  reserved : ∀ f ∈ files, lv f = RESERVED_LOCK →
    held RESERVED_BYTE = .F_WRLCK ∨ held SHARED_FIRST = .F_WRLCK
  pending : ∀ f ∈ files, PENDING_LOCK ≤ lv f →
    held PENDING_BYTE = .F_WRLCK ∨ held SHARED_FIRST = .F_WRLCK
  exclusive : ∀ f ∈ files, lv f = EXCLUSIVE_LOCK → held SHARED_FIRST = .F_WRLCK

/-- The locks on bytes for a level; those for PENDING and EXCLUSIVE may be without RESERVED. -/
structure Ranges (top : ℕ) (p r s : LockType) : Prop where
  pending : p = if PENDING_LOCK ≤ top then .F_WRLCK else .F_UNLCK
  reserved : top = RESERVED_LOCK → r = .F_WRLCK
  unreserved : top ≤ SHARED_LOCK → r = .F_UNLCK
  high : r = .F_WRLCK ∨ r = .F_UNLCK
  shared : s = if top = NO_LOCK then .F_UNLCK
    else if top = EXCLUSIVE_LOCK then .F_WRLCK else .F_RDLCK

/-- The handles are not of the VFS that locks the file for the whole process. -/
def Plain (m : UnixInodeInfo) : Prop :=
  m.bProcessLock = false ∧ ∀ f ∈ m.files, (m.file f).ctrlFlags &&& UNIXFILE_EXCL = 0

/-- All handles are of that VFS, and for writing. -/
def Owner (m : UnixInodeInfo) : Prop :=
  ∀ f ∈ m.files, (m.file f).ctrlFlags &&& UNIXFILE_EXCL ≠ 0 ∧
    (m.file f).ctrlFlags &&& UNIXFILE_RDONLY = 0

def plainBytes (m : UnixInodeInfo) (held : ℕ → LockType) : Prop :=
  ∃ p r s, held = bytes p r s ∧ Ranges m.eFileLock p r s

def ownerBytes (m : UnixInodeInfo) (held : ℕ → LockType) : Prop :=
  if m.bProcessLock = true then held = bytes .F_UNLCK .F_UNLCK .F_WRLCK
  else m.eFileLock = NO_LOCK ∧ held = bytes .F_UNLCK .F_UNLCK .F_UNLCK

/-- Between calls. -/
structure Idle (m : UnixInodeInfo) (held : ℕ → LockType) : Prop where
  levels : Levels m.files (levels m) m.nShared m.eFileLock
  bytes : Plain m ∧ plainBytes m held ∨ Owner m ∧ ownerBytes m held

/-- When a handle gets its first lock, the own process has no PENDING lock, and no other process has
one unless there already is a lock in the own process. -/
def Grants (m : UnixInodeInfo) (held : ℕ → LockType) (m' : UnixInodeInfo)
    (held' : ℕ → LockType) : Prop :=
  ∀ f ∈ m.files, levels m f = NO_LOCK → levels m' f ≠ NO_LOCK →
    (∀ g ∈ m.files, levels m g < PENDING_LOCK) ∧
    ((∃ g ∈ m.files, levels m g ≠ NO_LOCK) ∨ held' SHARED_FIRST = .F_WRLCK ∨
      held PENDING_BYTE = .F_RDLCK ∧ held SHARED_FIRST ≠ .F_UNLCK)

def fileLock : Contract Op UnixInodeInfo Out where
  Idle := Idle
  Mid := fun c m held => Guards m.files (c.op.levels (levels m)) held
  Moves := fun _ m held m' held' => Grants m held m' held'
  Post := fun _ _ _ _ => True

theorem setFileLock_self : (setFileLock m f e).file f = { m.file f with eFileLock := e } :=
  Function.update_self ..

theorem setFileLock_of_ne {g : ℕ} (hg : g ≠ f) : (setFileLock m f e).file g = m.file g :=
  Function.update_of_ne hg _ _

theorem levels_setFileLock : levels (setFileLock m f e) = Function.update (levels m) f e := by
  funext g
  unfold levels
  by_cases hg : g = f
  · rw [hg, Function.update_self, setFileLock_self]
  · rw [Function.update_of_ne hg, setFileLock_of_ne hg]

/-- What no call changes but `bProcessLock`. -/
structure Frame (m m' : UnixInodeInfo) : Prop where
  files : m'.files = m.files
  ctrlFlags : ∀ g, (m'.file g).ctrlFlags = (m.file g).ctrlFlags

theorem Frame.refl (m : UnixInodeInfo) : Frame m m := ⟨rfl, fun _ => rfl⟩

theorem Frame.trans {m'' : UnixInodeInfo} (h : Frame m m') (h' : Frame m' m'') : Frame m m'' :=
  ⟨h'.files.trans h.files, fun g => (h'.ctrlFlags g).trans (h.ctrlFlags g)⟩

theorem Frame.setFileLock : Frame m (setFileLock m f e) := by
  refine ⟨rfl, fun g => ?_⟩
  by_cases hg : g = f
  · rw [hg, setFileLock_self]
  · rw [setFileLock_of_ne hg]

theorem Plain.frame (h : Plain m) (hF : Frame m m') (hb : m'.bProcessLock = m.bProcessLock) :
    Plain m' := by
  refine ⟨hb.trans h.1, ?_⟩
  rw [hF.files]
  intro g hg
  rw [hF.ctrlFlags]
  exact h.2 g hg

theorem Owner.frame (h : Owner m) (hF : Frame m m') : Owner m' := by
  unfold Owner
  rw [hF.files]
  intro g hg
  rw [hF.ctrlFlags]
  exact h g hg

/-- The locks of a level keep other processes off. -/
theorem Levels.guards (h : Levels files lv n t) (hR : Ranges t p r s) :
    Guards files lv (bytes p r s) := by
  constructor
  · exact h.one
  · exact h.alone
  · intro f hf h1
    rw [bytes_shared, hR.shared]
    have hne : t ≠ NO_LOCK := by
      have := h.le f hf
      have := h1.trans this
      rintro rfl
      exact absurd this (by decide)
    rw [if_neg hne]
    split
    · exact LockType.noConfusion
    · exact LockType.noConfusion
  · intro f hf h2
    left
    rw [bytes_reserved]
    apply hR.reserved
    rw [← h.top_of_shared hf (by rw [h2]; decide), h2]
  · intro f hf h3
    left
    have ht := h.top_of_shared hf (lt_of_lt_of_le (by decide) h3)
    rw [ht] at h3
    rw [bytes_pending, hR.pending, if_pos h3]
  · intro f hf h4
    have ht := h.top_of_shared hf (by rw [h4]; decide)
    rw [h4] at ht
    rw [bytes_shared, hR.shared, ← ht, if_neg (by decide), if_pos rfl]

/-- The lock on the SHARED range suffices. -/
theorem Levels.guards_owner (h : Levels files lv n t) :
    Guards files lv (bytes p r .F_WRLCK) := by
  constructor
  · exact h.one
  · exact h.alone
  · intro f _ _
    rw [bytes_shared]
    exact LockType.noConfusion
  · exact fun f _ _ => Or.inr bytes_shared
  · exact fun f _ _ => Or.inr bytes_shared
  · exact fun f _ _ => bytes_shared

/-- Handles without locks need none on bytes. -/
theorem guards_none (h : ∀ f ∈ files, lv f = NO_LOCK) : Guards files lv held := by
  have hno : ∀ f ∈ files, ∀ k, SHARED_LOCK ≤ k → ¬ k ≤ lv f := by
    intro f hf k hk hc
    rw [h f hf] at hc
    exact absurd (hk.trans hc) (by decide)
  constructor
  · exact fun f hf _ _ h1 => absurd h1.le (hno f hf _ (le_refl _))
  · exact fun f hf h1 => absurd h1.ge (hno f hf _ (by decide))
  · exact fun f hf h1 => absurd h1 (hno f hf _ (le_refl _))
  · exact fun f hf h1 => absurd h1.ge (hno f hf _ (by decide))
  · exact fun f hf h1 => absurd h1 (hno f hf _ (by decide))
  · exact fun f hf h1 => absurd h1.ge (hno f hf _ (by decide))

/-- Handles with SHARED locks at most. -/
theorem guards_shared (h : ∀ f ∈ files, lv f ≤ SHARED_LOCK) (hs : s ≠ .F_UNLCK) :
    Guards files lv (bytes p r s) := by
  have hno : ∀ f ∈ files, ∀ k, SHARED_LOCK < k → ¬ k ≤ lv f :=
    fun f hf k hk hc => absurd (hk.trans_le hc) (not_lt.mpr (h f hf))
  constructor
  · exact fun f hf _ _ h1 => absurd h1 (not_lt.mpr (h f hf))
  · exact fun f hf h1 => absurd h1.ge (hno f hf _ (by decide))
  · exact fun f _ _ => hs
  · exact fun f hf h1 => absurd h1.ge (hno f hf _ (by decide))
  · exact fun f hf h1 => absurd h1 (hno f hf _ (by decide))
  · exact fun f hf h1 => absurd h1.ge (hno f hf _ (by decide))

theorem grants_same (h : levels m' = levels m) : Grants m held m' held' := by
  intro f _ h0 h1
  rw [h, h0] at h1
  exact absurd rfl h1

/-- A handle that has a lock already gets another one. -/
theorem grants_update (hf : levels m f ≠ NO_LOCK) (h : levels m' = Function.update (levels m) f e) :
    Grants m held m' held' := by
  intro g _ h0 h1
  by_cases hg : g = f
  · rw [hg] at h0
    exact absurd h0 hf
  · rw [h, Function.update_of_ne hg, h0] at h1
    exact absurd rfl h1

end Sqlite.FileLock

import Sqlite.FileLock.Invariant

/-! `unixLock` keeps the invariant, at each of its system calls. -/
namespace Sqlite.FileLock
open Foundation

variable {m m₀ m' : UnixInodeInfo} {held held' held₀ : ℕ → LockType} {f e : ℕ} {p r s : LockType}
  {c : Call Op UnixInodeInfo} {next : UnixInodeInfo → Answer → Run UnixInodeInfo Out} {rc : Rc}

/-- The rest of a call after a step from `m₀`. -/
structure After (c : Call Op UnixInodeInfo) (m₀ : UnixInodeInfo) (held₀ : ℕ → LockType)
    (run : Run UnixInodeInfo Out) (held : ℕ → LockType) : Prop where
  grants : Grants m₀ held₀ run.mem held
  holds : fileLock.Holds ⟨some c, run⟩ held

theorem after_ret (hI : Idle m held) (hg : Grants m₀ held₀ m held) : After c m₀ held₀ (ret m rc) held :=
  ⟨hg, hI, trivial⟩

theorem after_ask {q : Fcntl} {next : Answer → Run UnixInodeInfo Out}
    (hmid : Guards m.files (c.op.levels (levels m)) held) (hg : Grants m₀ held₀ m held)
    (h : ∀ x held', Answers q held x held' → After c m held (next x) held') :
    After c m₀ held₀ (.ask m q next) held := by
  refine ⟨hg, hmid, ?_⟩
  intro x held' hx
  exact ⟨(h x held' hx).grants, (h x held' hx).holds⟩

/-- A request of a handle for which the system is asked. -/
theorem after_request {t : LockType} {a n : ℕ} (hpl : Plain m) (hf : f ∈ m.files)
    (hmid : Guards m.files (c.op.levels (levels m)) held) (hg : Grants m₀ held₀ m held)
    (hfail : t ≠ .F_UNLCK → ∀ errno, After c m held (next m (.failed errno)) held)
    (hok : After c m held (next m (.done t)) ((⟨t, a, n⟩ : Flock).set held)) :
    After c m₀ held₀ (unixFileLock m f ⟨t, a, n⟩ next) held := by
  have hcond : ¬ (((m.file f).ctrlFlags &&& UNIXFILE_EXCL ≠ 0 ∨ m.bProcessLock = true) ∧
      (m.file f).ctrlFlags &&& UNIXFILE_RDONLY = 0) := by
    rw [hpl.2 f hf, hpl.1]
    simp
  unfold unixFileLock
  rw [if_neg hcond]
  apply after_ask hmid hg
  intro x held' hx
  cases hx with
  | granted => exact hok
  | refused _ errno ht => exact hfail ht errno

/-- A handle of a process that has locked the file asks for nothing. -/
theorem request_owner {lock : Flock} (how : Owner m) (hf : f ∈ m.files)
    (hb : m.bProcessLock = true) : unixFileLock m f lock next = next m (.done lock.l_type) := by
  obtain ⟨h1, h2⟩ := how f hf
  unfold unixFileLock
  rw [if_pos ⟨Or.inl h1, h2⟩, if_neg (by rw [hb]; decide)]

theorem lockError_failed (errno : ℕ) : lockError (.failed errno) ≠ .SQLITE_OK := by
  show sqliteErrorFromPosixError errno .SQLITE_IOERR_LOCK ≠ .SQLITE_OK
  unfold sqliteErrorFromPosixError
  split
  · exact Rc.noConfusion
  · split
    · exact Rc.noConfusion
    · split
      · exact Rc.noConfusion
      · exact Rc.noConfusion

/-- The memory when a handle is at a new level. -/
theorem levels_set {n l : ℤ} {top : ℕ} :
    levels { setFileLock m f e with nShared := n, eFileLock := top, nLock := l } =
      Function.update (levels m) f e := levels_setFileLock

theorem frame_set {n l : ℤ} {top : ℕ} :
    Frame m { setFileLock m f e with nShared := n, eFileLock := top, nLock := l } :=
  ⟨rfl, Frame.setFileLock.ctrlFlags⟩

theorem idle_plain (hpl : Plain m) (hF : Frame m m') (hb : m'.bProcessLock = m.bProcessLock)
    (hL : Levels m.files (levels m') m'.nShared m'.eFileLock) (hR : Ranges m'.eFileLock p r s) :
    Idle m' (bytes p r s) := by
  constructor
  · rw [hF.files]
    exact hL
  · exact Or.inl ⟨hpl.frame hF hb, p, r, s, rfl, hR⟩

theorem idle_owner (how : Owner m) (hF : Frame m m') (hb : m'.bProcessLock = true)
    (hL : Levels m.files (levels m') m'.nShared m'.eFileLock) :
    Idle m' (bytes .F_UNLCK .F_UNLCK .F_WRLCK) := by
  constructor
  · rw [hF.files]
    exact hL
  · refine Or.inr ⟨how.frame hF, ?_⟩
    unfold ownerBytes
    rw [if_pos hb]

theorem Ranges.none : Ranges NO_LOCK .F_UNLCK .F_UNLCK .F_UNLCK := by
  constructor
  · rfl
  · intro h
    cases h
  · exact fun _ => rfl
  · exact Or.inr rfl
  · rfl

theorem Ranges.one : Ranges SHARED_LOCK .F_UNLCK .F_UNLCK .F_RDLCK := by
  constructor
  · rfl
  · intro h
    cases h
  · exact fun _ => rfl
  · exact Or.inr rfl
  · rfl

theorem Ranges.two : Ranges RESERVED_LOCK .F_UNLCK .F_WRLCK .F_RDLCK := by
  constructor
  · rfl
  · exact fun _ => rfl
  · intro h
    exact absurd h (by decide)
  · exact Or.inl rfl
  · rfl

theorem Ranges.three (hr : r = .F_WRLCK ∨ r = .F_UNLCK) : Ranges PENDING_LOCK .F_WRLCK r .F_RDLCK := by
  constructor
  · rfl
  · intro h
    cases h
  · intro h
    exact absurd h (by decide)
  · exact hr
  · rfl

theorem Ranges.four (hr : r = .F_WRLCK ∨ r = .F_UNLCK) : Ranges EXCLUSIVE_LOCK .F_WRLCK r .F_WRLCK := by
  constructor
  · rfl
  · intro h
    cases h
  · intro h
    exact absurd h (by decide)
  · exact hr
  · rfl

section Shared

variable (hop : c.op = .lock f SHARED_LOCK) (hf : f ∈ m.files)
  (hL : Levels m.files (levels m) m.nShared m.eFileLock) (h0 : m.eFileLock = NO_LOCK)

include hop in
theorem mid_shared (h0 : ∀ g ∈ m.files, levels m g = NO_LOCK) :
    Guards m.files (c.op.levels (levels m)) held := by
  rw [hop]
  exact guards_none h0

include hop hf hL h0

/-- The first handle of a process asks for `SHARED_LOCK`. -/
theorem after_shared (hpl : Plain m) : After c m (bytes .F_UNLCK .F_UNLCK .F_UNLCK)
    (unixFileLock m f ⟨.F_RDLCK, PENDING_BYTE, 1⟩ fun m x => match x with
      | .failed errno => ret m (sqliteErrorFromPosixError errno .SQLITE_IOERR_LOCK)
      | .done _ => lockRanges m f SHARED_LOCK) (bytes .F_UNLCK .F_UNLCK .F_UNLCK) := by
  have hno : ∀ g ∈ m.files, levels m g = NO_LOCK := by
    intro g hg
    have := hL.le g hg
    rw [h0] at this
    exact Nat.le_zero.mp this
  have hmid : ∀ held, Guards m.files (c.op.levels (levels m)) held := fun _ => mid_shared hop hno
  have hidle : Idle m (bytes .F_UNLCK .F_UNLCK .F_UNLCK) := by
    refine idle_plain hpl (Frame.refl m) rfl hL ?_
    rw [h0]
    exact Ranges.none
  have hsame : ∀ {held held'}, Grants m held m held' := grants_same rfl
  apply after_request hpl hf (hmid _) hsame
  · exact fun _ errno => after_ret hidle hsame
  rw [set_pending]
  show After c m _ (lockRanges m f SHARED_LOCK) _
  unfold lockRanges
  rw [if_pos rfl]
  apply after_request hpl hf (hmid _) hsame
  · -- the lock on the SHARED range is refused, and the one on the PENDING byte dropped
    intro _ errno
    apply after_request hpl hf (hmid _) hsame
    · exact fun hc => absurd rfl hc
    rw [set_pending]
    show After c m _ (gotShared m f (lockError (.failed errno)) (.done .F_UNLCK)) _
    unfold gotShared
    simp only
    rw [if_pos (lockError_failed errno)]
    exact after_ret hidle hsame
  rw [set_shared]
  apply after_request hpl hf (hmid _) hsame
  · exact fun hc => absurd rfl hc
  rw [set_pending]
  apply after_ret
  · refine idle_plain hpl (frame_set.trans frame_set) rfl ?_ Ranges.one
    rw [levels_set, levels_set, Function.update_idem]
    exact Levels.first (h0 ▸ hL) hf
  · intro g _ _ _
    refine ⟨?_, Or.inr (Or.inr ⟨bytes_pending, ?_⟩)⟩
    · intro a ha
      rw [hno a ha]
      decide
    · rw [bytes_shared]
      exact LockType.noConfusion

end Shared

/-- With the PENDING byte locked, the locks are those that any level but EXCLUSIVE needs. -/
theorem Levels.guards_pending {files : Finset ℕ} {lv : ℕ → ℕ} {n : ℤ} {t : ℕ}
    (h : Levels files lv n t) (ht : t ≠ EXCLUSIVE_LOCK) (hr : t = RESERVED_LOCK → r = .F_WRLCK) :
    Guards files lv (bytes .F_WRLCK r .F_RDLCK) := by
  have hx : ∀ f ∈ files, lv f ≠ EXCLUSIVE_LOCK := by
    intro f hf hc
    apply ht
    rw [← h.top_of_shared hf (by rw [hc]; decide), hc]
  constructor
  · exact h.one
  · exact fun f hf hc => absurd hc (hx f hf)
  · intro f _ _
    rw [bytes_shared]
    exact LockType.noConfusion
  · intro f hf h2
    left
    rw [bytes_reserved]
    apply hr
    rw [← h.top_of_shared hf (by rw [h2]; decide), h2]
  · exact fun f _ _ => Or.inl bytes_pending
  · exact fun f hf hc => absurd hc (hx f hf)

section Raise

variable (hf : f ∈ m.files) (hL : Levels m.files (levels m) m.nShared m.eFileLock)
  (hlv : levels m f = m.eFileLock) (h1 : SHARED_LOCK ≤ m.eFileLock)
include hlv h1

theorem grants_raised {e : ℕ} : Grants m held { setFileLock m f e with eFileLock := e } held' := by
  apply grants_update _ levels_set
  intro hc
  rw [← hlv, hc] at h1
  exact absurd h1 (by decide)

include hf hL

/-- The memory after the handle with the highest lock got a higher one. -/
theorem levels_raised {e : ℕ} (he : m.eFileLock ≤ e) (he1 : SHARED_LOCK < e)
    (he4 : e ≤ EXCLUSIVE_LOCK) (hx : e = EXCLUSIVE_LOCK → m.nShared ≤ 1) :
    Levels m.files (levels { setFileLock m f e with eFileLock := e }) m.nShared e := by
  rw [levels_set]
  exact hL.raise hf hlv h1 he he1 he4 hx

theorem after_reserved (hop : c.op = .lock f RESERVED_LOCK) (hpl : Plain m)
    (h1' : m.eFileLock = SHARED_LOCK) :
    After c m (bytes .F_UNLCK .F_UNLCK .F_RDLCK) (lockRanges m f RESERVED_LOCK)
      (bytes .F_UNLCK .F_UNLCK .F_RDLCK) := by
  have hR : Ranges m.eFileLock .F_UNLCK .F_UNLCK .F_RDLCK := by
    rw [h1']
    exact Ranges.one
  have hidle : Idle m (bytes .F_UNLCK .F_UNLCK .F_RDLCK) :=
    idle_plain hpl (Frame.refl m) rfl hL hR
  unfold lockRanges
  rw [if_neg (by decide), if_neg (fun hc => absurd hc.1 (by decide)), if_pos rfl]
  apply after_request hpl hf
  · rw [hop]
    exact hL.guards hR
  · exact grants_same rfl
  · intro _ errno
    show After c m _ (setLock m f RESERVED_LOCK (lockError (.failed errno))) _
    unfold setLock
    rw [if_neg (lockError_failed errno), if_neg (by decide)]
    exact after_ret hidle (grants_same rfl)
  · rw [set_reserved]
    apply after_ret
    · refine idle_plain hpl frame_set rfl ?_ Ranges.two
      exact levels_raised hf hL hlv h1 (by rw [h1']; decide) (by decide) (by decide)
        (fun hc => absurd hc (by decide))
    · exact grants_raised hlv h1

theorem after_exclusive (hop : c.op = .lock f EXCLUSIVE_LOCK) (hpl : Plain m)
    (hlt : m.eFileLock < EXCLUSIVE_LOCK) (hr : r = .F_WRLCK ∨ r = .F_UNLCK)
    (hr2 : m.eFileLock = RESERVED_LOCK → r = .F_WRLCK) :
    After c m held₀ (lockRanges m f EXCLUSIVE_LOCK) (bytes .F_WRLCK r .F_RDLCK) := by
  have hfail : ∀ rc, rc ≠ .SQLITE_OK → ∀ {held₁},
      After c m held₁ (setLock m f EXCLUSIVE_LOCK rc) (bytes .F_WRLCK r .F_RDLCK) := by
    intro rc hrc held₁
    unfold setLock
    rw [if_neg hrc, if_pos rfl]
    apply after_ret
    · refine idle_plain hpl frame_set rfl ?_ (Ranges.three hr)
      exact levels_raised hf hL hlv h1 (Nat.le_of_lt_succ hlt) (by decide) (by decide)
        (fun hc => absurd hc (by decide))
    · exact grants_raised hlv h1
  unfold lockRanges
  rw [if_neg (by decide)]
  split
  · exact hfail _ Rc.noConfusion
  · rename_i hn
    have hn1 : m.nShared ≤ 1 := by
      by_contra hc
      exact hn ⟨rfl, not_le.mp hc⟩
    rw [if_neg (by decide)]
    apply after_request hpl hf
    · rw [hop]
      exact hL.guards_pending hlt.ne hr2
    · exact grants_same rfl
    · intro _ errno
      exact hfail _ (lockError_failed errno)
    · rw [set_shared]
      apply after_ret
      · refine idle_plain hpl frame_set rfl ?_ (Ranges.four hr)
        exact levels_raised hf hL hlv h1 hlt.le (by decide) (le_refl _) (fun _ => hn1)
      · exact grants_raised hlv h1

end Raise

section Owner

variable (hf : f ∈ m.files) (hL : Levels m.files (levels m) m.nShared m.eFileLock) (how : Owner m)
  (hb : m.bProcessLock = true)
include hf hL how hb

theorem after_shared_owner (h0 : m.eFileLock = NO_LOCK)
    (hfiles : m₀.files = m.files) (hlv : levels m₀ = levels m) :
    After c m₀ held₀ (lockRanges m f SHARED_LOCK) (bytes .F_UNLCK .F_UNLCK .F_WRLCK) := by
  have hno : ∀ g ∈ m.files, levels m g = NO_LOCK := by
    intro g hg
    have := hL.le g hg
    rw [h0] at this
    exact Nat.le_zero.mp this
  unfold lockRanges
  rw [if_pos rfl, request_owner how hf hb]
  show After c m₀ held₀ (unixFileLock m f _ _) _
  rw [request_owner how hf hb]
  apply after_ret
  · refine idle_owner how (frame_set.trans frame_set) hb ?_
    rw [levels_set, levels_set, Function.update_idem]
    exact Levels.first (h0 ▸ hL) hf
  · intro g _ _ _
    refine ⟨?_, Or.inr (Or.inl bytes_shared)⟩
    rw [hfiles, hlv]
    intro a ha
    rw [hno a ha]
    decide

theorem after_raised_owner (hlv : levels m f = m.eFileLock) (h1 : SHARED_LOCK ≤ m.eFileLock)
    (he : e = RESERVED_LOCK ∧ m.eFileLock = SHARED_LOCK ∨
      e = EXCLUSIVE_LOCK ∧ m.eFileLock < EXCLUSIVE_LOCK) :
    After c m held₀ (lockRanges m f e) (bytes .F_UNLCK .F_UNLCK .F_WRLCK) := by
  unfold lockRanges
  rcases he with ⟨rfl, hs⟩ | ⟨rfl, hlt⟩
  · rw [if_neg (by decide), if_neg (fun hc => absurd hc.1 (by decide)), if_pos rfl,
      request_owner how hf hb]
    apply after_ret
    · refine idle_owner how frame_set hb ?_
      exact levels_raised hf hL hlv h1 (by rw [hs]; decide) (by decide) (by decide)
        (fun hc => absurd hc (by decide))
    · exact grants_raised hlv h1
  · rw [if_neg (by decide)]
    split
    · apply after_ret
      · refine idle_owner how frame_set hb ?_
        exact levels_raised hf hL hlv h1 (Nat.le_of_lt_succ hlt) (by decide) (by decide)
          (fun hc => absurd hc (by decide))
      · exact grants_raised hlv h1
    · rename_i hn
      have hn1 : m.nShared ≤ 1 := by
        by_contra hc
        exact hn ⟨rfl, not_le.mp hc⟩
      rw [request_owner how hf hb]
      apply after_ret
      · refine idle_owner how frame_set hb ?_
        exact levels_raised hf hL hlv h1 hlt.le (by decide) (le_refl _) (fun _ => hn1)
      · exact grants_raised hlv h1

end Owner

/-- The last branch of the test whether the lock of another handle is in the way. -/
theorem own_level {lv top : ℕ} (h : ¬ (lv ≠ top ∧ (PENDING_LOCK ≤ top ∨ SHARED_LOCK < e))) :
    SHARED_LOCK < e → lv = top := by
  intro he
  by_contra hc
  exact h ⟨hc, Or.inr he⟩

theorem no_level {lv top : ℕ} (h : ¬ (lv ≠ top ∧ (PENDING_LOCK ≤ top ∨ SHARED_LOCK < SHARED_LOCK)))
    (hlv : lv = NO_LOCK) (hs : ¬ (top = SHARED_LOCK ∨ top = RESERVED_LOCK)) : top = NO_LOCK := by
  unfold PENDING_LOCK SHARED_LOCK at h
  unfold SHARED_LOCK RESERVED_LOCK at hs
  unfold NO_LOCK at hlv ⊢
  omega

theorem Ranges.of_none (h : Ranges NO_LOCK p r s) : p = .F_UNLCK ∧ r = .F_UNLCK ∧ s = .F_UNLCK :=
  ⟨h.pending, h.unreserved (by decide), h.shared⟩

theorem Ranges.of_low {t : ℕ} (h : Ranges t p r s) (h1 : SHARED_LOCK ≤ t) (h2 : t < PENDING_LOCK) :
    p = .F_UNLCK ∧ s = .F_RDLCK := by
  have hp := h.pending
  have hs := h.shared
  have hne : t ≠ EXCLUSIVE_LOCK := by
    rintro rfl
    exact absurd h2 (by decide)
  rw [if_neg (not_le.mpr h2)] at hp
  have h0 : t ≠ NO_LOCK := Nat.one_le_iff_ne_zero.mp h1
  rw [if_neg h0, if_neg hne] at hs
  exact ⟨hp, hs⟩

theorem Ranges.of_pending (h : Ranges PENDING_LOCK p r s) : p = .F_WRLCK ∧ s = .F_RDLCK :=
  ⟨h.pending, h.shared⟩

/-- The first handle of a process of the VFS that locks the file for the whole process. -/
theorem after_first_owner {t : LockType} (hop : c.op = .lock f SHARED_LOCK) (hf : f ∈ m.files)
    (hL : Levels m.files (levels m) m.nShared m.eFileLock) (h0 : m.eFileLock = NO_LOCK)
    (how : Owner m) (hb : ownerBytes m held) :
    After c m held (unixFileLock m f ⟨t, PENDING_BYTE, 1⟩ fun m x => match x with
      | .failed errno => ret m (sqliteErrorFromPosixError errno .SQLITE_IOERR_LOCK)
      | .done _ => lockRanges m f SHARED_LOCK) held := by
  have hno : ∀ g ∈ m.files, levels m g = NO_LOCK := by
    intro g hg
    have := hL.le g hg
    rw [h0] at this
    exact Nat.le_zero.mp this
  unfold ownerBytes at hb
  split at hb
  · rename_i hproc
    rw [request_owner how hf hproc, hb]
    exact after_shared_owner hf hL how hproc h0 rfl rfl
  · rename_i hproc
    obtain ⟨-, rfl⟩ := hb
    have hidle : Idle m (bytes .F_UNLCK .F_UNLCK .F_UNLCK) := by
      refine ⟨hL, Or.inr ⟨how, ?_⟩⟩
      unfold ownerBytes
      rw [if_neg hproc]
      exact ⟨h0, rfl⟩
    obtain ⟨h1, h2⟩ := how f hf
    unfold unixFileLock
    rw [if_pos ⟨Or.inl h1, h2⟩, if_pos (eq_false_of_ne_true hproc)]
    apply after_ask (mid_shared hop hno) (grants_same rfl)
    intro x held' hx
    cases hx with
    | refused _ errno _ => exact after_ret hidle (grants_same rfl)
    | granted =>
      rw [set_shared]
      exact after_shared_owner (m := { m with bProcessLock := true, nLock := m.nLock + 1 }) hf hL
        how rfl h0 rfl rfl

/-- A handle joins those of its process that have locks already. -/
theorem after_join (hI : Idle m held) (hf : f ∈ m.files) (hlv : levels m f = NO_LOCK)
    (ht : m.eFileLock = SHARED_LOCK ∨ m.eFileLock = RESERVED_LOCK) :
    After c m held (ret { setFileLock m f SHARED_LOCK with
      nShared := m.nShared + 1, nLock := m.nLock + 1 } .SQLITE_OK) held := by
  have hL : Levels m.files (levels { setFileLock m f SHARED_LOCK with
      nShared := m.nShared + 1, nLock := m.nLock + 1 }) (m.nShared + 1) m.eFileLock := by
    rw [levels_set]
    exact hI.levels.share hf hlv ht
  apply after_ret
  · rcases hI.bytes with ⟨hpl, p, r, s, rfl, hR⟩ | ⟨how, hb⟩
    · exact idle_plain hpl frame_set rfl hL hR
    · unfold ownerBytes at hb
      split at hb
      · rename_i hproc
        rw [hb]
        exact idle_owner how frame_set hproc hL
      · rw [hb.1] at ht
        rcases ht with ht | ht
        · cases ht
        · cases ht
  · intro g _ _ _
    constructor
    · intro a ha
      apply lt_of_le_of_lt (hI.levels.le a ha)
      rcases ht with ht | ht
      · rw [ht]
        decide
      · rw [ht]
        decide
    · left
      rcases hI.levels.max with h0 | ⟨a, ha, hal⟩
      · rw [h0] at ht
        rcases ht with ht | ht
        · cases ht
        · cases ht
      · refine ⟨a, ha, ?_⟩
        rw [hal]
        rcases ht with ht | ht
        · rw [ht]
          decide
        · rw [ht]
          decide

theorem unixLock_keeps (hI : Idle m held) (hop : c.op = .lock f e) (hl : (Op.lock f e).Legal m) :
    After c m held (unixLock m f e) held := by
  obtain ⟨hf, he, hassert⟩ := hl
  have hL := hI.levels
  have hsame : Grants m held m held := grants_same rfl
  unfold unixLock
  split
  · exact after_ret hI hsame
  rename_i hlt
  have hlt' : levels m f < e := not_le.mp hlt
  obtain ⟨ha1, ha2⟩ := hassert hlt'
  split
  · exact after_ret hI hsame
  rename_i hbusy
  split
  · rename_i hjoin
    obtain ⟨rfl, ht⟩ := hjoin
    exact after_join hI hf (Nat.lt_one_iff.mp hlt') ht
  rename_i hjoin
  -- what the locks of the process are for the requests that are left
  have hcase : e = SHARED_LOCK ∧ m.eFileLock = NO_LOCK ∨
      SHARED_LOCK < e ∧ levels m f = m.eFileLock ∧ SHARED_LOCK ≤ m.eFileLock := by
    by_cases hs : e = SHARED_LOCK
    · subst hs
      refine Or.inl ⟨rfl, no_level hbusy (Nat.lt_one_iff.mp hlt') ?_⟩
      exact fun hc => hjoin ⟨rfl, hc⟩
    · have hgt : SHARED_LOCK < e := by
        rcases he with rfl | rfl | rfl
        · exact absurd rfl hs
        · decide
        · decide
      have heq : levels m f = m.eFileLock := own_level hbusy hgt
      refine Or.inr ⟨hgt, heq, ?_⟩
      rw [← heq]
      exact Nat.one_le_iff_ne_zero.mpr (ha1.resolve_right hs)
  rcases hcase with ⟨rfl, h0⟩ | ⟨hgt, hlv, h1⟩
  · rw [if_pos (Or.inl rfl)]
    rcases hI.bytes with ⟨hpl, p, r, s, rfl, hR⟩ | ⟨how, hb⟩
    · rw [h0] at hR
      obtain ⟨rfl, rfl, rfl⟩ := hR.of_none
      exact after_shared hop hf hL h0 hpl
    · exact after_first_owner hop hf hL h0 how hb
  have he' : e = RESERVED_LOCK ∧ m.eFileLock = SHARED_LOCK ∨
      e = EXCLUSIVE_LOCK ∧ m.eFileLock < EXCLUSIVE_LOCK := by
    rcases he with rfl | rfl | rfl
    · exact absurd hgt (lt_irrefl _)
    · left
      refine ⟨rfl, ?_⟩
      rw [← hlv]
      exact ha2.resolve_left (fun hc => hc rfl)
    · right
      rw [← hlv]
      exact ⟨rfl, hlt'⟩
  have hne : ¬ e = SHARED_LOCK := hgt.ne'
  rcases hI.bytes with ⟨hpl, p, r, s, rfl, hR⟩ | ⟨how, hb⟩
  · rcases he' with ⟨rfl, hs⟩ | ⟨rfl, hx⟩
    · rw [if_neg (not_or.mpr ⟨hne, fun hc => absurd hc.1 (by decide)⟩)]
      have hR1 := hR.unreserved (by rw [hs])
      obtain ⟨rfl, rfl⟩ := hR.of_low h1 (by rw [hs]; decide)
      rw [hR1]
      exact after_reserved hf hL hlv h1 hop hpl hs
    · split
      · rename_i hpend
        have hlow : m.eFileLock < PENDING_LOCK := by
          rw [← hlv]
          exact (hpend.resolve_left hne).2
        obtain ⟨rfl, rfl⟩ := hR.of_low h1 hlow
        apply after_request hpl hf
        · rw [hop]
          exact hL.guards hR
        · exact hsame
        · exact fun _ errno => after_ret hI hsame
        · rw [set_pending]
          exact after_exclusive hf hL hlv h1 hop hpl hx hR.high hR.reserved
      · rename_i hpend
        have htop : m.eFileLock = PENDING_LOCK := by
          have hge : ¬ levels m f < PENDING_LOCK := fun hc => hpend (Or.inr ⟨rfl, hc⟩)
          rw [hlv] at hge
          exact le_antisymm (Nat.le_of_lt_succ hx) (not_lt.mp hge)
        have hR' := hR
        rw [htop] at hR'
        obtain ⟨rfl, rfl⟩ := hR'.of_pending
        exact after_exclusive hf hL hlv h1 hop hpl hx hR.high hR.reserved
  · unfold ownerBytes at hb
    split at hb
    · rename_i hproc
      rw [hb]
      split
      · rw [request_owner how hf hproc]
        exact after_raised_owner hf hL how hproc hlv h1 he'
      · exact after_raised_owner hf hL how hproc hlv h1 he'
    · rw [hb.1] at h1
      exact absurd h1 (by decide)

end Sqlite.FileLock

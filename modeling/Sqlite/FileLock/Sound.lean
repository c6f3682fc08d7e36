import Mathlib.Data.Finset.Lattice.Fold
import Mathlib.Order.Lattice.Nat
import Sqlite.FileLock.Unlock

/-! Handles of all processes exclude each other, in every interleaving of their calls. -/
namespace Sqlite.FileLock
open Foundation

section

/-! No call opens or closes handles, or changes their flags. -/

variable {m m₁ : UnixInodeInfo} {f e : ℕ}

theorem request_all {lock : Flock} {next : UnixInodeInfo → Answer → Run UnixInodeInfo Out}
    (hF : Frame m m₁) (h : ∀ m₂ x, Frame m m₂ → (next m₂ x).All (Frame m)) :
    (unixFileLock m₁ f lock next).All (Frame m) := by
  unfold unixFileLock
  split
  · split
    · refine ⟨hF, fun x => ?_⟩
      cases x with
      | failed errno => exact h _ _ hF
      | done t => exact h _ _ ⟨hF.files, hF.ctrlFlags⟩
    · exact h _ _ hF
  · exact ⟨hF, fun x => h _ _ hF⟩

theorem setLock_all {rc : Rc} (hF : Frame m m₁) : (setLock m₁ f e rc).All (Frame m) := by
  unfold setLock
  split
  · exact hF.trans frame_set
  · split
    · exact hF.trans frame_set
    · exact hF

theorem gotShared_all {rc : Rc} {x : Answer} (hF : Frame m m₁) :
    (gotShared m₁ f rc x).All (Frame m) := by
  have hend : ∀ rc, (if rc ≠ .SQLITE_OK then ret m₁ rc
      else setLock { setFileLock m₁ f SHARED_LOCK with nLock := m₁.nLock + 1, nShared := 1 }
        f SHARED_LOCK rc).All (Frame m) := by
    intro rc
    split
    · exact hF
    · exact setLock_all (hF.trans frame_set)
  exact hend _

theorem lockRanges_all (hF : Frame m m₁) : (lockRanges m₁ f e).All (Frame m) := by
  unfold lockRanges
  split
  · apply request_all hF
    intro m₂ x h₂
    apply request_all h₂
    exact fun m₃ y h₃ => gotShared_all h₃
  · split
    · exact setLock_all hF
    · apply request_all hF
      exact fun m₂ x h₂ => setLock_all h₂

theorem endUnlock_all {rc : Rc} (hF : Frame m m₁) : (endUnlock m₁ f e rc).All (Frame m) := by
  unfold endUnlock
  split
  · exact hF.trans Frame.setFileLock
  · exact hF

theorem dropShared_all (hF : Frame m m₁) : (dropShared m₁ f e).All (Frame m) := by
  have hF' : ∀ n, Frame m { m₁ with nShared := n } := fun _ => ⟨hF.files, hF.ctrlFlags⟩
  unfold dropShared
  split
  · simp only
    split
    · apply request_all (hF' _)
      intro m₂ x h₂
      cases x with
      | done t => exact endUnlock_all ⟨h₂.files, h₂.ctrlFlags⟩
      | failed errno => exact endUnlock_all (h₂.trans frame_set)
    · exact endUnlock_all ⟨hF.files, hF.ctrlFlags⟩
  · exact endUnlock_all hF

theorem dropBytes_all (hF : Frame m m₁) : (dropBytes m₁ f e).All (Frame m) := by
  unfold dropBytes
  apply request_all hF
  intro m₂ x h₂
  cases x with
  | done t => exact dropShared_all ⟨h₂.files, h₂.ctrlFlags⟩
  | failed errno => exact endUnlock_all h₂

/-- No call opens or closes a handle, or changes its flags. -/
theorem start_frame (op : Op) (m : UnixInodeInfo) : (op.start m).All (Frame m) := by
  have hF := Frame.refl m
  cases op with
  | lock f e =>
    show (unixLock m f e).All (Frame m)
    unfold unixLock
    split
    · exact hF
    · split
      · exact hF
      · split
        · exact frame_set
        · split
          · apply request_all hF
            intro m₂ x h₂
            cases x with
            | failed errno => exact h₂
            | done t => exact lockRanges_all h₂
          · exact lockRanges_all hF
  | unlock f e =>
    show (posixUnlock m f e).All (Frame m)
    unfold posixUnlock
    split
    · exact hF
    · split
      · split
        · apply request_all hF
          intro m₂ x h₂
          cases x with
          | done t => exact dropBytes_all h₂
          | failed errno => exact endUnlock_all h₂
        · exact dropBytes_all hF
      · exact dropShared_all hF
  | checkReserved f =>
    show (unixCheckReservedLock m).All (Frame m)
    unfold unixCheckReservedLock
    split
    · exact hF
    · split
      · refine ⟨hF, fun x => ?_⟩
        cases x with
        | failed errno => exact hF
        | done t => exact hF
      · exact hF

end

variable {Proc : Type*} {m m₁ : UnixInodeInfo} {held : ℕ → LockType} {f e : ℕ}
  {p : Process Op UnixInodeInfo Out}

/-- The level of a handle. In a call that unlocks it, it counts with its new level. -/
def level (p : Process Op UnixInodeInfo Out) (f : ℕ) : ℕ :=
  match p.run with
  | .ret m _ => levels m f
  | .ask m _ _ =>
    match p.call with
    | some c => c.op.levels (levels m) f
    | none => levels m f

theorem start_keeps (op : Op) (hI : Idle m held) (hl : op.Legal m) :
    After ⟨op, m, held⟩ m held (op.start m) held := by
  cases op with
  | lock f eFileLock => exact unixLock_keeps hI rfl hl
  | unlock f eFileLock => exact posixUnlock_keeps hI rfl hl
  | checkReserved f => exact unixCheckReservedLock_keeps hI rfl

theorem Idle.guards (hI : Idle m held) : Guards m.files (FileLock.levels m) held := by
  rcases hI.bytes with ⟨-, p, r, s, rfl, hR⟩ | ⟨-, hb⟩
  · exact hI.levels.guards hR
  · unfold ownerBytes at hb
    split at hb
    · rw [hb]
      exact hI.levels.guards_owner
    · apply guards_none
      intro g hg
      have := hI.levels.le g hg
      rw [hb.1] at this
      exact Nat.le_zero.mp this

theorem holds_guards (h : fileLock.Holds p held) : Guards p.run.mem.files (level p) held := by
  obtain ⟨call, run⟩ := p
  cases run with
  | ret m out => exact (h.idle rfl : Idle m held).guards
  | ask m q next =>
    cases call with
    | none =>
      obtain ⟨m', rc, hc, -⟩ := h
      cases hc
    | some c => exact h.mid rfl rfl

/-- The handles that a process may have open: none of the VFS that locks the file for the whole
process, or all of it and for writing. -/
def Uniform (files : Finset ℕ) (ctrlFlags : ℕ → ℕ) : Prop :=
  (∀ f ∈ files, ctrlFlags f &&& UNIXFILE_EXCL = 0) ∨
    ∀ f ∈ files, ctrlFlags f &&& UNIXFILE_EXCL ≠ 0 ∧ ctrlFlags f &&& UNIXFILE_RDONLY = 0

theorem atFirst_sound {files : Proc → Finset ℕ} {ctrlFlags : Proc → ℕ → ℕ}
    (hflags : ∀ a, Uniform (files a) (ctrlFlags a)) : (atFirst files ctrlFlags).Sound fileLock := by
  have hbytes : (fun _ => .F_UNLCK) = bytes .F_UNLCK .F_UNLCK .F_UNLCK := by
    funext b
    unfold bytes
    rw [ite_self, ite_self, ite_self]
  constructor
  · intro a
    refine ⟨_, _, rfl, ?_⟩
    constructor
    · constructor
      · have hnone : (files a).filter (fun f => SHARED_LOCK ≤
            levels (opened (files a) (ctrlFlags a)) f) = ∅ := by
          apply Finset.filter_eq_empty_iff.mpr
          exact fun f _ => (by decide : ¬ SHARED_LOCK ≤ NO_LOCK)
        show (0 : ℤ) = ((files a).filter _).card
        rw [hnone]
        rfl
      · exact fun f _ => le_refl _
      · exact Or.inl rfl
      · exact Nat.zero_le _
      · exact fun f _ g _ hc => absurd hc (by decide : ¬ SHARED_LOCK < NO_LOCK)
      · exact fun f _ hc => absurd hc (by decide : ¬ NO_LOCK = EXCLUSIVE_LOCK)
    · rcases hflags a with hpl | how
      · exact Or.inl ⟨⟨rfl, hpl⟩, _, _, _, hbytes, Ranges.none⟩
      · exact Or.inr ⟨how, rfl, hbytes⟩
  · exact fun a c _ b => not_clash_unlocked _

/-- The levels of two handles of different processes. -/
theorem sound_apart {w : World Proc Op UnixInodeInfo Out} (hs : w.Sound fileLock) {a c : Proc} (hac : a ≠ c) {f g : ℕ}
    (hf : f ∈ (w.proc a).run.mem.files) (hg : g ∈ (w.proc c).run.mem.files) :
    ¬ (level (w.proc a) f = RESERVED_LOCK ∧ level (w.proc c) g = RESERVED_LOCK) ∧
    ¬ (PENDING_LOCK ≤ level (w.proc a) f ∧ PENDING_LOCK ≤ level (w.proc c) g) ∧
    (level (w.proc a) f = EXCLUSIVE_LOCK → level (w.proc c) g = NO_LOCK) := by
  have ha := holds_guards (hs.holds a)
  have hc := holds_guards (hs.holds c)
  have hclash : ∀ b, w.locks a b = .F_WRLCK → w.locks c b ≠ .F_UNLCK → False :=
    fun b h1 h2 => hs.compatible a c hac b (Or.inl ⟨h1, h2⟩)
  have hclash' : ∀ b, w.locks c b = .F_WRLCK → w.locks a b ≠ .F_UNLCK → False :=
    fun b h1 h2 => hs.compatible a c hac b (Or.inr ⟨h1, h2⟩)
  have hwr : ∀ {x : LockType}, x = .F_WRLCK → x ≠ .F_UNLCK := by
    rintro x rfl
    exact LockType.noConfusion
  -- a lock of one process on the whole SHARED range, or of both on one byte
  have hboth : ∀ b, SHARED_LOCK ≤ level (w.proc a) f → SHARED_LOCK ≤ level (w.proc c) g →
      (w.locks a b = .F_WRLCK ∨ w.locks a SHARED_FIRST = .F_WRLCK) →
      (w.locks c b = .F_WRLCK ∨ w.locks c SHARED_FIRST = .F_WRLCK) → False := by
    intro b h1 h2 h3 h4
    rcases h3 with h3 | h3
    · rcases h4 with h4 | h4
      · exact hclash b h3 (hwr h4)
      · exact hclash' _ h4 (ha.shared f hf h1)
    · exact hclash _ h3 (hc.shared g hg h2)
  refine ⟨?_, ?_, ?_⟩
  · rintro ⟨h1, h2⟩
    exact hboth RESERVED_BYTE (by rw [h1]; decide) (by rw [h2]; decide) (ha.reserved f hf h1)
      (hc.reserved g hg h2)
  · rintro ⟨h1, h2⟩
    exact hboth PENDING_BYTE (le_trans (by decide) h1) (le_trans (by decide) h2)
      (ha.pending f hf h1) (hc.pending g hg h2)
  · intro h1
    by_contra h2
    exact hclash _ (ha.exclusive f hf h1) (hc.shared g hg (Nat.one_le_iff_ne_zero.mpr h2))

section Exclusion

variable [DecidableEq Proc] {files : Proc → Finset ℕ} {ctrlFlags : Proc → ℕ → ℕ}
  {w w' : World Proc Op UnixInodeInfo Out}

theorem reach_sound (hflags : ∀ a, Uniform (files a) (ctrlFlags a))
    (hr : (atFirst files ctrlFlags).Reach Op.Legal Op.start w) : w.Sound fileLock :=
  (atFirst_sound hflags).reach (fun op _ _ hI hl => (start_keeps op hI hl).holds) hr

theorem reach_fixed (hr : (atFirst files ctrlFlags).Reach Op.Legal Op.start w) (a : Proc) :
    (w.proc a).run.mem.files = files a ∧
      ∀ f, ((w.proc a).run.mem.file f).ctrlFlags = ctrlFlags a f := by
  have h := hr.frame (fun m : UnixInodeInfo => (m.files, fun f => (m.file f).ctrlFlags)) ?_
    (fun a => ⟨_, _, rfl⟩) a
  · obtain ⟨h1, h2⟩ := Prod.ext_iff.mp h
    exact ⟨h1, fun f => congrFun h2 f⟩
  · intro op m _
    apply (start_frame op m).mono
    intro m' hF
    exact Prod.ext hF.files (funext hF.ctrlFlags)

/-- In every reachable state: the levels of all handles exclude each other; a step gives a handle its
first lock only when no handle of its process has a PENDING lock, nor one of another process unless
its process has a lock already; and between its calls the counters of a process agree with its
handles, and its locks on bytes are those of its level. -/
theorem file_locks_sound (hflags : ∀ a, Uniform (files a) (ctrlFlags a))
    (hr : (atFirst files ctrlFlags).Reach Op.Legal Op.start w) :
    (∀ a c f g, f ∈ files a → g ∈ files c → (a, f) ≠ (c, g) →
      ¬ (level (w.proc a) f = RESERVED_LOCK ∧ level (w.proc c) g = RESERVED_LOCK) ∧
      ¬ (PENDING_LOCK ≤ level (w.proc a) f ∧ PENDING_LOCK ≤ level (w.proc c) g) ∧
      (level (w.proc a) f = EXCLUSIVE_LOCK → level (w.proc c) g = NO_LOCK)) ∧
    (∀ w', w.Step Op.Legal Op.start w' → ∀ a f, f ∈ files a →
      levels (w.proc a).run.mem f = NO_LOCK → levels (w'.proc a).run.mem f ≠ NO_LOCK →
      (∀ g ∈ files a, levels (w.proc a).run.mem g < PENDING_LOCK) ∧
      ((∀ g ∈ files a, levels (w.proc a).run.mem g = NO_LOCK) →
        ∀ c, c ≠ a → ∀ g ∈ files c, level (w.proc c) g < PENDING_LOCK)) ∧
    ∀ a m out, (w.proc a).run = .ret m out →
      m.nShared = ((files a).filter (fun f => SHARED_LOCK ≤ levels m f)).card ∧
      m.eFileLock = (files a).sup (levels m) ∧
      ((∃ f ∈ files a, ctrlFlags a f &&& UNIXFILE_EXCL = 0) → plainBytes m (w.locks a)) ∧
      ((∃ f ∈ files a, ctrlFlags a f &&& UNIXFILE_EXCL ≠ 0) → ownerBytes m (w.locks a)) := by
  have hs := reach_sound hflags hr
  have hfiles := fun a => (reach_fixed hr a).1
  refine ⟨?_, ?_, ?_⟩
  · intro a c f g hf hg hne
    rw [← hfiles] at hf hg
    by_cases hac : a = c
    · subst hac
      have hfg : f ≠ g := fun hc => hne (by rw [hc])
      have ha := holds_guards (hs.holds a)
      refine ⟨?_, ?_, ?_⟩
      · rintro ⟨h1, h2⟩
        exact hfg (ha.one f hf g hg (by rw [h1]; decide) (by rw [h2]; decide))
      · rintro ⟨h1, h2⟩
        exact hfg (ha.one f hf g hg (lt_of_lt_of_le (by decide) h1) (lt_of_lt_of_le (by decide) h2))
      · exact fun h1 => ha.alone f hf h1 g hg (Ne.symm hfg)
    · exact sound_apart hs hac hf hg
  · intro w' hstep a f hf h0 h1
    have hs' := hs.step (fun op _ _ hI hl => (start_keeps op hI hl).holds) hstep
    rcases hs.moves (fun op _ _ hI hl => (start_keeps op hI hl).grants) hstep a with hsame | hmove
    · rw [hsame] at h1
      exact absurd h0 h1
    obtain ⟨hother, call, hg⟩ := hmove
    rw [← hfiles] at hf
    obtain ⟨hown, hcase⟩ := hg f hf h0 h1
    rw [hfiles] at hown hcase
    refine ⟨hown, ?_⟩
    intro hnone c hca g hgc
    by_contra hp
    have hp' : PENDING_LOCK ≤ level (w.proc c) g := not_lt.mp hp
    rw [← hfiles] at hgc
    have hc := holds_guards (hs.holds c)
    have hsh := hc.shared g hgc (le_trans (by decide) hp')
    rcases hcase with ⟨b, hb, hb0⟩ | hwr | ⟨hrd, hne⟩
    · exact hb0 (hnone b hb)
    · have hlocks := (hother c hca).2
      apply hs'.compatible a c (Ne.symm hca) SHARED_FIRST
      rw [hlocks]
      exact Or.inl ⟨hwr, hsh⟩
    · rcases hc.pending g hgc hp' with h | h
      · apply hs.compatible a c (Ne.symm hca) PENDING_BYTE
        rw [hrd]
        exact Or.inr ⟨h, LockType.noConfusion⟩
      · exact hs.compatible a c (Ne.symm hca) SHARED_FIRST (Or.inr ⟨h, hne⟩)
  · intro a m out hrun
    have hI : Idle m (w.locks a) := (hs.holds a).idle hrun
    obtain ⟨hf, hflag⟩ := reach_fixed hr a
    rw [hrun] at hf hflag
    have hf' : m.files = files a := hf
    have hL := hI.levels
    rw [hf'] at hL
    refine ⟨hL.nShared, ?_, ?_, ?_⟩
    · apply le_antisymm
      · rcases hL.max with h0 | ⟨g, hg, he⟩
        · rw [h0]
          exact Nat.zero_le _
        · rw [← he]
          exact Finset.le_sup (f := levels m) hg
      · exact Finset.sup_le (fun g hg => hL.le g hg)
    · rintro ⟨g, hg, hg0⟩
      rcases hI.bytes with ⟨-, hb⟩ | ⟨how, -⟩
      · exact hb
      · have hx := (how g (hf'.symm ▸ hg)).1
        have hg' : (m.file g).ctrlFlags = ctrlFlags a g := hflag g
        rw [hg'] at hx
        exact absurd hg0 hx
    · rintro ⟨g, hg, hgx⟩
      rcases hI.bytes with ⟨hpl, -⟩ | ⟨-, hb⟩
      · have h0 := hpl.2 g (hf'.symm ▸ hg)
        have hg' : (m.file g).ctrlFlags = ctrlFlags a g := hflag g
        rw [hg'] at h0
        exact absurd h0 hgx
      · exact hb

end Exclusion

section Two

variable {p q : Process Op UnixInodeInfo Out} {l l' l₂ : ℕ → LockType} {rc : Out}
  {next : Answer → Run UnixInodeInfo Out} {t p' r' s' : LockType}

/-- Two processes and their locks. -/
def pair (p q : Process Op UnixInodeInfo Out) (l l' : ℕ → LockType) :
    World Bool Op UnixInodeInfo Out :=
  ⟨fun b => if b = true then q else p, fun b => if b = true then l' else l⟩

theorem update_false {α : Type*} (x y z : α) :
    Function.update (fun b => if b = true then y else x) false z =
      fun b => if b = true then y else z := by
  funext b
  cases b <;> rfl

theorem update_true {α : Type*} (x y z : α) :
    Function.update (fun b => if b = true then y else x) true z =
      fun b => if b = true then z else x := by
  funext b
  cases b <;> rfl

theorem start_false (op : Op) (hr : p.run = .ret m rc) (hl : op.Legal m) :
    (pair p q l l').Step Op.Legal Op.start (pair ⟨some ⟨op, m, l⟩, op.start m⟩ q l l') := by
  have hs : (pair p q l l').Step Op.Legal Op.start _ := World.Step.start false op m rc hr hl
  unfold pair at hs
  rw [update_false] at hs
  exact hs

theorem start_true (op : Op) (hr : q.run = .ret m rc) (hl : op.Legal m) :
    (pair p q l l').Step Op.Legal Op.start (pair p ⟨some ⟨op, m, l'⟩, op.start m⟩ l l') := by
  have hs : (pair p q l l').Step Op.Legal Op.start _ := World.Step.start true op m rc hr hl
  unfold pair at hs
  rw [update_true] at hs
  exact hs

/-- The first process gets a lock that does not clash with those of the second one. -/
theorem granted_false (lock : Flock) (hr : p.run = .ask m (.F_SETLK lock) next)
    (hfree : ∀ b, lock.Covers b → ¬ lock.l_type.Clash (l' b)) (hset : lock.set l = l₂) :
    (pair p q l l').Step Op.Legal Op.start (pair ⟨p.call, next (.done lock.l_type)⟩ q l₂ l') := by
  have ha : Allowed (pair p q l l').locks false (.F_SETLK lock) (.done lock.l_type) := by
    rintro ⟨c, hc, b, hb, hx⟩
    cases c with
    | false => exact hc rfl
    | true => exact hfree b hb hx
  have hx : Answers (.F_SETLK lock) l (.done lock.l_type) l₂ := by
    rw [← hset]
    exact Answers.granted lock l
  have hs : (pair p q l l').Step Op.Legal Op.start _ := World.Step.answer false m _ next _ l₂ hr ha hx
  unfold pair at hs
  rw [update_false, update_false] at hs
  exact hs

theorem granted_true (lock : Flock) (hr : q.run = .ask m (.F_SETLK lock) next)
    (hfree : ∀ b, lock.Covers b → ¬ lock.l_type.Clash (l b)) (hset : lock.set l' = l₂) :
    (pair p q l l').Step Op.Legal Op.start (pair p ⟨q.call, next (.done lock.l_type)⟩ l l₂) := by
  have ha : Allowed (pair p q l l').locks true (.F_SETLK lock) (.done lock.l_type) := by
    rintro ⟨c, hc, b, hb, hx⟩
    cases c with
    | false => exact hfree b hb hx
    | true => exact hc rfl
  have hx : Answers (.F_SETLK lock) l' (.done lock.l_type) l₂ := by
    rw [← hset]
    exact Answers.granted lock l'
  have hs : (pair p q l l').Step Op.Legal Op.start _ := World.Step.answer true m _ next _ l₂ hr ha hx
  unfold pair at hs
  rw [update_true, update_true] at hs
  exact hs

theorem refused_true (lock : Flock) (hr : q.run = .ask m (.F_SETLK lock) next) (hlock : lock.l_type ≠ .F_UNLCK) :
    (pair p q l l').Step Op.Legal Op.start (pair p ⟨q.call, next (.failed EAGAIN)⟩ l l') := by
  have hs : (pair p q l l').Step Op.Legal Op.start _ :=
    World.Step.answer true m (.F_SETLK lock) next (.failed EAGAIN) l' hr trivial
      (Answers.refused _ EAGAIN hlock)
  unfold pair at hs
  rw [update_true, update_true] at hs
  exact hs

theorem no_clash_pending (h : ¬ t.Clash p') (b : ℕ)
    (hb : (⟨t, PENDING_BYTE, 1⟩ : Flock).Covers b) : ¬ t.Clash (bytes p' r' s' b) := by
  have hb' : b = PENDING_BYTE := by
    rw [Flock.covers_iff (by decide)] at hb
    omega
  rw [hb', bytes_pending]
  exact h

theorem no_clash_reserved (h : ¬ t.Clash r') (b : ℕ)
    (hb : (⟨t, RESERVED_BYTE, 1⟩ : Flock).Covers b) : ¬ t.Clash (bytes p' r' s' b) := by
  have hb' : b = RESERVED_BYTE := by
    rw [Flock.covers_iff (by decide)] at hb
    omega
  rw [hb', bytes_reserved]
  exact h

theorem no_clash_shared (h : ¬ t.Clash s') (b : ℕ)
    (hb : (⟨t, SHARED_FIRST, SHARED_SIZE⟩ : Flock).Covers b) : ¬ t.Clash (bytes p' r' s' b) := by
  rw [Flock.covers_iff (by decide)] at hb
  have hr := reserved_eq
  have hf := first_eq
  unfold bytes
  rw [if_neg (by omega), if_neg (by omega), if_pos hb]
  exact h

theorem atFirst_pair (files : Bool → Finset ℕ) (ctrlFlags : Bool → ℕ → ℕ) :
    atFirst files ctrlFlags = pair ⟨none, ret (opened (files false) (ctrlFlags false)) .SQLITE_OK⟩
      ⟨none, ret (opened (files true) (ctrlFlags true)) .SQLITE_OK⟩
      (bytes .F_UNLCK .F_UNLCK .F_UNLCK) (bytes .F_UNLCK .F_UNLCK .F_UNLCK) := by
  have hbytes : bytes .F_UNLCK .F_UNLCK .F_UNLCK = fun _ => .F_UNLCK := by
    funext b
    unfold bytes
    rw [ite_self, ite_self, ite_self]
  unfold atFirst pair
  rw [hbytes]
  congr 1
  · funext b
    cases b <;> rfl
  · funext b
    rw [ite_self]

theorem reach_first (files : Bool → Finset ℕ) (ctrlFlags : Bool → ℕ → ℕ) :
    (atFirst files ctrlFlags).Reach Op.Legal Op.start
      (pair ⟨none, ret (opened (files false) (ctrlFlags false)) .SQLITE_OK⟩
        ⟨none, ret (opened (files true) (ctrlFlags true)) .SQLITE_OK⟩
        (bytes .F_UNLCK .F_UNLCK .F_UNLCK) (bytes .F_UNLCK .F_UNLCK .F_UNLCK)) := by
  rw [← atFirst_pair]
  exact World.Reach.init

theorem legal_shared {f : ℕ} (h : f ∈ m.files) : (Op.lock f SHARED_LOCK).Legal m :=
  ⟨h, Or.inl rfl, fun _ => ⟨Or.inr rfl, Or.inl (by decide)⟩⟩

theorem legal_reserved {f : ℕ} (h : f ∈ m.files) (h1 : (m.file f).eFileLock = SHARED_LOCK) :
    (Op.lock f RESERVED_LOCK).Legal m := by
  refine ⟨h, Or.inr (Or.inl rfl), fun _ => ⟨Or.inl ?_, Or.inr h1⟩⟩
  rw [h1]
  decide

theorem legal_exclusive {f : ℕ} (h : f ∈ m.files) (h1 : (m.file f).eFileLock ≠ NO_LOCK) :
    (Op.lock f EXCLUSIVE_LOCK).Legal m :=
  ⟨h, Or.inr (Or.inr rfl), fun _ => ⟨Or.inl h1, Or.inl (by decide)⟩⟩

/-- One process reads while another waits for an EXCLUSIVE lock; then the first opens a second reader. -/
theorem reach_pending : ∃ w w' : World Bool Op UnixInodeInfo Out,
    (atFirst (fun _ => {0, 1}) (fun _ _ => 0)).Reach Op.Legal Op.start w ∧
      w.Step Op.Legal Op.start w' ∧ levels (w.proc false).run.mem 1 = NO_LOCK ∧
      levels (w'.proc false).run.mem 1 = SHARED_LOCK ∧ level (w.proc true) 0 = PENDING_LOCK ∧
      ∃ m out, (w.proc true).run = .ret m out ∧ levels m 0 = PENDING_LOCK := by
  have h0 := reach_first (fun _ => {0, 1}) (fun _ _ => 0)
  have h1 := h0.step (start_false (.lock 0 SHARED_LOCK) rfl (legal_shared (by decide)))
  have h2 := h1.step (granted_false ⟨.F_RDLCK, PENDING_BYTE, 1⟩ rfl (no_clash_pending (by decide))
    (set_pending _))
  have h3 := h2.step (granted_false ⟨.F_RDLCK, SHARED_FIRST, SHARED_SIZE⟩ rfl
    (no_clash_shared (by decide)) (set_shared _))
  have h4 := h3.step (granted_false ⟨.F_UNLCK, PENDING_BYTE, 1⟩ rfl (no_clash_pending (by decide))
    (set_pending _))
  have h5 := h4.step (start_true (.lock 0 SHARED_LOCK) rfl (legal_shared (by decide)))
  have h6 := h5.step (granted_true ⟨.F_RDLCK, PENDING_BYTE, 1⟩ rfl (no_clash_pending (by decide))
    (set_pending _))
  have h7 := h6.step (granted_true ⟨.F_RDLCK, SHARED_FIRST, SHARED_SIZE⟩ rfl
    (no_clash_shared (by decide)) (set_shared _))
  have h8 := h7.step (granted_true ⟨.F_UNLCK, PENDING_BYTE, 1⟩ rfl (no_clash_pending (by decide))
    (set_pending _))
  have h9 := h8.step (start_true (.lock 0 EXCLUSIVE_LOCK) rfl
    (legal_exclusive (by decide) (by decide)))
  have h10 := h9.step (granted_true ⟨.F_WRLCK, PENDING_BYTE, 1⟩ rfl (no_clash_pending (by decide))
    (set_pending _))
  have h11 := h10.step (refused_true ⟨.F_WRLCK, SHARED_FIRST, SHARED_SIZE⟩ rfl (by decide))
  exact ⟨_, _, h11, start_false (.lock 1 SHARED_LOCK) rfl (legal_shared (by decide)), rfl, rfl, rfl,
    _, _, rfl, rfl⟩

theorem file_locks_sound_pending : ∃ w w' : World Bool Op UnixInodeInfo Out,
    (atFirst (fun _ => {0, 1}) (fun _ _ => 0)).Reach Op.Legal Op.start w ∧
      w.Step Op.Legal Op.start w' ∧ levels (w'.proc false).run.mem 1 = SHARED_LOCK ∧
      level (w.proc true) 0 = PENDING_LOCK ∧ w.locks true PENDING_BYTE = .F_WRLCK ∧
      ∀ g ∈ ({0, 1} : Finset ℕ), levels (w.proc false).run.mem g < PENDING_LOCK := by
  obtain ⟨w, w', hr, hstep, hno, hshared, hpending, m, out, hrun, hm⟩ := reach_pending
  obtain ⟨-, hfirst, hbytes⟩ := file_locks_sound (fun _ => Or.inl (fun _ _ => rfl)) hr
  refine ⟨w, w', hr, hstep, hshared, hpending, ?_, ?_⟩
  · obtain ⟨-, htop, hplain, -⟩ := hbytes true m out hrun
    obtain ⟨p, r, s, hl, hR⟩ := hplain ⟨0, by decide, rfl⟩
    have hle : PENDING_LOCK ≤ m.eFileLock := by
      rw [htop, ← hm]
      exact Finset.le_sup (f := levels m) (b := 0) (by decide)
    rw [hl, bytes_pending, hR.pending, if_pos hle]
  · refine (hfirst w' hstep false 1 (by decide) hno ?_).1
    rw [hshared]
    decide

/-- A second handle of a process gets a SHARED lock while another process has a PENDING lock. -/
theorem shared_beside_pending : ∃ w w' : World Bool Op UnixInodeInfo Out,
    (atFirst (fun _ => {0, 1}) (fun _ _ => 0)).Reach Op.Legal Op.start w ∧
      w.Step Op.Legal Op.start w' ∧ levels (w.proc false).run.mem 1 = NO_LOCK ∧
      levels (w'.proc false).run.mem 1 = SHARED_LOCK ∧ level (w.proc true) 0 = PENDING_LOCK := by
  obtain ⟨w, w', hr, hstep, hno, hshared, hpending, -⟩ := reach_pending
  exact ⟨w, w', hr, hstep, hno, hshared, hpending⟩

/-- A handle of the VFS that locks the file for the whole process. -/
theorem shared_with_write_lock : ∃ w : World Bool Op UnixInodeInfo Out,
    (atFirst (fun _ => {0}) (fun _ _ => UNIXFILE_EXCL)).Reach Op.Legal Op.start w ∧
      level (w.proc false) 0 = SHARED_LOCK ∧ w.locks false SHARED_FIRST = .F_WRLCK := by
  have h0 := reach_first (fun _ => {0}) (fun _ _ => UNIXFILE_EXCL)
  have h1 := h0.step (start_false (.lock 0 SHARED_LOCK) rfl (legal_shared (by decide)))
  have h2 := h1.step (granted_false ⟨.F_WRLCK, SHARED_FIRST, SHARED_SIZE⟩ rfl
    (no_clash_shared (by decide)) (set_shared _))
  exact ⟨_, h2, rfl, rfl⟩

/-- Beside such a handle, a handle for reading only gives the lock of the process up. -/
theorem reserved_twice : ∃ w : World Bool Op UnixInodeInfo Out,
    (atFirst (fun _ => {0, 1}) (fun a f => if a = false then
      if f = 0 then UNIXFILE_EXCL else UNIXFILE_RDONLY else 0)).Reach Op.Legal Op.start w ∧
      level (w.proc false) 0 = RESERVED_LOCK ∧ level (w.proc true) 0 = RESERVED_LOCK := by
  have h0 := reach_first (fun _ => {0, 1}) (fun a f => if a = false then
      if f = 0 then UNIXFILE_EXCL else UNIXFILE_RDONLY else 0)
  have h1 := h0.step (start_false (.lock 0 SHARED_LOCK) rfl (legal_shared (by decide)))
  have h2 := h1.step (granted_false ⟨.F_WRLCK, SHARED_FIRST, SHARED_SIZE⟩ rfl
    (no_clash_shared (by decide)) (set_shared _))
  have h3 := h2.step (start_false (.unlock 0 NO_LOCK) rfl ⟨by decide, by decide⟩)
  have h4 := h3.step (start_false (.lock 1 SHARED_LOCK) rfl (legal_shared (by decide)))
  have h5 := h4.step (granted_false ⟨.F_RDLCK, PENDING_BYTE, 1⟩ rfl (no_clash_pending (by decide))
    (set_pending _))
  have h6 := h5.step (granted_false ⟨.F_RDLCK, SHARED_FIRST, SHARED_SIZE⟩ rfl
    (no_clash_shared (by decide)) (set_shared _))
  have h7 := h6.step (granted_false ⟨.F_UNLCK, PENDING_BYTE, 1⟩ rfl (no_clash_pending (by decide))
    (set_pending _))
  have h8 := h7.step (start_false (.lock 0 SHARED_LOCK) rfl (legal_shared (by decide)))
  have h9 := h8.step (start_false (.lock 0 RESERVED_LOCK) rfl (legal_reserved (by decide) rfl))
  have h10 := h9.step (start_true (.lock 0 SHARED_LOCK) rfl (legal_shared (by decide)))
  have h11 := h10.step (granted_true ⟨.F_RDLCK, PENDING_BYTE, 1⟩ rfl (no_clash_pending (by decide))
    (set_pending _))
  have h12 := h11.step (granted_true ⟨.F_RDLCK, SHARED_FIRST, SHARED_SIZE⟩ rfl
    (no_clash_shared (by decide)) (set_shared _))
  have h13 := h12.step (granted_true ⟨.F_UNLCK, PENDING_BYTE, 1⟩ rfl (no_clash_pending (by decide))
    (set_pending _))
  have h14 := h13.step (start_true (.lock 0 RESERVED_LOCK) rfl (legal_reserved (by decide) rfl))
  have h15 := h14.step (granted_true ⟨.F_WRLCK, RESERVED_BYTE, 1⟩ rfl (no_clash_reserved (by decide))
    (set_reserved _))
  exact ⟨_, h15, rfl, rfl⟩

/-- What the locks do not promise. -/
theorem file_locks_limits :
    (∃ w w' : World Bool Op UnixInodeInfo Out,
      (atFirst (fun _ => {0, 1}) (fun _ _ => 0)).Reach Op.Legal Op.start w ∧
        w.Step Op.Legal Op.start w' ∧ levels (w.proc false).run.mem 1 = NO_LOCK ∧
        levels (w'.proc false).run.mem 1 = SHARED_LOCK ∧ level (w.proc true) 0 = PENDING_LOCK) ∧
    (∃ w : World Bool Op UnixInodeInfo Out,
      (atFirst (fun _ => {0}) (fun _ _ => UNIXFILE_EXCL)).Reach Op.Legal Op.start w ∧
        level (w.proc false) 0 = SHARED_LOCK ∧ w.locks false SHARED_FIRST = .F_WRLCK) ∧
    ∃ w : World Bool Op UnixInodeInfo Out,
      (atFirst (fun _ => {0, 1}) (fun a f => if a = false then
        if f = 0 then UNIXFILE_EXCL else UNIXFILE_RDONLY else 0)).Reach Op.Legal Op.start w ∧
        level (w.proc false) 0 = RESERVED_LOCK ∧ level (w.proc true) 0 = RESERVED_LOCK :=
  ⟨shared_beside_pending, shared_with_write_lock, reserved_twice⟩

end Two

end Sqlite.FileLock

import Sqlite.Wal.LogWrite

/-! Runs of writers on one log, with crashes: in every state that a run reaches, the file cut off
at any byte recovers to the last commit before the cut. -/
namespace Sqlite.Wal

open Foundation

section

/-! A whole call of `sqlite3WalFrames`: the file, the wal-index and the headers afterwards. -/

variable {file : File} {g : Gen} {sz : ℕ} {log : List WalFrame} {w : Wal} {s : Shm}
  {big : Bool} {c : FramesCall}

/-- The generation that a call writes to: a new one when the log is empty. -/
def callGen (big : Bool) (c : FramesCall) (w : Wal) (g : Gen) : Gen :=
  if w.hdr.mxFrame = 0 then ⟨big, w.nCkpt, if w.nCkpt = 0 then c.salt else w.hdr.aSalt⟩ else g

/-- What a call needs of the writer that makes it. -/
structure CallReady (file : File) (g : Gen) (sz : ℕ) (log : List WalFrame) (big : Bool)
    (c : FramesCall) (w : Wal) (wi : WalIndex) : Prop where
  ok : CallOk c sz
  mxFrame : w.hdr.mxFrame = log.length
  nCkpt : w.nCkpt < 4294967296
  gen : g.WF
  old : 0 < log.length → HoldsLog file g sz log ∧ Continues w g sz (runningCksum g sz log)
  new : log.length = 0 →
    WordPair (callGen big c w g).salt ∧ NoCommit file sz 0 (callGen big c w g).salt
  covers : Covers wi log.length
  pages : ∀ j f, log[j]? = some f → walFramePgno wi (j + 1) = f.pgno

/-- What a call leaves behind. -/
structure CallDone (file : File) (g : Gen) (sz : ℕ) (log fs : List WalFrame) (c : FramesCall)
    (w : Wal) (s : Shm) (w' : Wal) (s' : Shm) (file' : File) : Prop where
  gen : g.WF
  holds : HoldsLog file' g sz (log ++ fs)
  continues : Continues w' g sz (runningCksum g sz (log ++ fs))
  mxFrame : w'.hdr.mxFrame = log.length + fs.length
  nCkpt : w'.nCkpt = w.nCkpt
  szPage : w'.hdr.szPage = encodePageSize sz
  commit : c.isCommit = true → s'.hdr = w'.hdr ∧ w'.hdr.nPage = c.nTruncate
  spill : c.isCommit = false → s'.hdr = s.hdr
  covers : Covers s'.wi (log.length + fs.length)
  pages : ∀ j f, (log ++ fs)[j]? = some f → walFramePgno s'.wi (j + 1) = f.pgno
  tail : ∀ m salt, NoCommit file sz m salt →
    (m < log.length + fs.length → c.isCommit = false) → NoCommit file' sz m salt

/-- After the optional header, the writer continues the generation of the call. -/
theorem CallReady.header (h : CallReady file g sz log big c w s.wi) :
    ∃ w1 file1, (if w.hdr.mxFrame = 0 then writeLogHeader big c w file else (w, file)) =
        (w1, file1) ∧ (callGen big c w g).WF ∧ HoldsLog file1 (callGen big c w g) sz log ∧
      file1.Stores 0 32 (logHeader (callGen big c w g) sz) ∧
      Continues w1 (callGen big c w g) sz (runningCksum (callGen big c w g) sz log) ∧
      w1.nCkpt = w.nCkpt ∧ w1.padToSectorBoundary = w.padToSectorBoundary ∧
      w1.hdr.mxFrame = w.hdr.mxFrame ∧
      ∀ m salt, NoCommit file sz m salt → NoCommit file1 sz m salt := by
  by_cases h0 : w.hdr.mxFrame = 0
  · rw [if_pos h0]
    have hlen : log.length = 0 := h.mxFrame.symm.trans h0
    obtain ⟨hsalt, htail⟩ := h.new hlen
    obtain rfl := List.eq_nil_of_length_eq_zero hlen
    unfold callGen at hsalt htail ⊢
    rw [if_pos h0] at hsalt htail ⊢
    refine ⟨_, _, rfl, ⟨h.nCkpt, hsalt⟩, ?_, ?_, ⟨h.ok.szPage, rfl, rfl, ?_⟩, rfl, rfl, rfl,
      fun m salt hm => hm.writeHeader _⟩
    · exact (holdsLog_header (by rw [h.ok.szPage]; rfl) htail).1
    · exact (holdsLog_header (by rw [h.ok.szPage]; rfl) htail).2
    · rw [h.ok.szPage]
      rfl
  · rw [if_neg h0]
    obtain ⟨hh, hw⟩ := h.old (by have := h.mxFrame; omega)
    unfold callGen
    rw [if_neg h0]
    have hsize : 32 < file.size := by
      have hlt : log.length - 1 < log.length := by have := h.mxFrame; omega
      have h1 := (hh.frames _ hlt).1
      rw [walFrameOffset_succ] at h1
      omega
    refine ⟨w, file, rfl, h.gen, hh, ⟨by omega, fun x hx => ?_⟩, hw, rfl, rfl, rfl, fun _ _ => id⟩
    rw [Nat.zero_add]
    exact hh.hdr hsize x hx

/-- The wal-index and the headers, once the frames are in the file. -/
theorem indexFrames_spec {fs : List WalFrame} {w2 : Wal} {file2 : File}
    (h : CallReady file g sz log big c w s.wi) (hwf : ∀ f ∈ fs, f.WF) {g' : Gen} (hg : g'.WF)
    (hh : HoldsLog file2 g' sz (log ++ fs))
    (hw : Continues w2 g' sz (runningCksum g' sz (log ++ fs)))
    (hmx : w2.hdr.mxFrame = log.length) (hn : w2.nCkpt = w.nCkpt)
    (htail : ∀ m salt, NoCommit file sz m salt →
      (m < log.length + fs.length → c.isCommit = false) → NoCommit file2 sz m salt) :
    ∃ w' s' file', indexFrames c fs w2 s file2 = (Rc.ok, w', s', file') ∧
      CallDone file g' sz log fs c w s w' s' file' := by
  obtain ⟨wi', he, hcov, hsame, hpg⟩ :=
    appendFrames_spec log.length fs h.covers (Or.inl rfl) hwf
  have hpages : ∀ j f, (log ++ fs)[j]? = some f → walFramePgno wi' (j + 1) = f.pgno := by
    intro j f hj
    by_cases hlt : j < log.length
    · rw [List.getElem?_append_left hlt] at hj
      rw [hsame (j + 1) (Nat.succ_pos j) hlt]
      exact h.pages j f hj
    · rw [List.getElem?_append_right (Nat.not_lt.mp hlt)] at hj
      have := hpg _ f hj
      rwa [Nat.add_sub_cancel' (Nat.not_lt.mp hlt)] at this
  unfold indexFrames
  simp only [hmx, he]
  cases hcm : c.isCommit with
  | true =>
    simp only [if_true]
    refine ⟨_, _, _, rfl, hg, hh, ⟨hw.szPage, hw.bigEnd, hw.salt, hw.cksum⟩, rfl, hn, ?_,
      fun _ => ⟨rfl, rfl⟩, fun hc => absurd (hcm.symm.trans hc) (by decide), hcov, hpages, htail⟩
    exact congrArg encodePageSize h.ok.szPage
  | false =>
    simp only [Bool.false_eq_true, if_false]
    refine ⟨_, _, _, rfl, hg, hh, ⟨hw.szPage, hw.bigEnd, hw.salt, hw.cksum⟩, rfl, hn, ?_,
      fun hc => absurd (hcm.symm.trans hc) (by decide), fun _ => rfl, hcov, hpages, htail⟩
    exact congrArg encodePageSize h.ok.szPage

/-- A call succeeds and adds its frames to the log. -/
theorem sqlite3WalFrames_spec (h : CallReady file g sz log big c w s.wi) :
    ∃ w' s' file', sqlite3WalFrames big c w s file = (Rc.ok, w', s', file') ∧
      CallDone file (callGen big c w g) sz log (callFrames w c log.length) c w s w' s' file' := by
  obtain ⟨w1, file1, he1, hg1, hh1, hst1, hw1, hn1, hpad1, hmx1, htail1⟩ := h.header
  have hfs : callFrames w1 c log.length = callFrames w c log.length := by
    unfold callFrames
    rw [hpad1]
  have hwf := callFrames_wf h.ok w log.length
  obtain ⟨file2, he2, hh2, -, htail2⟩ := hh1.writeFrames big (callFrames w c log.length) hst1 hwf hw1
  have hspill := fun hcm => callFrames_spill h.ok hcm w log.length
  unfold sqlite3WalFrames
  simp only [he1]
  rw [h.mxFrame, hfs, h.ok.szPage]
  simp only [he2]
  generalize callFrames w c log.length = fs at *
  generalize callGen big c w g = g' at *
  have hlen : (log ++ fs).length = log.length + fs.length := List.length_append
  have htail : ∀ m salt, NoCommit file sz m salt →
      (m < log.length + fs.length → c.isCommit = false) → NoCommit file2 sz m salt :=
    fun m salt hm hlt => htail2 m salt (htail1 m salt hm) (fun hlt' => hspill (hlt hlt'))
  split
  · refine indexFrames_spec h hwf hg1 (hh2.limitSize ?_) ⟨hw1.szPage, hw1.bigEnd, hw1.salt, rfl⟩
      (hmx1.trans h.mxFrame) hn1 (fun m salt hm hlt => (htail m salt hm hlt).limitSize)
    rw [hlen]
    exact Nat.le_max_right _ _
  · exact indexFrames_spec h hwf hg1 hh2 ⟨hw1.szPage, hw1.bigEnd, hw1.salt, rfl⟩
      (hmx1.trans h.mxFrame) hn1 htail

end

/-- What `sqlite3WalSavepoint` saves. -/
structure LogMark where
  mxFrame : ℕ
  aFrameCksum : ℕ × ℕ
  nCkpt : ℕ

/-- The holder of the write lock. The first call of `sqlite3WalFrames` in a transaction gives up
read lock 0, and with it the right to restart the log. -/
structure LogWriter where
  w : Wal
  readLock0 : Bool
  marks : List LogMark

/-- `log` lists the frames that the calls so far have written and not undone, and `gen` is what
they put into the header of the log file. -/
structure LogState where
  big : Bool
  file : File
  shm : Shm
  writer : Option LogWriter
  log : List WalFrame
  gen : Gen

def LogWriter.savepoint (lw : LogWriter) : LogWriter :=
  { lw with marks := lw.marks ++ [⟨lw.w.hdr.mxFrame, lw.w.hdr.aFrameCksum, lw.w.nCkpt⟩] }

/-- `sqlite3WalSavepointUndo` for one of the saved marks, the later ones being released. -/
def LogState.savepointUndo (s : LogState) (lw : LogWriter) (k : ℕ) (a : LogMark) : LogState :=
  let a := if a.nCkpt ≠ lw.w.nCkpt then { a with mxFrame := 0, nCkpt := lw.w.nCkpt } else a
  let marks := lw.marks.take k ++ [a]
  if a.mxFrame < lw.w.hdr.mxFrame then
    { s with
      shm := { s.shm with wi := walCleanupHash s.shm.wi a.mxFrame }
      writer := some
        { lw with
          w := { lw.w with hdr :=
            { lw.w.hdr with mxFrame := a.mxFrame, aFrameCksum := a.aFrameCksum } }
          marks := marks }
      log := s.log.take a.mxFrame }
  else { s with writer := some { lw with marks := marks } }

/-- `sqlite3WalUndo`, after which the pager holds no savepoint. -/
def LogState.undo (s : LogState) (lw : LogWriter) : LogState :=
  { s with
    shm := { s.shm with wi := walCleanupHash s.shm.wi s.shm.hdr.mxFrame }
    writer := some { lw with w := { lw.w with hdr := s.shm.hdr }, marks := [] }
    log := s.log.take s.shm.hdr.mxFrame }

/-- `walRestartLog`, when it takes the branch that starts the log anew. -/
def restarted (s : LogState) (lw : LogWriter) : Option ℕ → Wal × Shm
  | some salt1 => walRestartLog lw.w s.shm salt1
  | none => (lw.w, s.shm)

/-- A call of `sqlite3WalFrames`. The savepoints of a transaction end with its commit. -/
def LogState.frames (s : LogState) (lw : LogWriter) (c : FramesCall) (restart : Option ℕ) :
    LogState :=
  let (w, shm) := restarted s lw restart
  let log := s.log.take w.hdr.mxFrame
  let (_, w', shm', file') := sqlite3WalFrames s.big c w shm s.file
  { s with
    file := file'
    shm := shm'
    writer := some ⟨w', false, if c.isCommit then [] else lw.marks⟩
    log := log ++ callFrames w c log.length
    gen := callGen s.big c w s.gen }

/-- The machine stops, the file keeps its first `n` bytes, and some machine runs recovery. -/
def LogState.crash (s : LogState) (n : ℕ) (big : Bool) (w : Wal) (shm : Shm) : LogState :=
  let (_, w', shm') := walIndexRecover big (s.file.truncate n) w shm
  { s with
    big := big
    file := s.file.truncate n
    shm := shm'
    writer := none
    log := s.log.take w'.hdr.mxFrame }

/-- No whole frame in the file carries the salt. -/
def FreshSalt (file : File) (sz : ℕ) (salt : ℕ × ℕ) : Prop :=
  WordPair salt ∧ ∀ i, walFrameOffset (i + 1) sz + (sz + 24) ≤ file.size →
    ¬ (getBE (file.read (walFrameOffset (i + 1) sz)) 8 = salt.1 ∧
      getBE (file.read (walFrameOffset (i + 1) sz)) 12 = salt.2)

/-- A restart of the log needs read lock 0 and the header of the last commit. -/
structure RestartOk (sz : ℕ) (s : LogState) (lw : LogWriter) (salt1 : ℕ) : Prop where
  readLock : lw.readLock0 = true
  mxFrame : lw.w.hdr.mxFrame = s.shm.hdr.mxFrame
  fresh : FreshSalt s.file sz (walRestartLog lw.w s.shm salt1).1.hdr.aSalt

inductive LogStep (sz : ℕ) : LogState → LogState → Prop
  | beginWrite {s : LogState} (w : Wal) (readLock0 : Bool) : s.writer = none →
      w.hdr = s.shm.hdr → w.szPage = decodePageSize s.shm.hdr.szPage → w.nCkpt < 4294967296 →
      LogStep sz s { s with
        writer := some ⟨w, readLock0, []⟩
        log := s.log.take s.shm.hdr.mxFrame }
  | frames {s : LogState} {lw : LogWriter} (c : FramesCall) (restart : Option ℕ) :
      s.writer = some lw → CallOk c sz →
      (∀ salt1, restart = some salt1 → RestartOk sz s lw salt1) →
      ((restarted s lw restart).1.nCkpt = 0 → FreshSalt s.file sz c.salt) →
      LogStep sz s (s.frames lw c restart)
  | savepoint {s : LogState} {lw : LogWriter} : s.writer = some lw →
      LogStep sz s { s with writer := some lw.savepoint }
  | savepointUndo {s : LogState} {lw : LogWriter} (k : ℕ) (a : LogMark) : s.writer = some lw →
      lw.marks[k]? = some a → LogStep sz s (s.savepointUndo lw k a)
  | undo {s : LogState} {lw : LogWriter} : s.writer = some lw → LogStep sz s (s.undo lw)
  | release {s : LogState} : LogStep sz s { s with writer := none }
  | crash {s : LogState} (n : ℕ) (big : Bool) (w : Wal) (shm : Shm) :
      LogStep sz s (s.crash n big w shm)

/-- From an empty file and a header that no one has written to. -/
inductive LogReachable (sz : ℕ) : LogState → Prop
  | start (big : Bool) (info : WalCkptInfo) (wi : WalIndex) :
      LogReachable sz ⟨big, ⟨0, fun _ => 0⟩, ⟨{}, info, wi⟩, none, [], ⟨big, 0, (0, 0)⟩⟩
  | step {s s' : LogState} : LogReachable sz s → LogStep sz s s' → LogReachable sz s'

/-- A mark of the current log is still a position in it, one from before a restart counts as 0. -/
structure MarkInv (sz : ℕ) (s : LogState) (lw : LogWriter) (a : LogMark) : Prop where
  same : a.nCkpt = lw.w.nCkpt → s.shm.hdr.mxFrame ≤ a.mxFrame ∧ a.mxFrame ≤ s.log.length ∧
    (0 < a.mxFrame → a.aFrameCksum = runningCksum s.gen sz (s.log.take a.mxFrame))
  other : a.nCkpt ≠ lw.w.nCkpt → s.shm.hdr.mxFrame = 0 ∧ lw.readLock0 = false

/-- Later marks are further on in the log. -/
def MarkLe (nCkpt : ℕ) (a b : LogMark) : Prop :=
  a.nCkpt = nCkpt → b.nCkpt = nCkpt ∧ a.mxFrame ≤ b.mxFrame

structure LogWriterInv (sz : ℕ) (s : LogState) (lw : LogWriter) : Prop where
  mxFrame : lw.w.hdr.mxFrame = s.log.length
  nCkpt : lw.w.nCkpt < 4294967296
  continues : 0 < s.log.length → Continues lw.w s.gen sz (runningCksum s.gen sz s.log)
  salt : WordPair lw.w.hdr.aSalt
  tail : NoCommit s.file sz s.log.length lw.w.hdr.aSalt
  marks : ∀ a ∈ lw.marks, MarkInv sz s lw a
  sorted : lw.marks.Pairwise (MarkLe lw.w.nCkpt)

/-- The shared header is that of the last commit in the log. -/
structure SharedInv (sz : ℕ) (s : LogState) : Prop where
  last : IsLastCommit s.log s.shm.hdr.mxFrame
  nPage : 0 < s.shm.hdr.mxFrame → s.shm.hdr.nPage = sizeAfter s.log s.shm.hdr.mxFrame
  bigEnd : 0 < s.shm.hdr.mxFrame → s.shm.hdr.bigEndCksum = s.gen.bigEnd
  aSalt : 0 < s.shm.hdr.mxFrame → s.shm.hdr.aSalt = s.gen.salt
  cksum : 0 < s.shm.hdr.mxFrame →
    s.shm.hdr.aFrameCksum = runningCksum s.gen sz (s.log.take s.shm.hdr.mxFrame)
  szPage : 0 < s.shm.hdr.mxFrame → s.shm.hdr.szPage = encodePageSize sz
  salt : WordPair s.shm.hdr.aSalt
  tail : NoCommit s.file sz s.shm.hdr.mxFrame s.shm.hdr.aSalt

/-- The headers and the wal-index describe the log. -/
structure LogCore (sz : ℕ) (s : LogState) : Prop where
  gen : s.gen.WF
  covers : Covers s.shm.wi s.log.length
  pages : ∀ j f, s.log[j]? = some f → walFramePgno s.shm.wi (j + 1) = f.pgno
  shared : SharedInv sz s
  writer : ∀ lw, s.writer = some lw → LogWriterInv sz s lw

structure LogInv (sz : ℕ) (s : LogState) : Prop extends LogCore sz s where
  holds : HoldsLog s.file s.gen sz s.log

theorem FreshSalt.noCommit {file : File} {sz : ℕ} {salt : ℕ × ℕ} (h : FreshSalt file sz salt)
    (n : ℕ) : NoCommit file sz n salt :=
  fun i _ hfit h8 h12 => absurd ⟨h8, h12⟩ (h.2 i hfit)

section Cut
variable {log : List WalFrame} {m k : ℕ}

theorem IsLastCommit.take (h : IsLastCommit log m) (hk : m ≤ k) : IsLastCommit (log.take k) m where
  le := by
    rw [List.length_take]
    exact Nat.le_min.mpr ⟨hk, h.le⟩
  hit h0 := by
    obtain ⟨f, h1, h2⟩ := h.hit h0
    exact ⟨f, by rw [List.getElem?_take_of_lt (by omega)]; exact h1, h2⟩
  later i f hi hf := by
    have h1 : i < k := by
      have := (List.getElem?_eq_some_iff.mp hf).1
      rw [List.length_take] at this
      omega
    rw [List.getElem?_take_of_lt h1] at hf
    exact h.later i f hi hf

theorem sizeAfter_take (hk : m ≤ k) : sizeAfter (log.take k) m = sizeAfter log m := by
  unfold sizeAfter
  rw [List.take_take, Nat.min_eq_left hk]

theorem cksumAfter_take {g : Gen} {sz : ℕ} (hk : m ≤ k) :
    cksumAfter g sz (log.take k) m = cksumAfter g sz log m := by
  unfold cksumAfter
  rw [List.take_take, Nat.min_eq_left hk]

theorem pages_take {wi wi' : WalIndex} (h : ∀ j f, log[j]? = some f → walFramePgno wi (j + 1) = f.pgno)
    (hs : SameBelow wi wi' k) :
    ∀ j f, (log.take k)[j]? = some f → walFramePgno wi' (j + 1) = f.pgno := by
  intro j f hj
  have h1 : j < k := by
    have := (List.getElem?_eq_some_iff.mp hj).1
    rw [List.length_take] at this
    omega
  rw [List.getElem?_take_of_lt h1] at hj
  rw [hs (j + 1) (Nat.succ_pos j) h1]
  exact h j f hj

theorem Covers.take {wi : WalIndex} (h : Covers wi log.length) (k : ℕ) :
    Covers wi (log.take k).length :=
  h.mono (by rw [List.length_take]; exact Nat.min_le_right _ _)

end Cut

section Steps
variable {sz : ℕ} {s : LogState} {lw : LogWriter}

/-- Cutting the log back to a point after the last commit keeps the shared part. -/
theorem LogInv.cutBack (h : LogInv sz s) {k : ℕ} (hk : s.shm.hdr.mxFrame ≤ k) {wi : WalIndex}
    (hs : SameBelow s.shm.wi wi k) (hc : Covers wi (s.log.take k).length) {o : Option LogWriter}
    (hw : ∀ lw, o = some lw → LogWriterInv sz
      { s with shm := { s.shm with wi := wi }, writer := o, log := s.log.take k } lw) :
    LogInv sz { s with shm := { s.shm with wi := wi }, writer := o, log := s.log.take k } where
  holds := h.holds.cutBack (fun i f hi hf => h.shared.last.later i f (Nat.le_trans hk hi) hf)
  gen := h.gen
  covers := hc
  pages := pages_take h.pages hs
  shared := by
    refine ⟨h.shared.last.take hk, fun h0 => ?_, h.shared.bigEnd, h.shared.aSalt, fun h0 => ?_,
      h.shared.szPage, h.shared.salt, h.shared.tail⟩
    · exact (h.shared.nPage h0).trans (sizeAfter_take hk).symm
    · dsimp only
      rw [List.take_take, Nat.min_eq_left hk]
      exact h.shared.cksum h0
  writer := hw

/-- A writer that stands at the last commit. -/
theorem LogInv.atCommit (h : LogInv sz s) {w : Wal} {wi : WalIndex} {b : Bool}
    (hhdr : w.hdr = s.shm.hdr) (hn : w.nCkpt < 4294967296)
    (hsz : 0 < s.shm.hdr.mxFrame → w.szPage = sz) :
    LogWriterInv sz { s with
      shm := { s.shm with wi := wi }
      writer := some ⟨w, b, []⟩
      log := s.log.take s.shm.hdr.mxFrame } ⟨w, b, []⟩ := by
  have hlen : (s.log.take s.shm.hdr.mxFrame).length = s.shm.hdr.mxFrame :=
    List.length_take_of_le h.shared.last.le
  constructor
  · dsimp only
    rw [hhdr, hlen]
  · exact hn
  · dsimp only
    rw [hlen]
    intro h0
    refine ⟨hsz h0, ?_, ?_, ?_⟩
    · rw [hhdr]
      exact h.shared.bigEnd h0
    · rw [hhdr]
      exact h.shared.aSalt h0
    · rw [hhdr]
      exact h.shared.cksum h0
  · dsimp only
    rw [hhdr]
    exact h.shared.salt
  · dsimp only
    rw [hhdr, hlen]
    exact h.shared.tail
  · exact fun a ha => absurd ha List.not_mem_nil
  · exact List.Pairwise.nil

theorem LogInv.beginWrite (hsz : PageSize sz) (h : LogInv sz s) {w : Wal} {b : Bool}
    (hhdr : w.hdr = s.shm.hdr) (hs : w.szPage = decodePageSize s.shm.hdr.szPage)
    (hn : w.nCkpt < 4294967296) :
    LogInv sz { s with writer := some ⟨w, b, []⟩, log := s.log.take s.shm.hdr.mxFrame } := by
  apply h.cutBack (Nat.le_refl _) (SameBelow.refl _ _) (h.covers.take _)
  intro lw hlw
  obtain rfl := Option.some.inj hlw
  refine h.atCommit hhdr hn (fun h0 => ?_)
  rw [hs, h.shared.szPage h0, hsz.code]

theorem LogInv.undo (h : LogInv sz s) (hw : s.writer = some lw) : LogInv sz (s.undo lw) := by
  have hwi := h.writer lw hw
  have hle := h.shared.last.le
  apply h.cutBack (Nat.le_refl _) (walCleanupHash_same _ _)
  · rw [List.length_take_of_le hle]
    exact walCleanupHash_covers (h.covers.mono hle)
  · intro lw' hlw'
    obtain rfl := Option.some.inj hlw'
    exact h.atCommit (w := { lw.w with hdr := s.shm.hdr }) rfl hwi.nCkpt
      (fun h0 => (hwi.continues (by omega)).szPage)

theorem LogInv.savepoint (h : LogInv sz s) (hw : s.writer = some lw) :
    LogInv sz { s with writer := some lw.savepoint } := by
  have hwi := h.writer lw hw
  refine ⟨⟨h.gen, h.covers, h.pages, ⟨h.shared.last, h.shared.nPage, h.shared.bigEnd,
    h.shared.aSalt, h.shared.cksum, h.shared.szPage, h.shared.salt, h.shared.tail⟩, ?_⟩, h.holds⟩
  intro lw' hlw'
  obtain rfl := Option.some.inj hlw'
  refine ⟨hwi.mxFrame, hwi.nCkpt, hwi.continues, hwi.salt, hwi.tail, fun a ha => ?_, ?_⟩
  · rcases List.mem_append.mp ha with ha | ha
    · exact ⟨(hwi.marks a ha).same, (hwi.marks a ha).other⟩
    · obtain rfl := List.mem_singleton.mp ha
      refine ⟨fun _ => ⟨?_, ?_, fun h0 => ?_⟩, fun hne => absurd rfl hne⟩
      · exact le_of_le_of_eq h.shared.last.le hwi.mxFrame.symm
      · exact Nat.le_of_eq hwi.mxFrame
      · dsimp only at h0 ⊢
        rw [hwi.mxFrame] at h0 ⊢
        rw [List.take_length]
        exact (hwi.continues h0).cksum
  · refine List.pairwise_append.mpr ⟨hwi.sorted, List.pairwise_singleton _ _, ?_⟩
    intro a ha b hb hn
    obtain rfl := List.mem_singleton.mp hb
    exact ⟨rfl, le_of_le_of_eq ((hwi.marks a ha).same hn).2.1 hwi.mxFrame.symm⟩

/-- What a rollback uses of a mark, and how it stands to the marks before. -/
theorem LogWriterInv.mark (hwi : LogWriterInv sz s lw) {k : ℕ} {a a' : LogMark}
    (ha : lw.marks[k]? = some a)
    (ha' : a' = if a.nCkpt ≠ lw.w.nCkpt then { a with mxFrame := 0, nCkpt := lw.w.nCkpt } else a) :
    a'.nCkpt = lw.w.nCkpt ∧ MarkInv sz s lw a' ∧
      (lw.marks.take k ++ [a']).Pairwise (MarkLe lw.w.nCkpt) := by
  have hmem : a ∈ lw.marks := List.mem_of_getElem? ha
  have hk : k < lw.marks.length := (List.getElem?_eq_some_iff.mp ha).1
  have hak : lw.marks[k] = a := (List.getElem?_eq_some_iff.mp ha).2
  have hbefore : ∀ b ∈ lw.marks.take k, MarkLe lw.w.nCkpt b a := by
    intro b hb
    have h1 := hwi.sorted
    rw [← List.take_append_drop k lw.marks] at h1
    refine (List.pairwise_append.mp h1).2.2 b hb a ?_
    rw [List.drop_eq_getElem_cons hk, hak]
    exact List.mem_cons_self
  by_cases hn : a.nCkpt = lw.w.nCkpt
  · rw [if_neg (not_not.mpr hn)] at ha'
    subst ha'
    refine ⟨hn, hwi.marks a' hmem, List.pairwise_append.mpr
      ⟨hwi.sorted.sublist (List.take_sublist k _), List.pairwise_singleton _ _, fun b hb c hc => ?_⟩⟩
    rw [List.mem_singleton.mp hc]
    exact hbefore b hb
  · rw [if_pos hn] at ha'
    subst ha'
    have hz := ((hwi.marks a hmem).other hn).1
    refine ⟨rfl, ⟨fun _ => ⟨Nat.le_of_eq hz, Nat.zero_le _, fun h0 => absurd h0 (Nat.lt_irrefl 0)⟩,
      fun hne => absurd rfl hne⟩, List.pairwise_append.mpr
      ⟨hwi.sorted.sublist (List.take_sublist k _), List.pairwise_singleton _ _, fun b hb c hc => ?_⟩⟩
    rw [List.mem_singleton.mp hc]
    exact fun hbn => absurd (hbefore b hb hbn).1 hn

theorem LogInv.savepointUndo (h : LogInv sz s) (hw : s.writer = some lw) {k : ℕ} {a : LogMark}
    (ha : lw.marks[k]? = some a) : LogInv sz (s.savepointUndo lw k a) := by
  have hwi := h.writer lw hw
  unfold LogState.savepointUndo
  generalize ha' : (if a.nCkpt ≠ lw.w.nCkpt then
    ({ a with mxFrame := 0, nCkpt := lw.w.nCkpt } : LogMark) else a) = a'
  obtain ⟨hn, hinv, hsorted⟩ := hwi.mark ha ha'.symm
  obtain ⟨h1, h2, h3⟩ := hinv.same hn
  have hmem : ∀ b ∈ lw.marks.take k ++ [a'], MarkInv sz s lw b ∧
      (b.nCkpt = lw.w.nCkpt → b.mxFrame ≤ a'.mxFrame) := by
    intro b hb
    rcases List.mem_append.mp hb with hb | hb
    · refine ⟨hwi.marks b (List.mem_of_mem_take hb), fun hbn => ?_⟩
      exact ((List.pairwise_append.mp hsorted).2.2 b hb a' (List.mem_singleton_self _) hbn).2
    · rw [List.mem_singleton.mp hb]
      exact ⟨hinv, fun _ => Nat.le_refl _⟩
  dsimp only
  by_cases hlt : a'.mxFrame < lw.w.hdr.mxFrame
  · rw [if_pos hlt]
    have hlen : (s.log.take a'.mxFrame).length = a'.mxFrame := List.length_take_of_le h2
    apply h.cutBack h1 (walCleanupHash_same _ _)
    · rw [hlen]
      exact walCleanupHash_covers (h.covers.mono h2)
    · intro lw' hlw'
      obtain rfl := Option.some.inj hlw'
      have hpos : 0 < s.log.length := by have := hwi.mxFrame; omega
      have hcont := hwi.continues hpos
      refine ⟨hlen.symm, hwi.nCkpt, fun h0 => ?_, hwi.salt, ?_, fun b hb => ?_, hsorted⟩
      · dsimp only at h0
        rw [hlen] at h0
        exact ⟨hcont.szPage, hcont.bigEnd, hcont.salt, h3 h0⟩
      · dsimp only
        rw [hcont.salt]
        exact (h.holds.cutBack
          (fun i f hi hf => h.shared.last.later i f (Nat.le_trans h1 hi) hf)).tail
      · obtain ⟨h4, h5⟩ := hmem b hb
        refine ⟨fun hbn => ?_, h4.other⟩
        obtain ⟨h6, h7, h8⟩ := h4.same hbn
        have h9 := h5 hbn
        dsimp only
        rw [hlen, List.take_take, Nat.min_eq_left h9]
        exact ⟨h6, h9, h8⟩
  · rw [if_neg hlt]
    refine ⟨⟨h.gen, h.covers, h.pages, ⟨h.shared.last, h.shared.nPage, h.shared.bigEnd,
      h.shared.aSalt, h.shared.cksum, h.shared.szPage, h.shared.salt, h.shared.tail⟩, ?_⟩, h.holds⟩
    intro lw' hlw'
    obtain rfl := Option.some.inj hlw'
    exact ⟨hwi.mxFrame, hwi.nCkpt, hwi.continues, hwi.salt, hwi.tail,
      fun b hb => ⟨(hmem b hb).1.same, (hmem b hb).1.other⟩, hsorted⟩

theorem LogInv.release (h : LogInv sz s) : LogInv sz { s with writer := none } :=
  ⟨⟨h.gen, h.covers, h.pages, ⟨h.shared.last, h.shared.nPage, h.shared.bigEnd, h.shared.aSalt,
    h.shared.cksum, h.shared.szPage, h.shared.salt, h.shared.tail⟩, fun _ hn => nomatch hn⟩, h.holds⟩

end Steps

end Sqlite.Wal

import Sqlite.Wal.IndexBlock

/-! Runs of successive writers on one wal-index, and what `sqlite3WalRead` finds in every state
of such a run. -/
namespace Sqlite.Wal

/-- What `sqlite3WalSavepoint` saves of the position in the log. -/
structure Mark where
  mxFrame : ℕ
  nCkpt : UInt32

/-- The holder of the write lock. Frames after `mxFrame` up to `iFrame` are those that the batch
in progress has appended. -/
structure Writer where
  mxFrame : ℕ
  iFrame : ℕ
  nCkpt : UInt32
  marks : List Mark

/-- `file i` is the page number in the header of frame `i` of the log file, and `mxFrame` is the
field of the shared wal-index header. -/
structure IndexState where
  wi : WalIndex
  file : ℕ → ℕ
  mxFrame : ℕ
  writer : Option Writer

def sqlite3WalSavepoint (w : Writer) : Mark := ⟨w.mxFrame, w.nCkpt⟩

def sqlite3WalSavepointUndo (wi : WalIndex) (w : Writer) (aWalData : Mark) :
    WalIndex × ℕ × Mark :=
  let aWalData := if aWalData.nCkpt ≠ w.nCkpt then ⟨0, w.nCkpt⟩ else aWalData
  if aWalData.mxFrame < w.mxFrame then
    (walCleanupHash wi aWalData.mxFrame, aWalData.mxFrame, aWalData)
  else (wi, w.mxFrame, aWalData)

/-- The pages passed to `xUndo`, the wal-index and the restored `mxFrame`. -/
def sqlite3WalUndo (wi : WalIndex) (shared iMax : ℕ) : List ℕ × WalIndex × ℕ :=
  ((List.range' (shared + 1) (iMax - shared)).map (walFramePgno wi),
    walCleanupHash wi shared, shared)

/-- Operations of the holder of the write lock. `append`, `endBatch` and `commit` are what
`sqlite3WalFrames` does for a frame and after the last one, `failBatch` is its early return.
The savepoints of a transaction end with its commit. -/
inductive IndexOp
  | beginWrite (nCkpt : UInt32)
  | append (pgno : ℕ)
  | endBatch
  | failBatch
  | commit
  | savepoint
  | savepointUndo (k : ℕ)
  | undo
  | restartLog
  | release

def IndexState.appendFrame (s : IndexState) (w : Writer) (pgno : ℕ) : IndexState :=
  let r := walIndexAppend s.wi w.mxFrame (w.iFrame + 1) pgno
  { s with
    wi := r.2
    file := Function.update s.file (w.iFrame + 1) pgno
    writer := some { w with iFrame := if r.1 = Rc.ok then w.iFrame + 1 else w.mxFrame } }

def IndexState.rollbackTo (s : IndexState) (w : Writer) (k : ℕ) : Option IndexState :=
  match w.marks[k]? with
  | none => none
  | some m =>
    let r := sqlite3WalSavepointUndo s.wi w m
    some { s with
      wi := r.1
      writer := some { w with mxFrame := r.2.1, iFrame := r.2.1, marks := w.marks.set k r.2.2 } }

/-- A step of the writer `w`. The calls other than those of `sqlite3WalFrames` come between
batches, and the log restarts only when the transaction has written nothing. -/
def IndexState.writerStep (s : IndexState) (w : Writer) : IndexOp → Option IndexState
  | .beginWrite _ => none
  | .append pgno => if pgno = 0 then none else some (s.appendFrame w pgno)
  | .endBatch => some { s with writer := some { w with mxFrame := w.iFrame } }
  | .failBatch => some { s with writer := some { w with iFrame := w.mxFrame } }
  | .commit =>
    some { s with mxFrame := w.iFrame, writer := some { w with mxFrame := w.iFrame, marks := [] } }
  | .savepoint =>
    if w.iFrame ≠ w.mxFrame then none
    else some { s with writer := some { w with marks := w.marks ++ [sqlite3WalSavepoint w] } }
  | .savepointUndo k => if w.iFrame ≠ w.mxFrame then none else s.rollbackTo w k
  | .undo =>
    if w.iFrame ≠ w.mxFrame then none
    else
      let r := sqlite3WalUndo s.wi s.mxFrame w.mxFrame
      some { s with wi := r.2.1, writer := some { w with mxFrame := r.2.2, iFrame := r.2.2 } }
  | .restartLog =>
    if w.iFrame ≠ s.mxFrame ∨ w.mxFrame ≠ s.mxFrame then none
    else some { s with
      mxFrame := 0
      writer := some { w with mxFrame := 0, iFrame := 0, nCkpt := w.nCkpt + 1 } }
  | .release => some { s with writer := none }

def IndexState.step (s : IndexState) (op : IndexOp) : Option IndexState :=
  match s.writer with
  | some w => s.writerStep w op
  | none =>
    match op with
    | .beginWrite nCkpt => some { s with writer := some ⟨s.mxFrame, s.mxFrame, nCkpt, []⟩ }
    | _ => none

/-- From an empty log over any content of the wal-index and of the log file. -/
inductive IndexReachable : IndexState → Prop
  | start (wi : WalIndex) (file : ℕ → ℕ) : IndexReachable ⟨wi, file, 0, none⟩
  | step {s s' : IndexState} (op : IndexOp) : IndexReachable s → s.step op = some s' →
      IndexReachable s'

/-- The last frame with an entry. -/
def IndexState.top (s : IndexState) : ℕ :=
  match s.writer with
  | some w => w.iFrame
  | none => s.mxFrame

structure WriterInv (s : IndexState) (w : Writer) : Prop where
  shared : s.mxFrame ≤ w.mxFrame
  batch : w.mxFrame ≤ w.iFrame
  exact : w.mxFrame < w.iFrame →
    BlockGood s.wi (walFramePage w.iFrame) (w.iFrame - iZero (walFramePage w.iFrame))
  marks : ∀ m ∈ w.marks, (m.nCkpt = w.nCkpt → s.mxFrame ≤ m.mxFrame) ∧
    (m.nCkpt ≠ w.nCkpt → s.mxFrame = 0)

/-- The wal-index and the log file agree on the frames up to `top`. -/
structure Indexed (wi : WalIndex) (file : ℕ → ℕ) (top : ℕ) : Prop where
  covers : Covers wi top
  file : ∀ i, 0 < i → i ≤ top → walFramePgno wi i = file i

structure IndexInv (s : IndexState) : Prop where
  indexed : Indexed s.wi s.file s.top
  writer : ∀ w, s.writer = some w → WriterInv s w

section Indexed
variable {wi : WalIndex} {file : ℕ → ℕ} {top m : ℕ}

theorem Indexed.mono (h : Indexed wi file top) (hm : m ≤ top) : Indexed wi file m where
  covers := h.covers.mono hm
  file i h0 h1 := h.file i h0 (Nat.le_trans h1 hm)

theorem Indexed.cleanup (h : Indexed wi file top) (hm : m ≤ top) :
    Indexed (walCleanupHash wi m) file m where
  covers := walCleanupHash_covers (h.covers.mono hm)
  file i h0 h1 := by
    rw [walCleanupHash_same wi m i h0 h1]
    exact h.file i h0 (Nat.le_trans h1 hm)

/-- A read finds the last frame of the page in the log file. -/
theorem Indexed.read (h : Indexed wi file top) {iLast : ℕ} (hL : iLast ≤ top) {readLock : Int}
    (hr : readLock ≠ 0) (pgno : ℕ) :
    sqlite3WalReadFrame wi readLock iLast pgno = .ok (linearScan wi pgno iLast) ∧
      IsLastFrame file pgno iLast (linearScan wi pgno iLast) := by
  obtain ⟨r, h1, h2⟩ := sqlite3WalReadFrame_spec (P := pgno) h.covers hL hr
  have hscan := linearScan_isLast wi pgno iLast
  rw [h1, h2.unique hscan]
  refine ⟨rfl, hscan.congr (fun i h3 h4 => ?_)⟩
  exact (h.file i h3 (Nat.le_trans h4 hL)).symm

end Indexed

section Steps
variable {s s' : IndexState} {w : Writer}

theorem IndexInv.top_eq (hw : s.writer = some w) : s.top = w.iFrame := by
  unfold IndexState.top
  rw [hw]

theorem IndexInv.shared_le (h : IndexInv s) : s.mxFrame ≤ s.top := by
  cases hw : s.writer with
  | none =>
    unfold IndexState.top
    rw [hw]
  | some w =>
    rw [IndexInv.top_eq hw]
    exact Nat.le_trans (h.writer w hw).shared (h.writer w hw).batch

/-- Appending is possible wherever the batch stands. -/
theorem IndexInv.append_ready (h : IndexInv s) (hw : s.writer = some w) :
    w.iFrame = w.mxFrame ∨
      BlockGood s.wi (walFramePage w.iFrame) (w.iFrame - iZero (walFramePage w.iFrame)) := by
  rcases Nat.lt_or_eq_of_le (h.writer w hw).batch with hlt | heq
  · exact Or.inr ((h.writer w hw).exact hlt)
  · exact Or.inl heq.symm

/-- The invariant for a state whose writer stands between two batches. -/
theorem IndexInv.of_settled {m : ℕ} {wi : WalIndex} {w' : Writer}
    (hi : Indexed wi s.file m) (hsm : s.mxFrame ≤ m) (h1 : w'.mxFrame = m) (h2 : w'.iFrame = m)
    (hmarks : ∀ a ∈ w'.marks, (a.nCkpt = w'.nCkpt → s.mxFrame ≤ a.mxFrame) ∧
      (a.nCkpt ≠ w'.nCkpt → s.mxFrame = 0)) :
    IndexInv { s with wi := wi, writer := some w' } where
  indexed := by
    rw [IndexInv.top_eq (w := w') rfl, h2]
    exact hi
  writer w1 hw1 := by
    obtain rfl := Option.some.inj hw1
    constructor
    · rw [h1]
      exact hsm
    · rw [h1, h2]
    · intro hlt
      rw [h1, h2] at hlt
      exact absurd hlt (Nat.lt_irrefl m)
    · exact hmarks

theorem IndexInv.appendFrame (h : IndexInv s) (hw : s.writer = some w) {pgno : ℕ}
    (hp : 0 < pgno) : IndexInv (s.appendFrame w pgno) := by
  have hi := h.indexed
  rw [IndexInv.top_eq hw] at hi
  obtain ⟨wi', h1, h2, h3, h4, h5⟩ := walIndexAppend_spec hi.covers (h.append_ready hw) hp
  have hwi := h.writer w hw
  have heq : s.appendFrame w pgno =
      { s with
        wi := wi'
        file := Function.update s.file (w.iFrame + 1) pgno
        writer := some { w with iFrame := w.iFrame + 1 } } := by
    unfold IndexState.appendFrame
    rw [h1]
    rfl
  rw [heq]
  constructor
  · refine ⟨h2, fun i h6 h7 => ?_⟩
    dsimp only [IndexState.top] at h7 ⊢
    rcases Nat.le_succ_iff.mp h7 with h7 | rfl
    · rw [Function.update_of_ne (by omega), h5 i h6 h7]
      exact hi.file i h6 h7
    · rw [Function.update_self]
      exact h4
  · intro w1 hw1
    obtain rfl := Option.some.inj hw1
    exact ⟨hwi.shared, Nat.le_succ_of_le hwi.batch, fun _ => h3, hwi.marks⟩

theorem IndexInv.rollbackTo (h : IndexInv s) (hw : s.writer = some w)
    (hb : w.iFrame = w.mxFrame) {k : ℕ} (hs : s.rollbackTo w k = some s') : IndexInv s' := by
  have hi := h.indexed
  rw [IndexInv.top_eq hw, hb] at hi
  have hwi := h.writer w hw
  unfold IndexState.rollbackTo at hs
  cases hk : w.marks[k]? with
  | none => simp only [hk, reduceCtorEq] at hs
  | some a =>
    simp only [hk] at hs
    have hmem : a ∈ w.marks := List.mem_of_getElem? hk
    obtain ⟨hsame, hdiff⟩ := hwi.marks a hmem
    -- the mark that is used belongs to the current log
    have hused : ∃ a', a'.nCkpt = w.nCkpt ∧ s.mxFrame ≤ a'.mxFrame ∧
        sqlite3WalSavepointUndo s.wi w a =
          if a'.mxFrame < w.mxFrame then (walCleanupHash s.wi a'.mxFrame, a'.mxFrame, a')
          else (s.wi, w.mxFrame, a') := by
      unfold sqlite3WalSavepointUndo
      by_cases hc : a.nCkpt = w.nCkpt
      · refine ⟨a, hc, hsame hc, ?_⟩
        simp only [ne_eq, hc, not_true, if_false]
      · refine ⟨⟨0, w.nCkpt⟩, rfl, Nat.le_of_eq (hdiff hc), ?_⟩
        simp only [ne_eq, hc, not_false_eq_true, if_true]
    obtain ⟨a', hn', hle, heq⟩ := hused
    have hmarks : ∀ b ∈ w.marks.set k a', (b.nCkpt = w.nCkpt → s.mxFrame ≤ b.mxFrame) ∧
        (b.nCkpt ≠ w.nCkpt → s.mxFrame = 0) := by
      intro b hbm
      rcases List.mem_or_eq_of_mem_set hbm with hbm | rfl
      · exact hwi.marks b hbm
      · exact ⟨fun _ => hle, fun hne => absurd hn' hne⟩
    obtain rfl := Option.some.inj hs
    rw [heq]
    by_cases hlt : a'.mxFrame < w.mxFrame
    · simp only [if_pos hlt]
      exact IndexInv.of_settled (hi.cleanup (Nat.le_of_lt hlt)) hle rfl rfl hmarks
    · simp only [if_neg hlt]
      exact IndexInv.of_settled hi hwi.shared rfl rfl hmarks

theorem IndexInv.writerStep (h : IndexInv s) (hw : s.writer = some w) {op : IndexOp}
    (hs : s.writerStep w op = some s') : IndexInv s' := by
  have hi := h.indexed
  rw [IndexInv.top_eq hw] at hi
  have hwi := h.writer w hw
  cases op with
  | beginWrite n => cases hs
  | append pgno =>
    dsimp only [IndexState.writerStep] at hs
    by_cases hp : pgno = 0
    · rw [if_pos hp] at hs
      cases hs
    · rw [if_neg hp] at hs
      obtain rfl := Option.some.inj hs
      exact h.appendFrame hw (Nat.pos_of_ne_zero hp)
  | endBatch =>
    obtain rfl := Option.some.inj hs
    exact IndexInv.of_settled hi (Nat.le_trans hwi.shared hwi.batch) rfl rfl hwi.marks
  | failBatch =>
    obtain rfl := Option.some.inj hs
    exact IndexInv.of_settled (hi.mono hwi.batch) hwi.shared rfl rfl hwi.marks
  | commit =>
    obtain rfl := Option.some.inj hs
    exact IndexInv.of_settled (s := { s with mxFrame := w.iFrame }) hi (Nat.le_refl _) rfl rfl
      (fun a ha => absurd ha List.not_mem_nil)
  | savepoint =>
    dsimp only [IndexState.writerStep] at hs
    by_cases hb : w.iFrame = w.mxFrame
    · rw [if_neg (not_not.mpr hb)] at hs
      obtain rfl := Option.some.inj hs
      refine IndexInv.of_settled (hb ▸ hi) hwi.shared rfl hb ?_
      intro a ha
      rcases List.mem_append.mp ha with ha | ha
      · exact hwi.marks a ha
      · obtain rfl := List.mem_singleton.mp ha
        exact ⟨fun _ => hwi.shared, fun hne => absurd rfl hne⟩
    · rw [if_pos hb] at hs
      cases hs
  | savepointUndo k =>
    dsimp only [IndexState.writerStep] at hs
    by_cases hb : w.iFrame = w.mxFrame
    · rw [if_neg (not_not.mpr hb)] at hs
      exact h.rollbackTo hw hb hs
    · rw [if_pos hb] at hs
      cases hs
  | undo =>
    dsimp only [IndexState.writerStep] at hs
    by_cases hb : w.iFrame = w.mxFrame
    · rw [if_neg (not_not.mpr hb)] at hs
      obtain rfl := Option.some.inj hs
      exact IndexInv.of_settled (hi.cleanup (Nat.le_trans hwi.shared hwi.batch)) (Nat.le_refl _)
        rfl rfl hwi.marks
    · rw [if_pos hb] at hs
      cases hs
  | restartLog =>
    dsimp only [IndexState.writerStep] at hs
    by_cases hb : w.iFrame ≠ s.mxFrame ∨ w.mxFrame ≠ s.mxFrame
    · rw [if_pos hb] at hs
      cases hs
    · rw [if_neg hb] at hs
      obtain rfl := Option.some.inj hs
      exact IndexInv.of_settled (s := { s with mxFrame := 0 }) (hi.mono (Nat.zero_le _))
        (Nat.le_refl 0) rfl rfl (fun _ _ => ⟨fun _ => Nat.zero_le _, fun _ => rfl⟩)
  | release =>
    obtain rfl := Option.some.inj hs
    exact ⟨hi.mono (Nat.le_trans hwi.shared hwi.batch), fun _ hn => nomatch hn⟩

theorem IndexInv.step (h : IndexInv s) {op : IndexOp} (hs : s.step op = some s') :
    IndexInv s' := by
  unfold IndexState.step at hs
  cases hw : s.writer with
  | some w =>
    simp only [hw] at hs
    exact h.writerStep hw hs
  | none =>
    have hi := h.indexed
    unfold IndexState.top at hi
    rw [hw] at hi
    cases op with
    | beginWrite n =>
      simp only [hw] at hs
      obtain rfl := Option.some.inj hs
      exact IndexInv.of_settled hi (Nat.le_refl _) rfl rfl
        (fun a ha => absurd ha List.not_mem_nil)
    | _ => simp only [hw, reduceCtorEq] at hs

theorem IndexReachable.inv (h : IndexReachable s) : IndexInv s := by
  induction h with
  | start wi file =>
    exact ⟨⟨covers_zero wi, fun i h0 h1 => absurd h0 (Nat.not_lt.mpr h1)⟩, fun _ hn => nomatch hn⟩
  | step op _ hs ih => exact ih.step hs

end Steps

/-- In every reachable state, a read at any snapshot of the committed log ends without an error
and selects the last frame of its page, and the writer reads its own frames in the same way.
Appending a frame never reports corruption. -/
theorem wal_index_sound {s : IndexState} (h : IndexReachable s) :
    (∀ pgno iLast : ℕ, iLast ≤ s.mxFrame ∨ (∃ w, s.writer = some w ∧ iLast ≤ w.mxFrame) →
      ∀ readLock : Int, readLock ≠ 0 →
        sqlite3WalReadFrame s.wi readLock iLast pgno = .ok (linearScan s.wi pgno iLast) ∧
        IsLastFrame (walFramePgno s.wi) pgno iLast (linearScan s.wi pgno iLast) ∧
        IsLastFrame s.file pgno iLast (linearScan s.wi pgno iLast)) ∧
    ∀ w, s.writer = some w → ∀ pgno, 0 < pgno →
      (walIndexAppend s.wi w.mxFrame (w.iFrame + 1) pgno).1 = Rc.ok := by
  have hinv := h.inv
  constructor
  · intro pgno iLast hL readLock hr
    have htop : iLast ≤ s.top := by
      rcases hL with hL | ⟨w, hw, hL⟩
      · exact Nat.le_trans hL hinv.shared_le
      · rw [IndexInv.top_eq hw]
        exact Nat.le_trans hL (hinv.writer w hw).batch
    obtain ⟨h1, h2⟩ := hinv.indexed.read htop hr pgno
    exact ⟨h1, linearScan_isLast s.wi pgno iLast, h2⟩
  · intro w hw pgno hp
    have hi := hinv.indexed
    rw [IndexInv.top_eq hw] at hi
    obtain ⟨wi', h1, -⟩ := walIndexAppend_spec hi.covers (hinv.append_ready hw) hp
    rw [h1]

/-- Two frames of page 7 committed, over stale entries. -/
theorem wal_index_sound_two :
    ∃ s : IndexState, IndexReachable s ∧ s.mxFrame = 2 ∧
      sqlite3WalReadFrame s.wi 1 2 7 = .ok 2 := by
  let s0 : IndexState := ⟨fun _ => ⟨fun _ => 9, fun _ => 9⟩, fun _ => 0, 0, none⟩
  have h0 : IndexReachable s0 := IndexReachable.start _ _
  have h1 := h0.step (.beginWrite 0) rfl
  have h2 := h1.step (.append 7) rfl
  have h3 := h2.step (.append 7) rfl
  have h4 := h3.step .commit rfl
  have hr := (wal_index_sound h4).1 7 2 (Or.inl (by decide)) 1 (by decide)
  refine ⟨_, h4, by decide, ?_⟩
  rw [hr.1]
  decide

end Sqlite.Wal

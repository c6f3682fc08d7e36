import Sqlite.Wal.LogRun

/-! Writing and crashing keep the log in order, so that recovery undoes writing. -/
namespace Sqlite.Wal

open Foundation

variable {sz : ℕ} {s : LogState} {lw : LogWriter} {c : FramesCall}

section Restart

/-- The state in which a call of `sqlite3WalFrames` starts to write. -/
def LogState.callStart (s : LogState) (lw : LogWriter) (restart : Option ℕ) : LogState :=
  { s with
    shm := (restarted s lw restart).2
    writer := some ⟨(restarted s lw restart).1, false, lw.marks⟩
    log := s.log.take (restarted s lw restart).1.hdr.mxFrame }

theorem LogInv.callStart (h : LogInv sz s) (hw : s.writer = some lw) {restart : Option ℕ}
    (hr : ∀ salt1, restart = some salt1 → RestartOk sz s lw salt1) :
    LogCore sz (s.callStart lw restart) ∧
      (0 < (s.callStart lw restart).log.length →
        HoldsLog s.file s.gen sz (s.callStart lw restart).log) := by
  have hwi := h.writer lw hw
  cases restart with
  | none =>
    have hlog : s.log.take lw.w.hdr.mxFrame = s.log := by rw [hwi.mxFrame, List.take_length]
    unfold LogState.callStart restarted
    dsimp only
    rw [hlog]
    refine ⟨⟨h.gen, h.covers, h.pages, ⟨h.shared.last, h.shared.nPage, h.shared.bigEnd,
      h.shared.aSalt, h.shared.cksum, h.shared.szPage, h.shared.salt, h.shared.tail⟩, ?_⟩,
      fun _ => h.holds⟩
    intro lw' hlw'
    obtain rfl := Option.some.inj hlw'
    exact ⟨hwi.mxFrame, hwi.nCkpt, hwi.continues, hwi.salt, hwi.tail, fun a ha =>
      ⟨(hwi.marks a ha).same, fun hn => ⟨((hwi.marks a ha).other hn).1, rfl⟩⟩, hwi.sorted⟩
  | some salt1 =>
    have hok := hr salt1 rfl
    have hfresh := hok.fresh
    -- every mark so far belongs to the log that is given up
    have hold : ∀ a ∈ lw.marks, a.nCkpt ≠ (lw.w.nCkpt + 1) % 4294967296 := by
      intro a ha hn
      have h1 := hwi.nCkpt
      have h2 : a.nCkpt = lw.w.nCkpt := by
        by_contra hne
        exact absurd (hok.readLock.symm.trans ((hwi.marks a ha).other hne).2) (by decide)
      omega
    have hnil : s.log.take (walRestartLog lw.w s.shm salt1).1.hdr.mxFrame = [] := List.take_zero
    unfold LogState.callStart restarted
    dsimp only
    rw [hnil]
    refine ⟨⟨h.gen, covers_zero _, fun j f hj => (nomatch hj), ⟨?_, ?_, ?_, ?_, ?_, ?_, ?_, ?_⟩, ?_⟩,
      fun h0 => absurd h0 (Nat.lt_irrefl 0)⟩
    · exact ⟨Nat.le_refl 0, fun h0 => absurd h0 (Nat.lt_irrefl 0), fun i f _ hf => nomatch hf⟩
    · exact fun h0 => absurd h0 (Nat.lt_irrefl 0)
    · exact fun h0 => absurd h0 (Nat.lt_irrefl 0)
    · exact fun h0 => absurd h0 (Nat.lt_irrefl 0)
    · exact fun h0 => absurd h0 (Nat.lt_irrefl 0)
    · exact fun h0 => absurd h0 (Nat.lt_irrefl 0)
    · exact hfresh.1
    · exact hfresh.noCommit 0
    · intro lw' hlw'
      obtain rfl := Option.some.inj hlw'
      refine ⟨rfl, Nat.mod_lt _ (by decide), fun h0 => absurd h0 (Nat.lt_irrefl 0), hfresh.1,
        hfresh.noCommit 0, fun a ha => ⟨fun hn => absurd hn (hold a ha), fun _ => ⟨rfl, rfl⟩⟩, ?_⟩
      exact List.pairwise_of_forall_mem_list (fun a ha b _ hn => absurd hn (hold a ha))

end Restart

section Call
variable {fs : List WalFrame} {w' : Wal} {s' : Shm} {file' : File} {g' : Gen}

/-- The header that a commit shares. -/
theorem CallDone.sharedCommit (s0 : LogState) {w : Wal}
    (hd : CallDone s0.file g' sz s0.log fs c w s0.shm w' s' file') (hcm : c.isCommit = true)
    (hlast : ∃ f, fs.getLast? = some f ∧ f.nTruncate = c.nTruncate) (ht : c.nTruncate ≠ 0)
    {o : Option LogWriter} :
    SharedInv sz ⟨s0.big, file', s', o, s0.log ++ fs, g'⟩ := by
  obtain ⟨hhdr, hpg⟩ := hd.commit hcm
  obtain ⟨f, hf, hft⟩ := hlast
  have hlen : (s0.log ++ fs).length = w'.hdr.mxFrame := by
    rw [List.length_append, hd.mxFrame]
  have hpos : 0 < fs.length := List.length_pos_of_mem (List.mem_of_getLast? hf)
  have hget : (s0.log ++ fs).getLast? = some f := by
    rw [List.getLast?_append, hf]
    rfl
  constructor
  · dsimp only
    rw [hhdr, ← hlen]
    refine ⟨Nat.le_refl _, fun _ => ⟨f, ?_, by rw [hft]; exact ht⟩, fun i f' hi hf' => ?_⟩
    · rw [← List.getLast?_eq_getElem?]
      exact hget
    · have := (List.getElem?_eq_some_iff.mp hf').1
      omega
  · dsimp only
    rw [hhdr, ← hlen, hpg]
    intro _
    unfold sizeAfter
    rw [List.take_length, hget]
    exact hft.symm
  · dsimp only
    rw [hhdr]
    exact fun _ => hd.continues.bigEnd
  · dsimp only
    rw [hhdr]
    exact fun _ => hd.continues.salt
  · dsimp only
    rw [hhdr, ← hlen, List.take_length]
    exact fun _ => hd.continues.cksum
  · dsimp only
    rw [hhdr]
    exact fun _ => hd.szPage
  · dsimp only
    rw [hhdr, hd.continues.salt]
    exact hd.gen.salt
  · dsimp only
    rw [hhdr, ← hlen, hd.continues.salt]
    exact hd.holds.tail

/-- Spilled frames leave the last commit where it is. -/
theorem CallDone.sharedSpill {s0 : LogState} {w : Wal} (h : SharedInv sz s0)
    (hd : CallDone s0.file g' sz s0.log fs c w s0.shm w' s' file') (hcm : c.isCommit = false)
    (hspill : ∀ f ∈ fs, f.nTruncate = 0) (hgen : 0 < s0.log.length → g' = s0.gen)
    {o : Option LogWriter} :
    SharedInv sz ⟨s0.big, file', s', o, s0.log ++ fs, g'⟩ := by
  have hhdr := hd.spill hcm
  have hle := h.last.le
  have hgen' : 0 < s0.shm.hdr.mxFrame → g' = s0.gen := fun h0 => hgen (by omega)
  constructor
  · dsimp only
    rw [hhdr]
    exact h.last.spill hspill
  · dsimp only
    rw [hhdr, sizeAfter_append hle]
    exact h.nPage
  · dsimp only
    rw [hhdr]
    exact fun h0 => (h.bigEnd h0).trans (congrArg Gen.bigEnd (hgen' h0).symm)
  · dsimp only
    rw [hhdr]
    exact fun h0 => (h.aSalt h0).trans (congrArg Gen.salt (hgen' h0).symm)
  · dsimp only
    rw [hhdr, List.take_append_of_le_length hle]
    intro h0
    rw [hgen' h0]
    exact h.cksum h0
  · dsimp only
    rw [hhdr]
    exact h.szPage
  · dsimp only
    rw [hhdr]
    exact h.salt
  · dsimp only
    rw [hhdr]
    exact hd.tail _ _ h.tail (fun _ => hcm)

/-- The marks of the writer stay in force while the transaction goes on. -/
theorem CallDone.writerInv {s0 : LogState} {lw0 : LogWriter} (h : LogWriterInv sz s0 lw0)
    (hd : CallDone s0.file g' sz s0.log fs c lw0.w s0.shm w' s' file')
    (hgen : 0 < s0.log.length → g' = s0.gen) :
    LogWriterInv sz ⟨s0.big, file', s', some ⟨w', false, if c.isCommit then [] else lw0.marks⟩,
      s0.log ++ fs, g'⟩ ⟨w', false, if c.isCommit then [] else lw0.marks⟩ := by
  have hlen : (s0.log ++ fs).length = w'.hdr.mxFrame := by
    rw [List.length_append, hd.mxFrame]
  refine ⟨hlen.symm, ?_, fun _ => hd.continues, ?_, ?_, ?_, ?_⟩
  · dsimp only
    rw [hd.nCkpt]
    exact h.nCkpt
  · dsimp only
    rw [hd.continues.salt]
    exact hd.gen.salt
  · dsimp only
    rw [hd.continues.salt]
    exact hd.holds.tail
  · cases hcm : c.isCommit with
    | true => exact fun a ha => absurd ha List.not_mem_nil
    | false =>
      intro a ha
      obtain ⟨h1, h2⟩ := h.marks a ha
      refine ⟨fun hn => ?_, fun hn => ?_⟩
      · dsimp only at hn ⊢
        rw [hd.nCkpt] at hn
        obtain ⟨h3, h4, h5⟩ := h1 hn
        rw [hd.spill hcm, List.length_append, List.take_append_of_le_length h4]
        refine ⟨h3, Nat.le_add_right_of_le h4, fun h0 => ?_⟩
        rw [hgen (by omega)]
        exact h5 h0
      · dsimp only at hn ⊢
        rw [hd.nCkpt] at hn
        rw [hd.spill hcm]
        exact ⟨(h2 hn).1, rfl⟩
  · cases hcm : c.isCommit with
    | true => exact List.Pairwise.nil
    | false =>
      simp only [Bool.false_eq_true, if_false, hd.nCkpt]
      exact h.sorted

theorem LogInv.frames (h : LogInv sz s) (hw : s.writer = some lw) (hc : CallOk c sz)
    {restart : Option ℕ} (hr : ∀ salt1, restart = some salt1 → RestartOk sz s lw salt1)
    (hsalt : (restarted s lw restart).1.nCkpt = 0 → FreshSalt s.file sz c.salt) :
    LogInv sz (s.frames lw c restart) := by
  obtain ⟨hcore, hholds⟩ := h.callStart hw hr
  have hwi := hcore.writer _ rfl
  have hgen : 0 < (s.callStart lw restart).log.length →
      callGen s.big c (restarted s lw restart).1 s.gen = s.gen := by
    intro h0
    have := hwi.mxFrame
    unfold callGen
    rw [if_neg]
    intro hz
    dsimp only at this
    omega
  have hready : CallReady s.file s.gen sz (s.callStart lw restart).log s.big c
      (restarted s lw restart).1 (restarted s lw restart).2.wi := by
    refine ⟨hc, hwi.mxFrame, hwi.nCkpt, hcore.gen, fun h0 => ⟨hholds h0, hwi.continues h0⟩,
      fun h0 => ?_, hcore.covers, hcore.pages⟩
    unfold callGen
    rw [if_pos (hwi.mxFrame.trans h0)]
    by_cases hn : (restarted s lw restart).1.nCkpt = 0
    · rw [if_pos hn]
      exact ⟨(hsalt hn).1, (hsalt hn).noCommit 0⟩
    · rw [if_neg hn]
      have htail := hwi.tail
      rw [h0] at htail
      exact ⟨hwi.salt, htail⟩
  obtain ⟨w', s', file', heq, hd⟩ := sqlite3WalFrames_spec (s := (restarted s lw restart).2) hready
  have hstate : s.frames lw c restart =
      ⟨s.big, file', s', some ⟨w', false, if c.isCommit then [] else lw.marks⟩,
        (s.callStart lw restart).log ++
          callFrames (restarted s lw restart).1 c (s.callStart lw restart).log.length,
        callGen s.big c (restarted s lw restart).1 s.gen⟩ := by
    unfold LogState.frames
    simp only [heq]
    rfl
  rw [hstate]
  refine ⟨⟨hd.gen, ?_, hd.pages, ?_, ?_⟩, hd.holds⟩
  · dsimp only
    rw [List.length_append]
    exact hd.covers
  · cases hcm : c.isCommit with
    | true =>
      have hlast := callFrames_commit hc hcm (restarted s lw restart).1
        (s.callStart lw restart).log.length
      exact CallDone.sharedCommit (s.callStart lw restart) hd hcm hlast (hc.commit.mp hcm)
    | false =>
      exact CallDone.sharedSpill hcore.shared hd hcm (callFrames_spill hc hcm _ _) hgen
  · intro lw' hlw'
    obtain rfl := Option.some.inj hlw'
    exact hd.writerInv hwi hgen

end Call

section Crash

/-- The frames of a log that lie wholly inside the first `n` bytes of its file. -/
def wholeFrames (sz n : ℕ) (log : List WalFrame) : List WalFrame :=
  log.take ((n - 32) / (sz + 24))

theorem LogInv.recovered (hsz : PageSize sz) (h : LogInv sz s) (n : ℕ) (big : Bool) (w : Wal)
    (shm : Shm) : ∃ w' shm', walIndexRecover big (s.file.truncate n) w shm = (Rc.ok, w', shm') ∧
      Recovered (s.file.truncate n) s.gen sz (wholeFrames sz n s.log) w' shm' :=
  walIndexRecover_spec hsz h.gen (h.holds.truncate n) big w shm

theorem LogInv.crash (hsz : PageSize sz) (h : LogInv sz s) (n : ℕ) (big : Bool) (w : Wal)
    (shm : Shm) : LogInv sz (s.crash n big w shm) := by
  obtain ⟨w', shm', heq, hrec⟩ := h.recovered hsz n big w shm
  have hhold := h.holds.truncate n
  obtain ⟨hlast, hnp, hck, hsp⟩ := hrec.committed
  have hm : w'.hdr.mxFrame ≤ (n - 32) / (sz + 24) := by
    have := hlast.le
    rw [wholeFrames, List.length_take] at this
    omega
  have htake : (wholeFrames sz n s.log).take w'.hdr.mxFrame = s.log.take w'.hdr.mxFrame := by
    rw [wholeFrames, List.take_take, Nat.min_eq_left hm]
  have hstate : s.crash n big w shm =
      ⟨big, s.file.truncate n, shm', none, s.log.take w'.hdr.mxFrame, s.gen⟩ := by
    unfold LogState.crash
    simp only [heq]
  rw [hstate, ← htake]
  have hcut : HoldsLog (s.file.truncate n) s.gen sz
      ((wholeFrames sz n s.log).take w'.hdr.mxFrame) :=
    hhold.cutBack (fun i f hi hf => hlast.later i f hi hf)
  refine ⟨⟨h.gen, hrec.covers.take _, pages_take hrec.pages (SameBelow.refl _ _), ?_,
    fun _ hn => nomatch hn⟩, hcut⟩
  have hhdr := hrec.hdr
  -- with a frame recovered, the header of the log was in the file
  have hsame : 0 < w'.hdr.mxFrame → w'.hdr.bigEndCksum = s.gen.bigEnd ∧
      w'.hdr.aSalt = s.gen.salt := by
    intro h0
    rcases hrec.same with ⟨-, -, -, h1, h2⟩ | ⟨h1, -⟩
    · exact ⟨h1, h2⟩
    · have h2 := hhold.fits
      have h3 := hlast.le
      rw [Nat.sub_eq_zero_of_le h1, Nat.zero_div] at h2
      exact absurd h0 (Nat.not_lt.mpr (Nat.le_trans h3 h2))
  constructor
  · dsimp only
    rw [hhdr]
    exact hlast.take (Nat.le_refl _)
  · dsimp only
    rw [hhdr, sizeAfter_take (Nat.le_refl _)]
    exact fun _ => hnp
  · dsimp only
    rw [hhdr]
    exact fun h0 => (hsame h0).1
  · dsimp only
    rw [hhdr]
    exact fun h0 => (hsame h0).2
  · dsimp only
    rw [hhdr, List.take_take, Nat.min_self]
    intro h0
    rw [hck, cksumAfter, if_neg (Nat.ne_of_gt h0)]
  · dsimp only
    rw [hhdr]
    exact hsp
  · dsimp only
    rw [hhdr]
    rcases hrec.same with ⟨-, -, -, -, h1⟩ | ⟨-, h1⟩
    · rw [h1]
      exact h.gen.salt
    · rw [h1]
      exact ⟨by decide, by decide⟩
  · dsimp only
    rw [hhdr]
    rcases hrec.same with ⟨-, -, -, -, h1⟩ | ⟨h1, -⟩
    · rw [h1]
      have htail := hcut.tail
      rw [List.length_take_of_le hlast.le] at htail
      exact htail
    · exact NoCommit.of_small h1

end Crash

theorem LogInv.step (hsz : PageSize sz) (h : LogInv sz s) {s' : LogState} (hs : LogStep sz s s') :
    LogInv sz s' := by
  cases hs with
  | beginWrite w b hn hhdr hs hk => exact h.beginWrite hsz hhdr hs hk
  | frames c restart hw hc hr hsalt => exact h.frames hw hc hr hsalt
  | savepoint hw => exact h.savepoint hw
  | savepointUndo k a hw ha => exact h.savepointUndo hw ha
  | undo hw => exact h.undo hw
  | release => exact h.release
  | crash n big w shm => exact h.crash hsz n big w shm

theorem LogReachable.inv (hsz : PageSize sz) (h : LogReachable sz s) : LogInv sz s := by
  induction h with
  | start big info wi =>
    refine ⟨⟨⟨Nat.succ_pos _, Nat.succ_pos _, Nat.succ_pos _⟩, covers_zero _, fun j f hj => (nomatch hj), ?_,
      fun _ hn => nomatch hn⟩, ?_⟩
    · have h0 : ∀ {P : Prop}, 0 < (0 : ℕ) → P := fun h => absurd h (Nat.lt_irrefl 0)
      exact ⟨⟨Nat.le_refl 0, h0, fun i f _ hf => nomatch hf⟩, h0, h0, h0, h0, h0,
        ⟨Nat.succ_pos _, Nat.succ_pos _⟩, NoCommit.of_small (Nat.zero_le 32)⟩
    · exact ⟨fun h => absurd h (Nat.not_lt_zero 32), fun i hi => absurd hi (Nat.not_lt_zero i),
        fun f hf => absurd hf List.not_mem_nil, NoCommit.of_small (Nat.zero_le 32)⟩
  | step _ hs ih => exact ih.step hsz hs

/-- However the file of a reachable state is cut off, recovery by any machine over any content of
the shared memory succeeds. It finds the last commit among the frames that lie wholly inside the
file, the database size and the running checksum there and the pages of all those frames, every
one of which is valid. The state after it is reachable again, so that this holds for the
transactions appended from then on. -/
theorem wal_recover_sound (hsz : PageSize sz) (h : LogReachable sz s) (n : ℕ) (big : Bool)
    (w : Wal) (shm : Shm) :
    LogReachable sz (s.crash n big w shm) ∧
    ∃ w' shm', walIndexRecover big (s.file.truncate n) w shm = (Rc.ok, w', shm') ∧
      shm'.hdr = w'.hdr ∧
      IsLastCommit (wholeFrames sz n s.log) w'.hdr.mxFrame ∧
      w'.hdr.nPage = sizeAfter s.log w'.hdr.mxFrame ∧
      w'.hdr.aFrameCksum = cksumAfter s.gen sz s.log w'.hdr.mxFrame ∧
      (0 < w'.hdr.mxFrame → decodePageSize w'.hdr.szPage = sz) ∧
      (∀ j f, (wholeFrames sz n s.log)[j]? = some f → walFramePgno shm'.wi (j + 1) = f.pgno) ∧
      ∀ j f, (wholeFrames sz n s.log)[j]? = some f →
        ∀ v, Continues v s.gen sz (runningCksum s.gen sz (s.log.take j)) →
        (walDecodeFrame big v ((s.file.truncate n).read (walFrameOffset (j + 1) sz + 24))
          ((s.file.truncate n).read (walFrameOffset (j + 1) sz))).1 =
            some (f.pgno, f.nTruncate) := by
  have hinv := h.inv hsz
  refine ⟨h.step (LogStep.crash n big w shm), ?_⟩
  obtain ⟨w', shm', heq, hrec⟩ := hinv.recovered hsz n big w shm
  obtain ⟨hlast, hnp, hck, hsp⟩ := hrec.committed
  have hm : w'.hdr.mxFrame ≤ (n - 32) / (sz + 24) := by
    have := hlast.le
    rw [wholeFrames, List.length_take] at this
    omega
  refine ⟨w', shm', heq, hrec.hdr, hlast, ?_, ?_, fun h0 => ?_, hrec.pages, fun j f hj v hv => ?_⟩
  · rw [hnp, wholeFrames, sizeAfter_take hm]
  · rw [hck, wholeFrames, cksumAfter_take hm]
  · rw [hsp h0, hsz.code]
  · have hhold := hinv.holds.truncate n
    obtain ⟨hlt, rfl⟩ := List.getElem?_eq_some_iff.mp hj
    have hst := hhold.frames j hlt
    have hjk : j ≤ (n - 32) / (sz + 24) := by
      rw [wholeFrames, List.length_take] at hlt
      omega
    rw [List.take_take, Nat.min_eq_left hjk] at hst
    rw [walDecodeFrame_image hv big hinv.gen.salt (runningCksum_lt _ _ _)
      (hhold.wf _ (List.getElem_mem hlt))
      (fun x hx => by rw [hst.read (by omega), frameImage, if_pos hx]; rfl)
      (fun x hx => by
        have h1 := hst.read (x := 24 + x) (by omega)
        rw [frameImage, if_neg (by omega), Nat.add_sub_cancel_left] at h1
        exact (congrArg (s.file.truncate n).byte (Nat.add_assoc _ 24 x)).trans h1)]

/-- One committed frame of 512 bytes, the file cut off right behind it and one byte before. -/
theorem wal_recover_sound_frame :
    ∃ (s : LogState) (w : Wal), LogReachable 512 s ∧
      (∃ w' shm', walIndexRecover false (s.file.truncate 568) w s.shm = (Rc.ok, w', shm') ∧
        w'.hdr.mxFrame = 1 ∧ w'.hdr.nPage = 3) ∧
      ∃ w' shm', walIndexRecover false (s.file.truncate 567) w s.shm = (Rc.ok, w', shm') ∧
        w'.hdr.mxFrame = 0 := by
  let w0 : Wal := ⟨{}, 0, 1, false, true, -1⟩
  let c : FramesCall := ⟨512, [(1, fun _ => 7)], 3, true, false, 512, (5, 6)⟩
  have hsz : PageSize 512 := ⟨9, by decide, by decide, rfl⟩
  have hc : CallOk c 512 := by
    refine ⟨rfl, List.cons_ne_nil _ _, fun p hp => ?_, by decide, by decide⟩
    rw [List.mem_singleton.mp hp]
    exact ⟨Nat.succ_pos 0, by decide⟩
  have h0 : LogReachable 512 _ :=
    LogReachable.start true ⟨0, fun _ => 0⟩ (fun _ => ⟨fun _ => 0, fun _ => 0⟩)
  have h1 := h0.step (LogStep.beginWrite w0 false rfl rfl rfl (by decide))
  have h2 := h1.step (LogStep.frames c none rfl hc nofun nofun)
  have hkey : ∀ (s : LogState) (f : WalFrame), LogReachable 512 s → s.log = [f] →
      f.nTruncate = 3 →
      (∃ w' shm', walIndexRecover false (s.file.truncate 568) w0 s.shm = (Rc.ok, w', shm') ∧
        w'.hdr.mxFrame = 1 ∧ w'.hdr.nPage = 3) ∧
      ∃ w' shm', walIndexRecover false (s.file.truncate 567) w0 s.shm = (Rc.ok, w', shm') ∧
        w'.hdr.mxFrame = 0 := by
    intro s f hs hlog hf
    obtain ⟨w1, shm1, h3, -, h4, h5, -⟩ := (wal_recover_sound hsz hs 568 false w0 s.shm).2
    obtain ⟨w2, shm2, h6, -, h7, -⟩ := (wal_recover_sound hsz hs 567 false w0 s.shm).2
    rw [hlog] at h4 h5 h7
    have hm : w1.hdr.mxFrame = 1 := by
      have hle : w1.hdr.mxFrame ≤ 1 := h4.le
      by_contra hne
      have := h4.later 0 f (by omega) rfl
      omega
    refine ⟨⟨w1, shm1, h3, hm, ?_⟩, w2, shm2, h6, Nat.le_zero.mp h7.le⟩
    rw [h5, hm]
    exact hf
  exact ⟨_, w0, h2, hkey _ _ h2 rfl rfl⟩

end Sqlite.Wal

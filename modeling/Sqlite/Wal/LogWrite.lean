import Sqlite.Wal.LogRecover

/-! Writing to the log: a call of `sqlite3WalFrames` adds its frames to the log that the file
holds, and cutting a log back leaves no commit behind its end. -/
namespace Sqlite.Wal

open Foundation

variable {file : File} {g : Gen} {sz : ℕ} {log fs : List WalFrame} {f : WalFrame} {w : Wal}
  {big : Bool} {salt : ℕ × ℕ} {m n : ℕ}

section Tail

theorem slot_congr {file' : File} {i : ℕ}
    (h : ∀ x < sz + 24, file'.byte (walFrameOffset (i + 1) sz + x) =
      file.byte (walFrameOffset (i + 1) sz + x)) {a : ℕ} (ha : a ≤ 20) :
    getBE (file'.read (walFrameOffset (i + 1) sz)) a =
      getBE (file.read (walFrameOffset (i + 1) sz)) a :=
  getBE_congr (fun x _ h2 => h x (by omega))

/-- A change that keeps the whole frames from slot `n` on brings no commit about. -/
theorem NoCommit.mono {file' : File} (h : NoCommit file sz n salt)
    (hs : ∀ i, n ≤ i → walFrameOffset (i + 1) sz + (sz + 24) ≤ file'.size →
      walFrameOffset (i + 1) sz + (sz + 24) ≤ file.size ∧
      ∀ x < sz + 24, file'.byte (walFrameOffset (i + 1) sz + x) =
        file.byte (walFrameOffset (i + 1) sz + x)) :
    NoCommit file' sz n salt := by
  intro i hi hfit h8 h12
  obtain ⟨h1, h2⟩ := hs i hi hfit
  rw [slot_congr h2 (by omega)] at h8 h12 ⊢
  exact h i hi h1 h8 h12

theorem NoCommit.truncate (h : NoCommit file sz m salt) (n : ℕ) :
    NoCommit (file.truncate n) sz m salt :=
  h.mono (fun _ _ hfit => ⟨Nat.le_trans hfit (Nat.min_le_left _ _), fun _ _ => rfl⟩)

theorem NoCommit.of_small (hsize : file.size ≤ 32) : NoCommit file sz n salt := by
  intro i _ hfit
  rw [walFrameOffset_succ] at hfit
  omega

theorem NoCommit.writeHeader (h : NoCommit file sz m salt) (data : ℕ → UInt8) :
    NoCommit (file.write 0 WAL_HDRSIZE data) sz m salt := by
  refine h.mono (fun i _ hfit => ?_)
  have h32 : WAL_HDRSIZE = 32 := rfl
  rw [File.size_write] at hfit
  rw [walFrameOffset_succ] at hfit ⊢
  have h1 : 32 + i * (sz + 24) + (sz + 24) ≤ file.size := by omega
  exact ⟨h1, fun x hx => File.byte_write_of_outside (by omega) (by omega)⟩

end Tail

section CutBack

/-- The log may be cut back to any point after its last commit. -/
theorem HoldsLog.cutBack (h : HoldsLog file g sz log)
    (hspill : ∀ i f, m ≤ i → log[i]? = some f → f.nTruncate = 0) :
    HoldsLog file g sz (log.take m) where
  hdr := h.hdr
  frames i hi := by
    rw [List.length_take] at hi
    rw [List.getElem_take, List.take_take, Nat.min_eq_left (by omega)]
    exact h.frames i (by omega)
  wf f hf := h.wf f (List.mem_of_mem_take hf)
  tail i hi hfit h8 h12 := by
    rw [List.length_take] at hi
    by_cases hlog : i < log.length
    · have hst := h.frames i hlog
      have hword : getBE (file.read (walFrameOffset (i + 1) sz)) 4 = log[i].nTruncate := by
        have hck := runningCksum_lt g sz (log.take i)
        have hwf := h.wf _ (List.getElem_mem hlog)
        have h1 : getBE (file.read (walFrameOffset (i + 1) sz)) 4 =
            getBE (frameHead0 g log[i]) 4 := by
          apply getBE_congr
          intro x _ h3
          rw [hst.read (by omega), frameImage, if_pos (by omega), frameHead,
            putBE_of_outside (by omega), putBE_of_outside (by omega)]
        rw [h1, frameHead0, getBE_putBE_of_ne (by omega), getBE_putBE_of_ne (by omega)]
        exact getBE_putBE_self hwf.nTruncate_lt
      rw [hword]
      exact hspill i log[i] (by omega) (List.getElem?_eq_getElem hlog)
    · exact h.tail i (Nat.not_lt.mp hlog) hfit h8 h12

end CutBack

section WriteFrame

/-- The end of the last frame lies in the file. -/
theorem HoldsLog.end_le (h : HoldsLog file g sz log) (hst : file.Stores 0 32 (logHeader g sz)) :
    walFrameOffset (log.length + 1) sz ≤ file.size := by
  cases hlen : log.length with
  | zero =>
    rw [walFrameOffset_succ]
    have := hst.1
    omega
  | succ n =>
    rw [walFrameOffset_next]
    exact (h.frames n (by omega)).1

/-- Writing frame number `n + 1` keeps the frames in all other slots. -/
theorem writeOneFrame_slot (hn : walFrameOffset (n + 1) sz ≤ file.size) {i : ℕ} (hi : i ≠ n)
    (head data : ℕ → UInt8) {file' : File}
    (hf : file' = (file.write (walFrameOffset (n + 1) sz) 24 head).write
      (walFrameOffset (n + 1) sz + 24) sz data)
    (hfit : walFrameOffset (i + 1) sz + (sz + 24) ≤ file'.size) :
    walFrameOffset (i + 1) sz + (sz + 24) ≤ file.size ∧
      ∀ x < sz + 24, file'.byte (walFrameOffset (i + 1) sz + x) =
        file.byte (walFrameOffset (i + 1) sz + x) := by
  subst hf
  rw [File.size_write, File.size_write] at hfit
  have hfit' : walFrameOffset (i + 1) sz + (sz + 24) ≤ file.size ∧
      (walFrameOffset (i + 1) sz + (sz + 24) ≤ walFrameOffset (n + 1) sz ∨
        walFrameOffset (n + 1) sz + (sz + 24) ≤ walFrameOffset (i + 1) sz) := by
    rcases Nat.lt_or_gt_of_ne hi with h | h
    · have := walFrameOffset_lt sz h
      omega
    · have := walFrameOffset_lt sz h
      omega
  obtain ⟨h1, h2⟩ := hfit'
  refine ⟨h1, fun x hx => ?_⟩
  rw [File.byte_write_of_outside (by omega) (by rw [File.size_write]; omega),
    File.byte_write_of_outside (by omega) (by omega)]

/-- A frame written behind the log becomes its next frame. -/
theorem HoldsLog.writeFrame (h : HoldsLog file g sz log)
    (hst : file.Stores 0 32 (logHeader g sz)) (hf : f.WF)
    (hw : Continues w g sz (runningCksum g sz log)) (big : Bool) :
    ∃ file', walWriteOneFrame big sz w file f (walFrameOffset (log.length + 1) sz) =
        ({ w with hdr := { w.hdr with aFrameCksum := runningCksum g sz (log ++ [f]) } }, file') ∧
      HoldsLog file' g sz (log ++ [f]) ∧ file'.Stores 0 32 (logHeader g sz) ∧
      ∀ m salt, NoCommit file sz m salt → (m ≤ log.length → f.nTruncate = 0) →
        NoCommit file' sz m salt := by
  unfold walWriteOneFrame
  rw [show WAL_FRAME_HDRSIZE = 24 from rfl, walEncodeFrame_eq hw big f, runningCksum_append]
  generalize hck : runningCksum g sz log = ck at hw
  have hend := h.end_le hst
  have h32 : 32 ≤ walFrameOffset (log.length + 1) sz := by
    rw [walFrameOffset_succ]
    omega
  have hslot := fun (i : ℕ) (hi : i ≠ log.length) =>
    writeOneFrame_slot hend hi (frameHead g sz ck f) f.data rfl
  -- the new frame itself
  have hnew : ((file.write (walFrameOffset (log.length + 1) sz) 24 (frameHead g sz ck f)).write
      (walFrameOffset (log.length + 1) sz + 24) sz f.data).Stores
        (walFrameOffset (log.length + 1) sz) (sz + 24) (frameImage g sz ck f) := by
    have h1 : ((file.write (walFrameOffset (log.length + 1) sz) 24 (frameHead g sz ck f)).write
        (walFrameOffset (log.length + 1) sz + 24) sz f.data).Stores
          (walFrameOffset (log.length + 1) sz) 24 (frameHead g sz ck f) :=
      (File.stores_write file (walFrameOffset (log.length + 1) sz) 24
        (frameHead g sz ck f)).write (Or.inl (Nat.le_refl _))
    have h2 := h1.append (File.stores_write _ (walFrameOffset (log.length + 1) sz + 24) sz f.data)
    rw [Nat.add_comm 24 sz] at h2
    exact h2.congr (fun x _ => rfl)
  refine ⟨_, rfl, ⟨?_, ?_, ?_, ?_⟩, ?_, ?_⟩
  · intro _ x hx
    rw [File.byte_write_of_outside (by omega)
        (by rw [File.size_write]; have := hst.1; omega),
      File.byte_write_of_outside (by omega) (by have := hst.1; omega)]
    have := hst.2 x hx
    rwa [Nat.zero_add] at this
  · intro i hi
    rw [List.length_append, List.length_singleton] at hi
    by_cases hlt : i < log.length
    · have h1 := h.frames i hlt
      rw [List.getElem_append_left hlt, List.take_append_of_le_length (Nat.le_of_lt hlt)]
      have h2 := walFrameOffset_lt sz hlt
      exact (h1.write (Or.inl h2)).write (Or.inl (by omega))
    · obtain rfl : i = log.length := by omega
      rw [List.getElem_concat_length rfl, List.take_left, hck]
      exact hnew
  · intro f' hf'
    rcases List.mem_append.mp hf' with hf' | hf'
    · exact h.wf f' hf'
    · rw [List.mem_singleton.mp hf']
      exact hf
  · rw [List.length_append, List.length_singleton]
    have ht : NoCommit file sz (log.length + 1) g.salt :=
      fun i hi => h.tail i (Nat.le_of_succ_le hi)
    exact ht.mono (fun i hi => hslot i (by omega))
  · exact (hst.write (Or.inl (by omega))).write (Or.inl (by omega))
  · intro m salt hm hspill i hi hfit h8 h12
    by_cases hil : i = log.length
    · subst hil
      have h1 : getBE (File.read _ (walFrameOffset (log.length + 1) sz)) 4 =
          getBE (frameHead g sz ck f) 4 :=
        getBE_congr (fun x _ h3 => by
          rw [hnew.read (by omega), frameImage, if_pos (by omega)])
      rw [h1, frameHead, frameHead0, getBE_putBE_of_ne (by omega), getBE_putBE_of_ne (by omega),
        getBE_putBE_of_ne (by omega), getBE_putBE_of_ne (by omega), getBE_putBE_self hf.nTruncate_lt]
      exact hspill hi
    · obtain ⟨h1, h2⟩ := hslot i hil hfit
      rw [slot_congr h2 (by omega)] at h8 h12 ⊢
      exact hm i hi h1 h8 h12

theorem HoldsLog.writeFrames (big : Bool) (fs : List WalFrame) :
    ∀ {file : File} {log : List WalFrame} {w : Wal}, HoldsLog file g sz log →
      file.Stores 0 32 (logHeader g sz) → (∀ f ∈ fs, f.WF) →
      Continues w g sz (runningCksum g sz log) →
      ∃ file', writeFrames big sz fs log.length w file =
          ({ w with hdr := { w.hdr with aFrameCksum := runningCksum g sz (log ++ fs) } }, file') ∧
        HoldsLog file' g sz (log ++ fs) ∧ file'.Stores 0 32 (logHeader g sz) ∧
        ∀ m salt, NoCommit file sz m salt →
          (m < log.length + fs.length → ∀ f ∈ fs, f.nTruncate = 0) →
          NoCommit file' sz m salt := by
  induction fs with
  | nil =>
    intro file log w h hst _ hw
    rw [List.append_nil]
    refine ⟨file, ?_, h, hst, fun m salt hm _ => hm⟩
    rw [Wal.writeFrames, ← hw.cksum]
  | cons f fs ih =>
    intro file log w h hst hwf hw
    obtain ⟨file1, he, h1, hst1, htail1⟩ := h.writeFrame hst (hwf f (by simp)) hw big
    obtain ⟨file2, he2, h2, hst2, htail2⟩ :=
      ih (w := { w with hdr := { w.hdr with aFrameCksum := runningCksum g sz (log ++ [f]) } })
        h1 hst1 (fun f' hf' => hwf f' (by simp [hf'])) ⟨hw.szPage, hw.bigEnd, hw.salt, rfl⟩
    rw [List.append_assoc, List.singleton_append] at he2 h2
    rw [List.length_append, List.length_singleton] at he2 htail2
    refine ⟨file2, ?_, h2, hst2, fun m salt hm hspill => ?_⟩
    · rw [Wal.writeFrames, he]
      exact he2
    · rw [List.length_cons] at hspill
      refine htail2 m salt (htail1 m salt hm (fun hle => ?_)) (fun hlt f' hf' => ?_)
      · exact hspill (by omega) f (by simp)
      · exact hspill (by omega) f' (by simp [hf'])

/-- The limit on the file size leaves the log alone. -/
theorem HoldsLog.limitSize (h : HoldsLog file g sz log)
    (hn : walFrameOffset (log.length + 1) sz ≤ n) : HoldsLog (walLimitSize file n) g sz log := by
  unfold walLimitSize
  split
  · have h1 := h.truncate n
    rw [List.take_of_length_le] at h1
    · exact h1
    · rw [walFrameOffset_succ] at hn
      rw [Nat.le_div_iff_mul_le (by omega)]
      omega
  · exact h

theorem NoCommit.limitSize (h : NoCommit file sz m salt) : NoCommit (walLimitSize file n) sz m salt := by
  unfold walLimitSize
  split
  · exact h.truncate n
  · exact h

end WriteFrame

section Header

/-- A fresh header starts an empty log. -/
theorem holdsLog_header {data : ℕ → UInt8} (hd : data = logHeader g sz)
    (htail : NoCommit file sz 0 g.salt) :
    HoldsLog (file.write 0 WAL_HDRSIZE data) g sz [] ∧
      (file.write 0 WAL_HDRSIZE data).Stores 0 32 (logHeader g sz) := by
  subst hd
  have hst := File.stores_write file 0 WAL_HDRSIZE (logHeader g sz)
  refine ⟨⟨fun _ x hx => ?_, fun i hi => absurd hi (Nat.not_lt_zero i), fun f hf => ?_, ?_⟩, hst⟩
  · have := hst.2 x hx
    rwa [Nat.zero_add] at this
  · exact absurd hf List.not_mem_nil
  · exact htail.writeHeader _

end Header

section Frames
variable {c : FramesCall}

/-- All frames of a call but those of a commit have no truncation size. -/
theorem frameList_spill (t : ℕ) (l : List (ℕ × (ℕ → UInt8))) :
    ∀ f ∈ frameList t false l, f.nTruncate = 0 := by
  induction l with
  | nil => exact fun f hf => absurd hf List.not_mem_nil
  | cons p l ih =>
    cases l with
    | nil =>
      intro f hf
      rw [List.mem_singleton.mp hf]
      rfl
    | cons q r =>
      intro f hf
      rcases List.mem_cons.mp hf with rfl | hf
      · rfl
      · exact ih f hf

theorem frameList_wf {t : ℕ} (b : Bool) (ht : t < 4294967296) (l : List (ℕ × (ℕ → UInt8)))
    (hl : ∀ p ∈ l, 0 < p.1 ∧ p.1 < 4294967296) : ∀ f ∈ frameList t b l, f.WF := by
  induction l with
  | nil => exact fun f hf => absurd hf List.not_mem_nil
  | cons p l ih =>
    obtain ⟨h1, h2⟩ := hl p (by simp)
    cases l with
    | nil =>
      intro f hf
      rw [List.mem_singleton.mp hf]
      refine ⟨h1, h2, ?_⟩
      cases b
      · exact Nat.succ_pos _
      · exact ht
    | cons q r =>
      intro f hf
      rcases List.mem_cons.mp hf with rfl | hf
      · exact ⟨h1, h2, Nat.succ_pos _⟩
      · exact ih (fun p' hp' => hl p' (List.mem_cons_of_mem _ hp')) f hf

theorem frameList_last (t : ℕ) (b : Bool) (l : List (ℕ × (ℕ → UInt8))) (hl : l ≠ []) :
    ∃ f, (frameList t b l).getLast? = some f ∧ f.nTruncate = if b then t else 0 := by
  induction l with
  | nil => exact absurd rfl hl
  | cons p l ih =>
    cases l with
    | nil => exact ⟨_, rfl, rfl⟩
    | cons q r =>
      obtain ⟨f, h1, h2⟩ := ih (List.cons_ne_nil q r)
      refine ⟨f, ?_, h2⟩
      rw [frameList, List.getLast?_cons, h1]
      rfl

/-- The frames of a call. -/
structure CallOk (c : FramesCall) (sz : ℕ) : Prop where
  szPage : c.szPage = sz
  pages : c.pList ≠ []
  pgno : ∀ p ∈ c.pList, 0 < p.1 ∧ p.1 < 4294967296
  nTruncate : c.nTruncate < 4294967296
  commit : c.isCommit = true ↔ c.nTruncate ≠ 0

theorem callFrames_eq (hc : CallOk c sz) (w : Wal) (i : ℕ) :
    ∃ f n, (frameList c.nTruncate c.isCommit c.pList).getLast? = some f ∧
      f.nTruncate = (if c.isCommit then c.nTruncate else 0) ∧ (c.isCommit = false → n = 0) ∧
      callFrames w c i = frameList c.nTruncate c.isCommit c.pList ++
        List.replicate n { f with nTruncate := c.nTruncate } := by
  obtain ⟨f, h1, h2⟩ := frameList_last c.nTruncate c.isCommit c.pList hc.pages
  unfold callFrames
  simp only [h1]
  refine ⟨f, _, rfl, h2, ?_, rfl⟩
  intro hcm
  unfold nExtra
  rw [hcm]
  rfl

theorem callFrames_wf (hc : CallOk c sz) (w : Wal) (i : ℕ) : ∀ f ∈ callFrames w c i, f.WF := by
  obtain ⟨f, n, h1, -, -, h3⟩ := callFrames_eq hc w i
  have hwf := frameList_wf c.isCommit hc.nTruncate c.pList hc.pgno
  intro f' hf'
  rw [h3] at hf'
  rcases List.mem_append.mp hf' with hf' | hf'
  · exact hwf f' hf'
  · have h4 := hwf f (List.mem_of_getLast? h1)
    rw [List.eq_of_mem_replicate hf']
    exact ⟨h4.pgno_pos, h4.pgno_lt, hc.nTruncate⟩

theorem callFrames_spill (hc : CallOk c sz) (h : c.isCommit = false) (w : Wal) (i : ℕ) :
    ∀ f ∈ callFrames w c i, f.nTruncate = 0 := by
  obtain ⟨f, n, -, -, h2, h3⟩ := callFrames_eq hc w i
  rw [h3, h2 h, List.replicate_zero, List.append_nil, h]
  exact frameList_spill _ _

/-- The last frame of a committing call is a commit frame. -/
theorem callFrames_commit (hc : CallOk c sz) (h : c.isCommit = true) (w : Wal) (i : ℕ) :
    ∃ f, (callFrames w c i).getLast? = some f ∧ f.nTruncate = c.nTruncate := by
  obtain ⟨f, n, h1, h2, -, h3⟩ := callFrames_eq hc w i
  rw [h3]
  cases n with
  | zero =>
    rw [List.replicate_zero, List.append_nil]
    exact ⟨f, h1, by rw [h2, if_pos h]⟩
  | succ n =>
    rw [List.getLast?_append, List.getLast?_replicate, if_neg (Nat.succ_ne_zero n)]
    exact ⟨_, rfl, rfl⟩

end Frames

section Index
/-- The wal-index gets an entry for every frame of a call. -/
theorem appendFrames_spec (mx : ℕ) (fs : List WalFrame) :
    ∀ {wi : WalIndex} {top : ℕ}, Covers wi top →
      (top = mx ∨ BlockGood wi (walFramePage top) (top - iZero (walFramePage top))) →
      (∀ f ∈ fs, f.WF) →
      ∃ wi', appendFrames mx fs top wi = (Rc.ok, wi') ∧ Covers wi' (top + fs.length) ∧
        SameBelow wi wi' top ∧
        ∀ j f, fs[j]? = some f → walFramePgno wi' (top + j + 1) = f.pgno := by
  induction fs with
  | nil => exact fun hc _ _ => ⟨_, rfl, hc, SameBelow.refl _ _, fun j f hj => nomatch hj⟩
  | cons f fs ih =>
    intro wi top hc hx hwf
    obtain ⟨wi1, h1, h2, h3, h4, h5⟩ := walIndexAppend_spec hc hx (hwf f (by simp)).pgno_pos
    obtain ⟨wi2, h6, h7, h8, h9⟩ :=
      ih h2 (Or.inr h3) (fun f' hf' => hwf f' (by simp [hf']))
    refine ⟨wi2, ?_, ?_, ?_, ?_⟩
    · rw [appendFrames]
      simp only [h1]
      exact h6
    · rw [List.length_cons, Nat.add_comm fs.length 1, ← Nat.add_assoc]
      exact h7
    · intro i h10 h11
      rw [h8 i h10 (Nat.le_succ_of_le h11)]
      exact h5 i h10 h11
    · intro j f' hj
      cases j with
      | zero =>
        obtain rfl := Option.some.inj hj
        rw [h8 _ (Nat.succ_pos _) (Nat.le_refl _)]
        exact h4
      | succ j =>
        have h10 := h9 j f' hj
        rwa [Nat.add_right_comm top 1 j] at h10

end Index

end Sqlite.Wal

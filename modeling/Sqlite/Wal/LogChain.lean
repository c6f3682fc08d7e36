import Sqlite.Wal.Log

/-! The chain of checksums through a log, and what a log file that holds a list of frames looks
like byte by byte, for a machine of either byte order. -/
namespace Sqlite.Wal

open Foundation

/-- What the header of a log says about the log. -/
structure Gen where
  bigEnd : Bool
  nCkpt : ℕ
  salt : ℕ × ℕ

/-- Words in the byte order `b`. -/
def checksum (b : Bool) (a : ℕ → UInt8) (nByte : ℕ) (s : ℕ × ℕ) : ℕ × ℕ :=
  walChecksumLoop (loadWord b a) (nByte / 8) 0 s

def WordPair (s : ℕ × ℕ) : Prop := s.1 < 4294967296 ∧ s.2 < 4294967296

structure Gen.WF (g : Gen) : Prop where
  nCkpt : g.nCkpt < 4294967296
  salt : WordPair g.salt

/-- The frame header without its checksum. -/
def frameHead0 (g : Gen) (f : WalFrame) : ℕ → UInt8 :=
  putBE (putBE (putBE (putBE (fun _ => 0) 0 f.pgno) 4 f.nTruncate) 8 g.salt.1) 12 g.salt.2

def nextCksum (g : Gen) (sz : ℕ) (ck : ℕ × ℕ) (f : WalFrame) : ℕ × ℕ :=
  checksum g.bigEnd f.data sz (checksum g.bigEnd (frameHead0 g f) 8 ck)

def frameHead (g : Gen) (sz : ℕ) (ck : ℕ × ℕ) (f : WalFrame) : ℕ → UInt8 :=
  putBE (putBE (frameHead0 g f) 16 (nextCksum g sz ck f).1) 20 (nextCksum g sz ck f).2

def frameImage (g : Gen) (sz : ℕ) (ck : ℕ × ℕ) (f : WalFrame) : ℕ → UInt8 :=
  fun x => if x < 24 then frameHead g sz ck f x else f.data (x - 24)

def logHeader (g : Gen) (sz : ℕ) : ℕ → UInt8 := (walLogHeader g.bigEnd sz g.nCkpt g.salt).1

/-- The running checksum after the frames of a log. -/
def runningCksum (g : Gen) (sz : ℕ) (log : List WalFrame) : ℕ × ℕ :=
  log.foldl (nextCksum g sz) (walLogHeader g.bigEnd sz g.nCkpt g.salt).2

structure WalFrame.WF (f : WalFrame) : Prop where
  pgno_pos : 0 < f.pgno
  pgno_lt : f.pgno < 4294967296
  nTruncate_lt : f.nTruncate < 4294967296

/-- No whole frame from slot `n` on is a commit frame with the salt of `g`. -/
def NoCommit (file : File) (sz n : ℕ) (salt : ℕ × ℕ) : Prop :=
  ∀ i, n ≤ i → walFrameOffset (i + 1) sz + (sz + 24) ≤ file.size →
    getBE (file.read (walFrameOffset (i + 1) sz)) 8 = salt.1 →
    getBE (file.read (walFrameOffset (i + 1) sz)) 12 = salt.2 →
    getBE (file.read (walFrameOffset (i + 1) sz)) 4 = 0

/-- The file holds the frames `log`, followed by nothing that recovery could take for a commit. -/
structure HoldsLog (file : File) (g : Gen) (sz : ℕ) (log : List WalFrame) : Prop where
  hdr : 32 < file.size → ∀ x < 32, file.byte x = logHeader g sz x
  frames : ∀ i (h : i < log.length), file.Stores (walFrameOffset (i + 1) sz) (sz + 24)
    (frameImage g sz (runningCksum g sz (log.take i)) log[i])
  wf : ∀ f ∈ log, f.WF
  tail : NoCommit file sz log.length g.salt

/-- A `Wal` continues the log of `g` after a frame with running checksum `ck`. -/
structure Continues (w : Wal) (g : Gen) (sz : ℕ) (ck : ℕ × ℕ) : Prop where
  szPage : w.szPage = sz
  bigEnd : w.hdr.bigEndCksum = g.bigEnd
  salt : w.hdr.aSalt = g.salt
  cksum : w.hdr.aFrameCksum = ck

section Offsets
variable {i j sz : ℕ}

theorem walFrameOffset_succ (i sz : ℕ) : walFrameOffset (i + 1) sz = 32 + i * (sz + 24) := rfl

theorem walFrameOffset_next (i sz : ℕ) :
    walFrameOffset (i + 1 + 1) sz = walFrameOffset (i + 1) sz + (sz + 24) := by
  rw [walFrameOffset_succ, walFrameOffset_succ, Nat.succ_mul]
  omega

theorem walFrameOffset_le (h : i ≤ j) : walFrameOffset (i + 1) sz ≤ walFrameOffset (j + 1) sz := by
  rw [walFrameOffset_succ, walFrameOffset_succ]
  exact Nat.add_le_add_left (Nat.mul_le_mul_right _ h) _

/-- Frames of different slots do not overlap. -/
theorem walFrameOffset_lt (sz : ℕ) (h : i < j) :
    walFrameOffset (i + 1) sz + (sz + 24) ≤ walFrameOffset (j + 1) sz := by
  rw [← walFrameOffset_next]
  exact walFrameOffset_le h

/-- The slots that lie wholly inside a file are counted by the bound of the recovery loop. -/
theorem slot_fits (n : ℕ) :
    walFrameOffset (i + 1) sz + (sz + 24) ≤ n ↔ i < (n - 32) / (sz + 24) := by
  rw [walFrameOffset_succ, Nat.lt_iff_add_one_le, Nat.le_div_iff_mul_le (by omega), Nat.succ_mul]
  omega

end Offsets

section Checksum
variable {big b : Bool} {a a' : ℕ → UInt8} {n : ℕ} {s : ℕ × ℕ}

theorem walChecksumLoop_congr {word word' : ℕ → ℕ} (n i : ℕ) (s : ℕ × ℕ)
    (h : ∀ j, i ≤ j → j + 4 ≤ i + n * 8 → word' j = word j) :
    walChecksumLoop word' n i s = walChecksumLoop word n i s := by
  induction n generalizing i s with
  | zero => rfl
  | succ n ih =>
    obtain ⟨s1, s2⟩ := s
    unfold walChecksumLoop
    rw [h i (Nat.le_refl i) (by omega), h (i + 4) (by omega) (by omega)]
    exact ih _ _ (fun j h1 h2 => h j (by omega) (by omega))

theorem loadWord_congr {j : ℕ} (h : ∀ x, j ≤ x → x < j + 4 → a' x = a x) :
    loadWord b a' j = loadWord b a j := by
  unfold loadWord
  rw [getBE_congr h, getLE_congr h]

/-- The checksum depends on the bytes only. -/
theorem checksum_congr (h : ∀ x < n, a' x = a x) : checksum b a' n s = checksum b a n s := by
  apply walChecksumLoop_congr
  intro j _ h2
  apply loadWord_congr
  intro x _ h4
  exact h x (by omega)

theorem walChecksumLoop_lt {word : ℕ → ℕ} (n i : ℕ) (hs : WordPair s) :
    WordPair (walChecksumLoop word n i s) := by
  induction n generalizing i s with
  | zero => exact hs
  | succ n ih =>
    obtain ⟨s1, s2⟩ := s
    unfold walChecksumLoop
    apply ih
    constructor
    · exact Nat.mod_lt _ (by decide)
    · exact Nat.mod_lt _ (by decide)

theorem checksum_lt (hs : WordPair s) : WordPair (checksum b a n s) := walChecksumLoop_lt _ _ hs

/-- The flag in the header makes every machine read the words in the order of the writer. -/
theorem walChecksumBytes_eq (big b : Bool) (a : ℕ → UInt8) (n : ℕ) (s : ℕ × ℕ) :
    walChecksumBytes big (b == big) a n s = checksum b a n s := by
  apply walChecksumLoop_congr
  intro j _ _
  by_cases h : b = big
  · rw [h, beq_self_eq_true, if_pos rfl]
  · rw [beq_false_of_ne h, if_neg Bool.false_ne_true]
    cases b with
    | false =>
      rw [Bool.eq_true_of_not_eq_false (fun hb => h hb.symm)]
      exact byteSwap32_getBE a j
    | true =>
      rw [Bool.eq_false_of_not_eq_true (fun hb => h hb.symm)]
      exact byteSwap32_getLE a j

end Checksum

section Frames
variable {g : Gen} {sz : ℕ} {ck : ℕ × ℕ} {f : WalFrame} {big : Bool} {w : Wal}

theorem nextCksum_lt (h : WordPair ck) : WordPair (nextCksum g sz ck f) :=
  checksum_lt (checksum_lt h)

theorem walLogHeader_cksum_lt (big : Bool) (sz n : ℕ) (salt : ℕ × ℕ) :
    WordPair (walLogHeader big sz n salt).2 :=
  walChecksumLoop_lt _ _ ⟨by decide, by decide⟩

theorem runningCksum_lt (g : Gen) (sz : ℕ) (log : List WalFrame) :
    WordPair (runningCksum g sz log) := by
  unfold runningCksum
  have h := walLogHeader_cksum_lt g.bigEnd sz g.nCkpt g.salt
  generalize (walLogHeader g.bigEnd sz g.nCkpt g.salt).2 = ck at h
  induction log generalizing ck with
  | nil => exact h
  | cons f log ih => exact ih _ (nextCksum_lt h)

theorem runningCksum_append (log : List WalFrame) (f : WalFrame) :
    runningCksum g sz (log ++ [f]) = nextCksum g sz (runningCksum g sz log) f := by
  unfold runningCksum
  rw [List.foldl_append, List.foldl_cons, List.foldl_nil]

theorem runningCksum_take_succ {log : List WalFrame} {i : ℕ} (h : i < log.length) :
    runningCksum g sz (log.take (i + 1)) =
      nextCksum g sz (runningCksum g sz (log.take i)) log[i] := by
  rw [List.take_succ_eq_append_getElem h, runningCksum_append]

/-- Encoding a frame writes its image and moves the running checksum on. -/
theorem walEncodeFrame_eq (hw : Continues w g sz ck) (big : Bool) (f : WalFrame) :
    walEncodeFrame big w f.pgno f.nTruncate f.data =
      (frameHead g sz ck f,
        { w with hdr := { w.hdr with aFrameCksum := nextCksum g sz ck f } }) := by
  unfold walEncodeFrame
  simp only [hw.salt, hw.bigEnd, hw.cksum, hw.szPage, walChecksumBytes_eq]
  rfl

theorem frameHead_words (sz : ℕ) (hg : WordPair g.salt) (hck : WordPair ck) (hf : f.WF) :
    getBE (frameHead g sz ck f) 0 = f.pgno ∧ getBE (frameHead g sz ck f) 4 = f.nTruncate ∧
      getBE (frameHead g sz ck f) 8 = g.salt.1 ∧ getBE (frameHead g sz ck f) 12 = g.salt.2 ∧
      getBE (frameHead g sz ck f) 16 = (nextCksum g sz ck f).1 ∧
      getBE (frameHead g sz ck f) 20 = (nextCksum g sz ck f).2 := by
  have hn : WordPair (nextCksum g sz ck f) := nextCksum_lt hck
  unfold frameHead frameHead0
  generalize nextCksum g sz ck f = c at hn
  refine ⟨?_, ?_, ?_, ?_, ?_, ?_⟩
  · repeat rw [getBE_putBE_of_ne (by omega)]
    exact getBE_putBE_self hf.pgno_lt
  · repeat rw [getBE_putBE_of_ne (by omega)]
    exact getBE_putBE_self hf.nTruncate_lt
  · repeat rw [getBE_putBE_of_ne (by omega)]
    exact getBE_putBE_self hg.1
  · repeat rw [getBE_putBE_of_ne (by omega)]
    exact getBE_putBE_self hg.2
  · rw [getBE_putBE_of_ne (by omega)]
    exact getBE_putBE_self hn.1
  · exact getBE_putBE_self hn.2

/-- Decoding what was encoded yields the frame and the same running checksum. -/
theorem walDecodeFrame_image (hw : Continues w g sz ck) (big : Bool) (hg : WordPair g.salt)
    (hck : WordPair ck) (hf : f.WF) {aFrame aData : ℕ → UInt8}
    (hhead : ∀ x < 24, aFrame x = frameHead g sz ck f x) (hdata : ∀ x < sz, aData x = f.data x) :
    walDecodeFrame big w aData aFrame =
      (some (f.pgno, f.nTruncate),
        { w with hdr := { w.hdr with aFrameCksum := nextCksum g sz ck f } }) := by
  have hword : ∀ a, a ≤ 20 → getBE aFrame a = getBE (frameHead g sz ck f) a := fun a ha =>
    getBE_congr (fun x _ h2 => hhead x (by omega))
  obtain ⟨h0, h4, h8, h12, h16, h20⟩ := frameHead_words sz hg hck hf
  have hc : checksum g.bigEnd aFrame 8 ck = checksum g.bigEnd (frameHead0 g f) 8 ck := by
    apply checksum_congr
    intro x hx
    rw [hhead x (by omega)]
    unfold frameHead
    rw [putBE_of_outside (by omega), putBE_of_outside (by omega)]
  unfold walDecodeFrame
  simp only [hw.salt, hw.bigEnd, hw.cksum, hw.szPage, walChecksumBytes_eq, hc,
    checksum_congr hdata, hword 0 (by omega), hword 4 (by omega), hword 8 (by omega),
    hword 12 (by omega), hword 16 (by omega), hword 20 (by omega), h0, h4, h8, h12, h16, h20]
  rw [if_neg (by simp only [ne_eq, not_true, or_self, not_false_eq_true]),
    if_neg (Nat.ne_of_gt hf.pgno_pos)]
  have hcn : checksum g.bigEnd f.data sz (checksum g.bigEnd (frameHead0 g f) 8 ck) =
      nextCksum g sz ck f := rfl
  rw [hcn, if_neg (by simp only [ne_eq, not_true, or_self, not_false_eq_true])]

/-- An accepted frame carries the salt of the log and a page number. -/
theorem walDecodeFrame_some {aFrame aData : ℕ → UInt8} {p t : ℕ} {w' : Wal}
    (h : walDecodeFrame big w aData aFrame = (some (p, t), w')) :
    getBE aFrame 8 = w.hdr.aSalt.1 ∧ getBE aFrame 12 = w.hdr.aSalt.2 ∧ p ≠ 0 ∧
      t = getBE aFrame 4 := by
  unfold walDecodeFrame at h
  dsimp only at h
  split_ifs at h with h1 h2 h3 <;> cases h
  rw [not_or, not_not, not_not] at h1
  exact ⟨h1.1, h1.2, h2, rfl⟩

/-- Decoding touches nothing but the running checksum. -/
theorem walDecodeFrame_frame {aFrame aData : ℕ → UInt8} {o : Option (ℕ × ℕ)} {w' : Wal}
    (h : walDecodeFrame big w aData aFrame = (o, w')) :
    ∃ c, w' = { w with hdr := { w.hdr with aFrameCksum := c } } := by
  unfold walDecodeFrame at h
  dsimp only at h
  split_ifs at h with h1 h2 h3 <;> cases h
  · exact ⟨w.hdr.aFrameCksum, rfl⟩
  · exact ⟨w.hdr.aFrameCksum, rfl⟩
  · exact ⟨_, rfl⟩
  · exact ⟨_, rfl⟩

end Frames

end Sqlite.Wal

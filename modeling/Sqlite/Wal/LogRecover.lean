import Mathlib.Algebra.Ring.Nat
import Sqlite.Wal.IndexBlock
import Sqlite.Wal.LogChain

/-! Recovery of a log file: what `walIndexRecover` finds in a file that holds a list of frames. -/
namespace Sqlite.Wal

open Foundation

/-- The page sizes of a database. -/
def PageSize (sz : ℕ) : Prop := ∃ k, 9 ≤ k ∧ k ≤ 16 ∧ sz = 2 ^ k

/-- `m` counts the frames up to the last commit frame, 0 when there is none. -/
structure IsLastCommit (log : List WalFrame) (m : ℕ) : Prop where
  le : m ≤ log.length
  hit : 0 < m → ∃ f, log[m - 1]? = some f ∧ f.nTruncate ≠ 0
  later : ∀ i f, m ≤ i → log[i]? = some f → f.nTruncate = 0

/-- The database size that the last of the first `m` frames records. -/
def sizeAfter (log : List WalFrame) (m : ℕ) : ℕ :=
  match (log.take m).getLast? with
  | some f => f.nTruncate
  | none => 0

def cksumAfter (g : Gen) (sz : ℕ) (log : List WalFrame) (m : ℕ) : ℕ × ℕ :=
  if m = 0 then (0, 0) else runningCksum g sz (log.take m)

/-- A header, with the saved checksum `ck`, describes the committed part of `log`. -/
structure Committed (g : Gen) (sz : ℕ) (log : List WalFrame) (hdr : WalIndexHdr) (ck : ℕ × ℕ) :
    Prop where
  last : IsLastCommit log hdr.mxFrame
  nPage : hdr.nPage = sizeAfter log hdr.mxFrame
  cksum : ck = cksumAfter g sz log hdr.mxFrame
  szPage : 0 < hdr.mxFrame → hdr.szPage = encodePageSize sz

/-- The recovery loop after frame `i`, when `l` lists those frames that belong to the log. -/
structure Recovering (g : Gen) (sz : ℕ) (l : List WalFrame) (i : ℕ) (r : Recovery) : Prop where
  rc : r.rc = Rc.ok
  szPage : r.w.szPage = sz
  nCkpt : r.w.nCkpt = g.nCkpt
  bigEnd : r.w.hdr.bigEndCksum = g.bigEnd
  salt : r.w.hdr.aSalt = g.salt
  len : l.length ≤ i
  covers : Covers r.wi i
  exact : 0 < i → BlockGood r.wi (walFramePage i) (i - iZero (walFramePage i))
  pages : ∀ j f, l[j]? = some f → walFramePgno r.wi (j + 1) = f.pgno
  committed : Committed g sz l r.w.hdr r.aFrameCksum

/-- What recovery leaves behind for a file that holds `log`. -/
structure Recovered (file : File) (g : Gen) (sz : ℕ) (log : List WalFrame) (w : Wal) (s : Shm) :
    Prop where
  hdr : s.hdr = w.hdr
  covers : Covers s.wi log.length
  pages : ∀ j f, log[j]? = some f → walFramePgno s.wi (j + 1) = f.pgno
  committed : Committed g sz log w.hdr w.hdr.aFrameCksum
  same : (32 < file.size ∧ w.szPage = sz ∧ w.nCkpt = g.nCkpt ∧ w.hdr.bigEndCksum = g.bigEnd ∧
    w.hdr.aSalt = g.salt) ∨ (file.size ≤ 32 ∧ w.hdr.aSalt = (0, 0))
  backfill : s.info.nBackfill = 0

section PageSize
variable {sz : ℕ}

theorem PageSize.cases (h : PageSize sz) : sz = 512 ∨ sz = 1024 ∨ sz = 2048 ∨ sz = 4096 ∨
    sz = 8192 ∨ sz = 16384 ∨ sz = 32768 ∨ sz = 65536 := by
  obtain ⟨k, h1, h2, rfl⟩ := h
  have hk : k = 9 ∨ k = 10 ∨ k = 11 ∨ k = 12 ∨ k = 13 ∨ k = 14 ∨ k = 15 ∨ k = 16 := by omega
  rcases hk with rfl | rfl | rfl | rfl | rfl | rfl | rfl | rfl <;> decide

theorem PageSize.code (h : PageSize sz) : decodePageSize (encodePageSize sz) = sz := by
  rcases h.cases with rfl | rfl | rfl | rfl | rfl | rfl | rfl | rfl <;> decide

/-- Recovery accepts every page size that a writer may have. -/
theorem PageSize.accepted (h : PageSize sz) :
    sz &&& (sz - 1) = 0 ∧ sz ≤ SQLITE_MAX_PAGE_SIZE ∧ 512 ≤ sz ∧ sz < 4294967296 := by
  rcases h.cases with rfl | rfl | rfl | rfl | rfl | rfl | rfl | rfl <;> decide

end PageSize

section Committed
variable {g : Gen} {sz : ℕ} {log : List WalFrame} {hdr : WalIndexHdr} {ck : ℕ × ℕ} {f : WalFrame}

theorem sizeAfter_append {m : ℕ} (h : m ≤ log.length) (l : List WalFrame) :
    sizeAfter (log ++ l) m = sizeAfter log m := by
  unfold sizeAfter
  rw [List.take_append_of_le_length h]

theorem cksumAfter_append {m : ℕ} (h : m ≤ log.length) (l : List WalFrame) :
    cksumAfter g sz (log ++ l) m = cksumAfter g sz log m := by
  unfold cksumAfter
  rw [List.take_append_of_le_length h]

theorem sizeAfter_self : sizeAfter (log ++ [f]) (log.length + 1) = f.nTruncate := by
  unfold sizeAfter
  rw [List.take_of_length_le (by simp), List.getLast?_concat]

theorem cksumAfter_self :
    cksumAfter g sz (log ++ [f]) (log.length + 1) = runningCksum g sz (log ++ [f]) := by
  unfold cksumAfter
  rw [if_neg (Nat.succ_ne_zero _), List.take_of_length_le (by simp)]

theorem committed_nil (hdr : WalIndexHdr) (h1 : hdr.mxFrame = 0) (h2 : hdr.nPage = 0) :
    Committed g sz [] hdr (0, 0) where
  last := by
    rw [h1]
    exact ⟨Nat.le_refl 0, fun h => absurd h (Nat.lt_irrefl 0), fun i f _ h => nomatch h⟩
  nPage := by
    rw [h1, h2]
    rfl
  cksum := by
    rw [h1]
    rfl
  szPage h := absurd h1 (Nat.ne_of_gt h)

/-- A commit frame makes the whole log committed. -/
theorem Committed.commit (hf : f.nTruncate ≠ 0) (h1 : hdr.mxFrame = log.length + 1)
    (h2 : hdr.nPage = f.nTruncate) (h3 : ck = runningCksum g sz (log ++ [f]))
    (h4 : hdr.szPage = encodePageSize sz) : Committed g sz (log ++ [f]) hdr ck where
  last := by
    rw [h1]
    refine ⟨by simp, fun _ => ⟨f, by simp, hf⟩, fun i f' h5 h6 => ?_⟩
    have := (List.getElem?_eq_some_iff.mp h6).1
    simp only [List.length_append, List.length_singleton] at this
    omega
  nPage := by rw [h1, h2, sizeAfter_self]
  cksum := by rw [h1, h3, cksumAfter_self]
  szPage _ := h4

/-- Frames without a truncation size commit nothing. -/
theorem IsLastCommit.spill {m : ℕ} (h : IsLastCommit log m) {l : List WalFrame}
    (hl : ∀ f ∈ l, f.nTruncate = 0) : IsLastCommit (log ++ l) m where
  le := by
    rw [List.length_append]
    exact Nat.le_add_right_of_le h.le
  hit h0 := by
    obtain ⟨f', h1, h2⟩ := h.hit h0
    exact ⟨f', by rw [List.getElem?_append_left (by have := h.le; omega)]; exact h1, h2⟩
  later i f' h1 h2 := by
    by_cases hi : i < log.length
    · rw [List.getElem?_append_left hi] at h2
      exact h.later i f' h1 h2
    · rw [List.getElem?_append_right (Nat.not_lt.mp hi)] at h2
      exact hl f' (List.mem_of_getElem? h2)

theorem Committed.spill (h : Committed g sz log hdr ck) {l : List WalFrame}
    (hl : ∀ f ∈ l, f.nTruncate = 0) : Committed g sz (log ++ l) hdr ck where
  last := h.last.spill hl
  nPage := h.nPage.trans (sizeAfter_append h.last.le l).symm
  cksum := h.cksum.trans (cksumAfter_append h.last.le l).symm
  szPage := h.szPage

end Committed

section Truncate
variable {file : File} {g : Gen} {sz : ℕ} {log : List WalFrame}

theorem HoldsLog.fits (h : HoldsLog file g sz log) :
    log.length ≤ (file.size - 32) / (sz + 24) := by
  by_contra hc
  have h1 : (file.size - 32) / (sz + 24) < log.length := Nat.not_le.mp hc
  have h2 := (slot_fits file.size).mp (h.frames _ h1).1
  exact Nat.lt_irrefl _ h2

/-- A file that is cut off holds the frames before the cut. -/
theorem HoldsLog.truncate (h : HoldsLog file g sz log) (n : ℕ) :
    HoldsLog (file.truncate n) g sz (log.take ((n - 32) / (sz + 24))) where
  hdr hsize := h.hdr (Nat.lt_of_lt_of_le hsize (Nat.min_le_left _ _))
  frames i hi := by
    rw [List.length_take] at hi
    have h1 := h.frames i (by omega)
    have h2 : walFrameOffset (i + 1) sz + (sz + 24) ≤ n := (slot_fits n).mpr (by omega)
    rw [List.getElem_take, List.take_take, Nat.min_eq_left (by omega)]
    exact h1.truncate h2
  wf f hf := h.wf f (List.mem_of_mem_take hf)
  tail i hi hfit := by
    rw [List.length_take] at hi
    have hfit' : walFrameOffset (i + 1) sz + (sz + 24) ≤ min file.size n := hfit
    have h1 := (slot_fits n).mp (Nat.le_trans hfit' (Nat.min_le_right _ _))
    exact h.tail i (by omega) (Nat.le_trans hfit' (Nat.min_le_left _ _))

end Truncate

section Loop
variable {file : File} {g : Gen} {sz i : ℕ} {log l : List WalFrame} {r : Recovery} {f : WalFrame}

/-- The state that the loop continues with after it has accepted a frame. -/
def acceptFrame (r : Recovery) (w : Wal) (wi : WalIndex) (iFrame nTruncate : ℕ) : Recovery :=
  if nTruncate ≠ 0 then
    { w := { w with hdr :=
        { w.hdr with
          mxFrame := iFrame
          nPage := nTruncate
          szPage := encodePageSize w.szPage } }
      wi := wi
      aFrameCksum := w.hdr.aFrameCksum
      rc := Rc.ok }
  else { r with w := w, wi := wi }

theorem recoverFrames_accept {big : Bool} {n p t : ℕ} {w : Wal} {wi : WalIndex}
    (hd : walDecodeFrame big r.w
      (file.read (walFrameOffset (i + 1) r.w.szPage + WAL_FRAME_HDRSIZE))
      (file.read (walFrameOffset (i + 1) r.w.szPage)) = (some (p, t), w))
    (ha : walIndexAppend r.wi w.hdr.mxFrame (i + 1) p = (Rc.ok, wi)) :
    recoverFrames big file (n + 1) i r =
      recoverFrames big file n (i + 1) (acceptFrame r w wi (i + 1) t) := by
  rw [recoverFrames]
  simp only [hd, ha]
  unfold acceptFrame
  by_cases ht : t ≠ 0
  · rw [if_pos ht, if_pos ht]
  · rw [if_neg ht, if_neg ht]

theorem Recovering.append_ready (h : Recovering g sz l i r) :
    i = r.w.hdr.mxFrame ∨ BlockGood r.wi (walFramePage i) (i - iZero (walFramePage i)) := by
  rcases Nat.eq_zero_or_pos i with rfl | h0
  · left
    have h1 := h.committed.last.le
    have h2 := h.len
    omega
  · exact Or.inr (h.exact h0)

/-- Accepting the next frame of the log. -/
theorem Recovering.accept (h : Recovering g sz l i r) (hlen : l.length = i) {wi : WalIndex}
    (hc : Covers wi (i + 1))
    (he : BlockGood wi (walFramePage (i + 1)) (i + 1 - iZero (walFramePage (i + 1))))
    (hp : walFramePgno wi (i + 1) = f.pgno) (hs : SameBelow r.wi wi i) :
    Recovering g sz (l ++ [f]) (i + 1)
      (acceptFrame r { r.w with hdr :=
        { r.w.hdr with aFrameCksum := runningCksum g sz (l ++ [f]) } } wi (i + 1) f.nTruncate) := by
  have hpages : ∀ j f', (l ++ [f])[j]? = some f' → walFramePgno wi (j + 1) = f'.pgno := by
    intro j f' hj
    by_cases hlt : j < l.length
    · rw [List.getElem?_append_left hlt] at hj
      rw [hs (j + 1) (Nat.succ_pos j) (by omega)]
      exact h.pages j f' hj
    · have hle := (List.getElem?_eq_some_iff.mp hj).1
      rw [List.length_append, List.length_singleton] at hle
      obtain rfl : j = l.length := by omega
      rw [List.getElem?_concat_length] at hj
      obtain rfl := Option.some.inj hj
      rw [hlen]
      exact hp
  have hlen' : (l ++ [f]).length ≤ i + 1 := by
    rw [List.length_append, List.length_singleton, hlen]
  unfold acceptFrame
  by_cases ht : f.nTruncate ≠ 0
  · rw [if_pos ht]
    refine ⟨rfl, h.szPage, h.nCkpt, h.bigEnd, h.salt, hlen', hc, fun _ => he, hpages, ?_⟩
    exact Committed.commit ht (by rw [hlen]) rfl rfl (by rw [← h.szPage])
  · rw [if_neg ht]
    refine ⟨h.rc, h.szPage, h.nCkpt, h.bigEnd, h.salt, hlen', hc, fun _ => he, hpages, ?_⟩
    have h1 : Committed g sz l { r.w.hdr with aFrameCksum := runningCksum g sz (l ++ [f]) }
        r.aFrameCksum :=
      ⟨h.committed.last, h.committed.nPage, h.committed.cksum, h.committed.szPage⟩
    refine h1.spill (fun f' hf' => ?_)
    rw [List.mem_singleton.mp hf']
    exact not_not.mp ht

/-- Accepting a frame behind the log, which is no commit frame. -/
theorem Recovering.skip (h : Recovering g sz l i r) {wi : WalIndex} {c : ℕ × ℕ}
    (hc : Covers wi (i + 1))
    (he : BlockGood wi (walFramePage (i + 1)) (i + 1 - iZero (walFramePage (i + 1))))
    (hs : SameBelow r.wi wi i) :
    Recovering g sz l (i + 1)
      (acceptFrame r { r.w with hdr := { r.w.hdr with aFrameCksum := c } } wi (i + 1) 0) := by
  unfold acceptFrame
  rw [if_neg (not_not.mpr rfl)]
  refine ⟨h.rc, h.szPage, h.nCkpt, h.bigEnd, h.salt, Nat.le_succ_of_le h.len, hc, fun _ => he,
    fun j f' hj => ?_, ?_⟩
  · have hlt := (List.getElem?_eq_some_iff.mp hj).1
    have hlen := h.len
    show walFramePgno wi (j + 1) = f'.pgno
    rw [hs (j + 1) (Nat.succ_pos j) (by omega)]
    exact h.pages j f' hj
  · exact ⟨h.committed.last, h.committed.nPage, h.committed.cksum, h.committed.szPage⟩

theorem Recovering.cksum_irrel (h : Recovering g sz l i r) (c : ℕ × ℕ) :
    Recovering g sz l i { r with w := { r.w with hdr := { r.w.hdr with aFrameCksum := c } } } :=
  ⟨h.rc, h.szPage, h.nCkpt, h.bigEnd, h.salt, h.len, h.covers, h.exact, h.pages,
    ⟨h.committed.last, h.committed.nPage, h.committed.cksum, h.committed.szPage⟩⟩

/-- Behind the log the loop may stop anywhere, without finding a commit. -/
theorem recoverFrames_tail (hh : HoldsLog file g sz log) (big : Bool) (n : ℕ) :
    ∀ {i : ℕ} {r : Recovery}, Recovering g sz log i r →
      i + n = (file.size - 32) / (sz + 24) →
      ∃ i', Recovering g sz log i' (recoverFrames big file n i r) := by
  induction n with
  | zero => exact fun h _ => ⟨_, h⟩
  | succ n ih =>
    intro i r h hn
    cases hd : walDecodeFrame big r.w
        (file.read (walFrameOffset (i + 1) r.w.szPage + WAL_FRAME_HDRSIZE))
        (file.read (walFrameOffset (i + 1) r.w.szPage)) with
    | mk o w =>
      obtain ⟨c, rfl⟩ := walDecodeFrame_frame hd
      cases o with
      | none =>
        refine ⟨i, ?_⟩
        rw [recoverFrames]
        simp only [hd]
        exact h.cksum_irrel c
      | some pt =>
        obtain ⟨p, t⟩ := pt
        obtain ⟨h8, h12, hp, ht⟩ := walDecodeFrame_some hd
        have ht0 : t = 0 := by
          rw [h.salt] at h8 h12
          rw [h.szPage] at h8 h12 ht
          rw [ht]
          exact hh.tail i h.len ((slot_fits file.size).mpr (by omega)) h8 h12
        subst ht0
        obtain ⟨wi, ha, hc, he, -, hs⟩ :=
          walIndexAppend_spec h.covers h.append_ready (Nat.pos_of_ne_zero hp)
        rw [recoverFrames_accept hd ha]
        exact ih (h.skip hc he hs) (by omega)

/-- The loop accepts every frame of the log. -/
theorem recoverFrames_spec (hh : HoldsLog file g sz log) (hg : g.WF) (big : Bool) (n : ℕ) :
    ∀ {i : ℕ} {r : Recovery}, Recovering g sz (log.take i) i r → i ≤ log.length →
      r.w.hdr.aFrameCksum = runningCksum g sz (log.take i) →
      i + n = (file.size - 32) / (sz + 24) →
      ∃ i', Recovering g sz log i' (recoverFrames big file n i r) := by
  induction n with
  | zero =>
    intro i r h hi _ hn
    have := hh.fits
    rw [List.take_of_length_le (by omega)] at h
    exact ⟨i, h⟩
  | succ n ih =>
    intro i r h hi hck hn
    rcases Nat.lt_or_eq_of_le hi with hlt | heq
    · have hst := hh.frames i hlt
      have hw : Continues r.w g sz (runningCksum g sz (log.take i)) :=
        ⟨h.szPage, h.bigEnd, h.salt, hck⟩
      have hd : walDecodeFrame big r.w
          (file.read (walFrameOffset (i + 1) r.w.szPage + WAL_FRAME_HDRSIZE))
          (file.read (walFrameOffset (i + 1) r.w.szPage)) = _ :=
        walDecodeFrame_image hw big hg.salt (runningCksum_lt g sz _)
        (hh.wf _ (List.getElem_mem hlt))
        (fun x hx => by
          rw [h.szPage, hst.read (by omega), frameImage, if_pos hx])
        (fun x hx => by
          have h1 := hst.read (x := 24 + x) (by omega)
          rw [frameImage, if_neg (by omega), Nat.add_sub_cancel_left] at h1
          rw [← h1, h.szPage]
          exact congrArg file.byte (Nat.add_assoc _ 24 x))
      rw [← runningCksum_take_succ hlt] at hd
      obtain ⟨wi, ha, hc, he, hp, hs⟩ := walIndexAppend_spec h.covers h.append_ready
        (hh.wf _ (List.getElem_mem hlt)).pgno_pos
      rw [recoverFrames_accept hd ha, List.take_succ_eq_append_getElem hlt]
      have hlen : (log.take i).length = i := List.length_take_of_le hi
      have hnext := h.accept hlen hc he hp hs
      rw [← List.take_succ_eq_append_getElem hlt] at hnext ⊢
      refine ih hnext hlt ?_ (by omega)
      unfold acceptFrame
      split_ifs <;> rfl
    · subst heq
      rw [List.take_length] at h
      exact recoverFrames_tail hh big (n + 1) h hn

end Loop

section Header
variable {g : Gen} {sz : ℕ}

theorem logHeader_cksum (g : Gen) (sz : ℕ) :
    checksum g.bigEnd (logHeader g sz) 24 (0, 0) =
      (walLogHeader g.bigEnd sz g.nCkpt g.salt).2 := by
  have h : ∀ a : ℕ → UInt8, walChecksumBytes g.bigEnd true a 24 (0, 0) =
      checksum g.bigEnd a 24 (0, 0) := by
    intro a
    have h1 := walChecksumBytes_eq g.bigEnd g.bigEnd a 24 (0, 0)
    rwa [beq_self_eq_true] at h1
  unfold logHeader walLogHeader
  dsimp only [WAL_HDRSIZE]
  rw [h]
  apply checksum_congr
  intro x hx
  rw [putBE_of_outside (by omega), putBE_of_outside (by omega)]

theorem logHeader_words (hg : g.WF) (hsz : sz < 4294967296) :
    getBE (logHeader g sz) 0 = WAL_MAGIC + (if g.bigEnd then 1 else 0) ∧
      getBE (logHeader g sz) 4 = WAL_MAX_VERSION ∧ getBE (logHeader g sz) 8 = sz ∧
      getBE (logHeader g sz) 12 = g.nCkpt ∧ getBE (logHeader g sz) 16 = g.salt.1 ∧
      getBE (logHeader g sz) 20 = g.salt.2 ∧
      getBE (logHeader g sz) 24 = (walLogHeader g.bigEnd sz g.nCkpt g.salt).2.1 ∧
      getBE (logHeader g sz) 28 = (walLogHeader g.bigEnd sz g.nCkpt g.salt).2.2 := by
  have hn := walLogHeader_cksum_lt g.bigEnd sz g.nCkpt g.salt
  unfold logHeader
  unfold walLogHeader at hn ⊢
  dsimp only at hn ⊢
  generalize walChecksumBytes _ _ _ _ _ = c at hn
  refine ⟨?_, ?_, ?_, ?_, ?_, ?_, ?_, ?_⟩
  · repeat rw [getBE_putBE_of_ne (by omega)]
    refine getBE_putBE_self ?_
    cases g.bigEnd <;> decide
  · repeat rw [getBE_putBE_of_ne (by omega)]
    exact getBE_putBE_self (by decide)
  · repeat rw [getBE_putBE_of_ne (by omega)]
    exact getBE_putBE_self hsz
  · repeat rw [getBE_putBE_of_ne (by omega)]
    exact getBE_putBE_self hg.nCkpt
  · repeat rw [getBE_putBE_of_ne (by omega)]
    exact getBE_putBE_self hg.salt.1
  · repeat rw [getBE_putBE_of_ne (by omega)]
    exact getBE_putBE_self hg.salt.2
  · rw [getBE_putBE_of_ne (by omega)]
    exact getBE_putBE_self hn.1
  · exact getBE_putBE_self hn.2

theorem magic_flags (b : Bool) :
    (WAL_MAGIC + (if b then 1 else 0)) &&& 0xFFFFFFFE = WAL_MAGIC ∧
      (((WAL_MAGIC + (if b then 1 else 0)) &&& 0x00000001) == 1) = b := by
  cases b <;> decide

theorem recoverFinished_ok {r : Recovery} (hr : r.rc = Rc.ok) (info : WalCkptInfo)
    (hdr : WalIndexHdr) : ∃ w s, recoverFinished r info hdr = (Rc.ok, w, s) ∧ s.hdr = w.hdr ∧
      s.wi = r.wi ∧ s.info.nBackfill = 0 ∧ w.szPage = r.w.szPage ∧ w.nCkpt = r.w.nCkpt ∧
      w.hdr.mxFrame = r.w.hdr.mxFrame ∧ w.hdr.nPage = r.w.hdr.nPage ∧
      w.hdr.szPage = r.w.hdr.szPage ∧ w.hdr.bigEndCksum = r.w.hdr.bigEndCksum ∧
      w.hdr.aSalt = r.w.hdr.aSalt ∧ w.hdr.aFrameCksum = r.aFrameCksum := by
  unfold recoverFinished
  rw [if_pos hr]
  exact ⟨_, _, rfl, rfl, rfl, rfl, rfl, rfl, rfl, rfl, rfl, rfl, rfl, rfl⟩

/-- Recovery of a file that holds a log finds its last commit and all of its pages. -/
theorem walIndexRecover_spec {file : File} {log : List WalFrame} (hsz : PageSize sz) (hg : g.WF)
    (hh : HoldsLog file g sz log) (big : Bool) (w : Wal) (s : Shm) :
    ∃ w' s', walIndexRecover big file w s = (Rc.ok, w', s') ∧
      Recovered file g sz log w' s' := by
  unfold walIndexRecover
  by_cases hsize : 32 < file.size
  · have hbyte : ∀ a, a ≤ 28 → getBE (file.read 0) a = getBE (logHeader g sz) a := by
      intro a ha
      apply getBE_congr
      intro x _ h2
      show file.byte (0 + x) = _
      rw [Nat.zero_add]
      exact hh.hdr hsize x (by omega)
    have hck : checksum g.bigEnd (file.read 0) 24 (0, 0) =
        (walLogHeader g.bigEnd sz g.nCkpt g.salt).2 := by
      rw [← logHeader_cksum]
      apply checksum_congr
      intro x hx
      show file.byte (0 + x) = _
      rw [Nat.zero_add]
      exact hh.hdr hsize x (by omega)
    obtain ⟨hand, hmax, hmin, hlt⟩ := hsz.accepted
    obtain ⟨h0, h4, h8, h12, h16, h20, h24, h28⟩ := logHeader_words hg hlt
    obtain ⟨hm1, hm2⟩ := magic_flags g.bigEnd
    rw [if_pos (show WAL_HDRSIZE < file.size from hsize)]
    simp only [hbyte 0 (by omega), hbyte 4 (by omega), hbyte 8 (by omega), hbyte 12 (by omega),
      hbyte 16 (by omega), hbyte 20 (by omega), hbyte 24 (by omega), hbyte 28 (by omega),
      h0, h4, h8, h12, h16, h20, h24, h28, hm1, hm2, hand, walChecksumBytes_eq,
      show WAL_HDRSIZE - 2 * 4 = 24 from rfl, hck]
    rw [if_neg (by
        simp only [ne_eq, not_true, false_or, not_or, Nat.not_lt]
        exact ⟨hmax, hmin⟩),
      if_neg (by simp only [ne_eq, not_true, or_self, not_false_eq_true]),
      if_neg (not_not.mpr rfl)]
    have hstart : Recovering g sz (log.take 0) 0
        ⟨{ w with szPage := sz, nCkpt := g.nCkpt, hdr :=
            { bigEndCksum := g.bigEnd, aSalt := (g.salt.1, g.salt.2), aFrameCksum :=
              (walLogHeader g.bigEnd sz g.nCkpt g.salt).2 } }, s.wi, (0, 0), Rc.ok⟩ :=
      ⟨rfl, rfl, rfl, rfl, rfl, Nat.le_refl 0, covers_zero _, fun h => absurd h (Nat.lt_irrefl 0),
        fun j f hj => (nomatch hj), committed_nil _ rfl rfl⟩
    obtain ⟨i', hr⟩ := recoverFrames_spec hh hg big _ hstart (Nat.zero_le _) rfl
      (Nat.zero_add _)
    obtain ⟨w', s', heq, h1, h2, h3, h5, h6, h7, h9, h10, h11, h13, h14⟩ :=
      recoverFinished_ok hr.rc s.info s.hdr
    refine ⟨w', s', heq, h1, ?_, ?_, ?_, ?_, h3⟩
    · rw [h2]
      exact hr.covers.mono hr.len
    · rw [h2]
      exact hr.pages
    · have hc := hr.committed
      constructor
      · rw [h7]
        exact hc.last
      · rw [h7, h9]
        exact hc.nPage
      · rw [h7, h14]
        exact hc.cksum
      · rw [h7, h10]
        exact hc.szPage
    · left
      exact ⟨hsize, h5.trans hr.szPage, h6.trans hr.nCkpt, h11.trans hr.bigEnd, h13.trans hr.salt⟩
  · rw [if_neg (show ¬ WAL_HDRSIZE < file.size from hsize)]
    have hnil : log = [] := by
      apply List.eq_nil_of_length_eq_zero
      have := hh.fits
      have h0 : (file.size - 32) / (sz + 24) = 0 := by
        rw [Nat.sub_eq_zero_of_le (Nat.not_lt.mp hsize), Nat.zero_div]
      omega
    subst hnil
    obtain ⟨w', s', heq, h1, h2, h3, h5, h6, h7, h9, h10, h11, h13, h14⟩ :=
      recoverFinished_ok (r := ⟨{ w with hdr := {} }, s.wi, (0, 0), Rc.ok⟩) rfl s.info s.hdr
    refine ⟨w', s', heq, h1, covers_zero _, fun j f hj => (nomatch hj), ?_,
      Or.inr ⟨Nat.not_lt.mp hsize, h13⟩, h3⟩
    rw [h14]
    exact committed_nil _ h7 h9

end Header

end Sqlite.Wal

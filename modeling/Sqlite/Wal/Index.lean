import Mathlib.Logic.Function.Basic
import Sqlite.Foundation.Probing

/-! The wal-index: one block of page numbers and hash slots for each run of frames of the log,
as `walHashGet`, `walCleanupHash`, `walIndexAppend` and `sqlite3WalRead` use it. -/
namespace Sqlite.Wal

open Foundation

inductive Rc
  | ok
  | corrupt
  | cantopen
  deriving DecidableEq, Repr

def HASHTABLE_NPAGE : ℕ := 4096
def HASHTABLE_HASH_1 : ℕ := 383
def HASHTABLE_NSLOT : ℕ := HASHTABLE_NPAGE * 2
def WALINDEX_HDR_SIZE : ℕ := 136
def HASHTABLE_NPAGE_ONE : ℕ := HASHTABLE_NPAGE - WALINDEX_HDR_SIZE / 4

/-- A 32 KB block of the wal-index: 4096 words of 32 bits, then 8192 slots of 16 bits. -/
structure WiBlock where
  word : ℕ → ℕ
  aHash : ℕ → ℕ

abbrev WalIndex := ℕ → WiBlock

def walHash (iPage : ℕ) : ℕ := (iPage * HASHTABLE_HASH_1) % HASHTABLE_NSLOT

def walNextHash (iPriorHash : ℕ) : ℕ := (iPriorHash + 1) % HASHTABLE_NSLOT

/-- Words at the start of a block that hold the wal-index header. -/
def hdrWords (iHash : ℕ) : ℕ := if iHash = 0 then WALINDEX_HDR_SIZE / 4 else 0

/-- The frame number before the first frame of a block, as `walHashGet` sets `*piZero`. -/
def iZero (iHash : ℕ) : ℕ :=
  if iHash = 0 then 0 else HASHTABLE_NPAGE_ONE + (iHash - 1) * HASHTABLE_NPAGE

/-- `aPgno[idx]` for the pointer that `walHashGet` returns, which counts from 1. -/
def aPgno (wi : WalIndex) (iHash idx : ℕ) : ℕ := (wi iHash).word (hdrWords iHash + idx - 1)

def walFramePage (iFrame : ℕ) : ℕ :=
  (iFrame + HASHTABLE_NPAGE - HASHTABLE_NPAGE_ONE - 1) / HASHTABLE_NPAGE

def walFramePgno (wi : WalIndex) (iFrame : ℕ) : ℕ :=
  if walFramePage iFrame = 0 then (wi 0).word (WALINDEX_HDR_SIZE / 4 + iFrame - 1)
  else (wi (walFramePage iFrame)).word ((iFrame - 1 - HASHTABLE_NPAGE_ONE) % HASHTABLE_NPAGE)

/-- Zero the words of a block from `aPgno[idx]` on. -/
def WiBlock.zeroFrom (blk : WiBlock) (iHash idx : ℕ) : ℕ → ℕ :=
  fun j => if hdrWords iHash + idx - 1 ≤ j ∧ j < HASHTABLE_NPAGE then 0 else blk.word j

def walCleanupHash (wi : WalIndex) (mxFrame : ℕ) : WalIndex :=
  if mxFrame = 0 then wi
  else
    let iHash := walFramePage mxFrame
    let iLimit := mxFrame - iZero iHash
    let blk := wi iHash
    Function.update wi iHash
      { word := blk.zeroFrom iHash (iLimit + 1)
        aHash := fun i => if iLimit < blk.aHash i then 0 else blk.aHash i }

/-- The `memset` of `walIndexAppend` before the first entry of a block. -/
def clearBlock (wi : WalIndex) (iHash : ℕ) : WalIndex :=
  Function.update wi iHash { word := (wi iHash).zeroFrom iHash 1, aHash := fun _ => 0 }

def setEntry (wi : WalIndex) (iHash idx iPage iKey : ℕ) : WalIndex :=
  Function.update wi iHash
    { word := Function.update (wi iHash).word (hdrWords iHash + idx - 1) iPage
      aHash := Function.update (wi iHash).aHash iKey idx }

/-- The part of `walIndexAppend` that makes room for entry `idx`: a new block is zeroed, remains
of an earlier writer are cleaned up. -/
def makeRoom (wi : WalIndex) (mxFrame iHash idx : ℕ) : WalIndex :=
  let wi := if idx = 1 then clearBlock wi iHash else wi
  if aPgno wi iHash idx ≠ 0 then walCleanupHash wi mxFrame else wi

/-- `mxFrame` is the field of the writer's own header copy. -/
def walIndexAppend (wi : WalIndex) (mxFrame iFrame iPage : ℕ) : Rc × WalIndex :=
  let iHash := walFramePage iFrame
  let idx := iFrame - iZero iHash
  let wi := makeRoom wi mxFrame iHash idx
  match walk walNextHash (wi iHash).aHash (fun _ u => u) idx (walHash iPage) () with
  | none => (Rc.corrupt, wi)
  | some (iKey, _) => (Rc.ok, setEntry wi iHash idx iPage iKey)

/-- One round of the inner search loop. -/
def acceptSlot (wi : WalIndex) (iLast pgno iHash : ℕ) (iKey iRead : ℕ) : ℕ :=
  let iFrame := (wi iHash).aHash iKey + iZero iHash
  if iFrame ≤ iLast ∧ aPgno wi iHash ((wi iHash).aHash iKey) = pgno then iFrame else iRead

/-- The outer search loop, over the blocks below `n` downwards. -/
def searchBlocks (wi : WalIndex) (iLast pgno : ℕ) : ℕ → ℕ → Except Rc ℕ
  | 0, iRead => .ok iRead
  | iHash + 1, iRead =>
    if iRead = 0 then
      match walk walNextHash (wi iHash).aHash (acceptSlot wi iLast pgno iHash)
          HASHTABLE_NSLOT (walHash pgno) iRead with
      | none => .error Rc.corrupt
      | some (_, iRead) => searchBlocks wi iLast pgno iHash iRead
    else .ok iRead

/-- The frame that `sqlite3WalRead` selects for a page, 0 for none (`*pInWal` is 0). -/
def sqlite3WalReadFrame (wi : WalIndex) (readLock : Int) (iLast pgno : ℕ) : Except Rc ℕ :=
  if iLast = 0 ∨ readLock = 0 then .ok 0
  else searchBlocks wi iLast pgno (walFramePage iLast + 1) 0

/-- Scan frames downwards by `walFramePgno`, as the expensive assertion of `sqlite3WalRead`. -/
def linearScan (wi : WalIndex) (pgno : ℕ) : ℕ → ℕ
  | 0 => 0
  | iTest + 1 => if walFramePgno wi (iTest + 1) = pgno then iTest + 1 else linearScan wi pgno iTest

/-- `r` is the last frame up to `iLast` that holds the page, 0 when there is none. -/
structure IsLastFrame (pgnoOf : ℕ → ℕ) (pgno iLast r : ℕ) : Prop where
  le : r ≤ iLast
  hit : 0 < r → pgnoOf r = pgno
  later : ∀ i, r < i → i ≤ iLast → pgnoOf i ≠ pgno

section Blocks
variable {wi : WalIndex} {b i iFrame : ℕ}

theorem iZero_zero : iZero 0 = 0 := rfl

theorem iZero_succ (b : ℕ) : iZero (b + 1) = 4062 + b * 4096 := rfl

theorem iZero_mono (b : ℕ) : iZero b < iZero (b + 1) := by
  cases b with
  | zero => rw [iZero_zero, iZero_succ]; omega
  | succ b => rw [iZero_succ, iZero_succ]; omega

theorem iZero_le {a b : ℕ} (h : a ≤ b) : iZero a ≤ iZero b :=
  monotone_nat_of_le_succ (fun b => Nat.le_of_lt (iZero_mono b)) h

theorem iZero_succ_le (b : ℕ) : iZero (b + 1) ≤ iZero b + 4096 := by
  cases b with
  | zero => rw [iZero_zero, iZero_succ]; omega
  | succ b => rw [iZero_succ, iZero_succ]; omega

theorem hdrWords_zero : hdrWords 0 = 34 := rfl

theorem hdrWords_succ (b : ℕ) : hdrWords (b + 1) = 0 := rfl

/-- A block has room for the page numbers of its frames. -/
theorem hdrWords_add (b : ℕ) : hdrWords b + (iZero (b + 1) - iZero b) = 4096 := by
  cases b with
  | zero => rw [hdrWords_zero, iZero_zero, iZero_succ]
  | succ b => rw [hdrWords_succ, iZero_succ, iZero_succ]; omega

theorem walFramePage_eq (h0 : iZero b < iFrame) (h1 : iFrame ≤ iZero (b + 1)) :
    walFramePage iFrame = b := by
  have hd : walFramePage iFrame = (iFrame + 4096 - 4062 - 1) / 4096 := rfl
  rw [hd]
  cases b with
  | zero =>
    rw [iZero_succ] at h1
    omega
  | succ b =>
    rw [iZero_succ] at h0 h1
    omega

theorem walFramePage_spec (h : 0 < iFrame) :
    iZero (walFramePage iFrame) < iFrame ∧ iFrame ≤ iZero (walFramePage iFrame + 1) := by
  have hd : walFramePage iFrame = (iFrame + 4096 - 4062 - 1) / 4096 := rfl
  rw [iZero_succ]
  cases hb : walFramePage iFrame with
  | zero =>
    rw [iZero_zero]
    omega
  | succ b =>
    rw [iZero_succ]
    omega

/-- The page number of a frame is the entry of its block. -/
theorem walFramePgno_eq (h0 : iZero b < iFrame) (h1 : iFrame ≤ iZero (b + 1)) :
    walFramePgno wi iFrame = aPgno wi b (iFrame - iZero b) := by
  unfold walFramePgno aPgno
  rw [walFramePage_eq h0 h1]
  cases b with
  | zero =>
    rw [if_pos rfl, iZero_zero, hdrWords_zero, Nat.sub_zero]
    rfl
  | succ b =>
    rw [if_neg (Nat.succ_ne_zero b), hdrWords_succ]
    have h2 : (iFrame - 1 - 4062) % 4096 = 0 + (iFrame - iZero (b + 1)) - 1 := by
      rw [iZero_succ] at h0 h1 ⊢
      omega
    exact congrArg _ h2

theorem walHash_lt (iPage : ℕ) : walHash iPage < 8192 := Nat.mod_lt _ (by decide)

theorem walHash_mod (iPage : ℕ) : walHash iPage % 8192 = walHash iPage :=
  Nat.mod_eq_of_lt (walHash_lt iPage)

theorem walNextHash_eq (k : ℕ) (_ : k < 8192) : walNextHash k = (k + 1) % 8192 := rfl

end Blocks

theorem IsLastFrame.unique {f : ℕ → ℕ} {pgno iLast r r' : ℕ} (h : IsLastFrame f pgno iLast r)
    (h' : IsLastFrame f pgno iLast r') : r = r' := by
  rcases Nat.lt_trichotomy r r' with hlt | heq | hlt
  · exact absurd (h'.hit (Nat.lt_of_le_of_lt (Nat.zero_le r) hlt)) (h.later r' hlt h'.le)
  · exact heq
  · exact absurd (h.hit (Nat.lt_of_le_of_lt (Nat.zero_le r') hlt)) (h'.later r hlt h.le)

theorem IsLastFrame.congr {f g : ℕ → ℕ} {pgno iLast r : ℕ} (h : IsLastFrame f pgno iLast r)
    (hfg : ∀ i, 0 < i → i ≤ iLast → g i = f i) : IsLastFrame g pgno iLast r where
  le := h.le
  hit h0 := (hfg r h0 h.le).trans (h.hit h0)
  later i h0 h1 := by
    rw [hfg i (Nat.lt_of_le_of_lt (Nat.zero_le r) h0) h1]
    exact h.later i h0 h1

theorem linearScan_isLast (wi : WalIndex) (pgno iLast : ℕ) :
    IsLastFrame (walFramePgno wi) pgno iLast (linearScan wi pgno iLast) := by
  induction iLast with
  | zero => exact ⟨Nat.le_refl 0, fun h => absurd h (Nat.lt_irrefl 0), fun i h0 h1 => by omega⟩
  | succ n ih =>
    unfold linearScan
    by_cases h : walFramePgno wi (n + 1) = pgno
    · rw [if_pos h]
      exact ⟨Nat.le_refl _, fun _ => h, fun i h0 h1 => by omega⟩
    · rw [if_neg h]
      refine ⟨Nat.le_succ_of_le ih.le, ih.hit, fun i h0 h1 => ?_⟩
      rcases Nat.le_succ_iff.mp h1 with h1 | rfl
      · exact ih.later i h0 h1
      · exact h

end Sqlite.Wal

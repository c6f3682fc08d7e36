import Sqlite.Foundation.Bytes
import Sqlite.Foundation.File
import Sqlite.Wal.Index

/-! The log file: the frames that `sqlite3WalFrames` writes and what `walIndexRecover` makes of
a file. Words of 32 bits are numbers modulo 4294967296. -/
namespace Sqlite.Wal

set_option linter.dupNamespace false

open Foundation

def WAL_MAX_VERSION : ℕ := 3007000
def WALINDEX_MAX_VERSION : ℕ := 3007000
def WAL_FRAME_HDRSIZE : ℕ := 24
def WAL_HDRSIZE : ℕ := 32
def WAL_MAGIC : ℕ := 0x377f0682
def SQLITE_MAX_PAGE_SIZE : ℕ := 65536
def READMARK_NOT_USED : ℕ := 0xffffffff

/-- `aSalt` is kept as its two words in big-endian order, in which the log stores it. -/
structure WalIndexHdr where
  iVersion : ℕ := 0
  iChange : ℕ := 0
  isInit : Bool := false
  bigEndCksum : Bool := false
  szPage : ℕ := 0
  mxFrame : ℕ := 0
  nPage : ℕ := 0
  aFrameCksum : ℕ × ℕ := (0, 0)
  aSalt : ℕ × ℕ := (0, 0)

structure WalCkptInfo where
  nBackfill : ℕ
  aReadMark : ℕ → ℕ

/-- The fields of a connection's `Wal` that writing and recovery use. -/
structure Wal where
  hdr : WalIndexHdr
  szPage : ℕ
  nCkpt : ℕ
  truncateOnCommit : Bool
  padToSectorBoundary : Bool
  mxWalSize : ℤ

/-- The shared memory: the header, the checkpoint information and the index. -/
structure Shm where
  hdr : WalIndexHdr
  info : WalCkptInfo
  wi : WalIndex

def walFrameOffset (iFrame szPage : ℕ) : ℕ :=
  WAL_HDRSIZE + (iFrame - 1) * (szPage + WAL_FRAME_HDRSIZE)

/-- A `u32` load on a machine of the given byte order. -/
def loadWord (big : Bool) (a : ℕ → UInt8) (i : ℕ) : ℕ := if big then getBE a i else getLE a i

def walChecksumLoop (word : ℕ → ℕ) : ℕ → ℕ → ℕ × ℕ → ℕ × ℕ
  | 0, _, s => s
  | n + 1, i, (s1, s2) =>
    let s1 := (s1 + (word i + s2)) % 4294967296
    let s2 := (s2 + (word (i + 4) + s1)) % 4294967296
    walChecksumLoop word n (i + 8) (s1, s2)

def walChecksumBytes (big nativeCksum : Bool) (a : ℕ → UInt8) (nByte : ℕ) (aIn : ℕ × ℕ) : ℕ × ℕ :=
  walChecksumLoop (fun i => if nativeCksum then loadWord big a i else byteSwap32 (loadWord big a i))
    (nByte / 8) 0 aIn

def walIndexWriteHdr (w : Wal) (s : Shm) : Wal × Shm :=
  let hdr := { w.hdr with isInit := true, iVersion := WALINDEX_MAX_VERSION }
  ({ w with hdr := hdr }, { s with hdr := hdr })

/-- The 24 bytes of the frame header, and the checksum carried on to the next frame. -/
def walEncodeFrame (big : Bool) (w : Wal) (iPage nTruncate : ℕ) (aData : ℕ → UInt8) :
    (ℕ → UInt8) × Wal :=
  let aFrame := putBE (putBE (fun _ => 0) 0 iPage) 4 nTruncate
  let aFrame := putBE (putBE aFrame 8 w.hdr.aSalt.1) 12 w.hdr.aSalt.2
  let nativeCksum := w.hdr.bigEndCksum == big
  let aCksum := walChecksumBytes big nativeCksum aFrame 8 w.hdr.aFrameCksum
  let aCksum := walChecksumBytes big nativeCksum aData w.szPage aCksum
  (putBE (putBE aFrame 16 aCksum.1) 20 aCksum.2,
    { w with hdr := { w.hdr with aFrameCksum := aCksum } })

/-- The page number and truncation size of a valid frame. -/
def walDecodeFrame (big : Bool) (w : Wal) (aData aFrame : ℕ → UInt8) : Option (ℕ × ℕ) × Wal :=
  if getBE aFrame 8 ≠ w.hdr.aSalt.1 ∨ getBE aFrame 12 ≠ w.hdr.aSalt.2 then (none, w)
  else if getBE aFrame 0 = 0 then (none, w)
  else
    let nativeCksum := w.hdr.bigEndCksum == big
    let aCksum := walChecksumBytes big nativeCksum aFrame 8 w.hdr.aFrameCksum
    let aCksum := walChecksumBytes big nativeCksum aData w.szPage aCksum
    let w := { w with hdr := { w.hdr with aFrameCksum := aCksum } }
    if aCksum.1 ≠ getBE aFrame 16 ∨ aCksum.2 ≠ getBE aFrame 20 then (none, w)
    else (some (getBE aFrame 0, getBE aFrame 4), w)

/-- The page size as `hdr.szPage` holds it, in 16 bits. -/
def encodePageSize (szPage : ℕ) : ℕ := ((szPage &&& 0xff00) ||| (szPage >>> 16)) % 65536

def decodePageSize (code : ℕ) : ℕ := (code &&& 0xfe00) + ((code &&& 0x0001) <<< 16)

section Recover

structure Recovery where
  w : Wal
  wi : WalIndex
  aFrameCksum : ℕ × ℕ
  rc : Rc

/-- The loop of `walIndexRecover`, for the `n` frames that still fit into the file. -/
def recoverFrames (big : Bool) (file : File) : ℕ → ℕ → Recovery → Recovery
  | 0, _, r => r
  | n + 1, iFrame, r =>
    let iFrame := iFrame + 1
    let iOffset := walFrameOffset iFrame r.w.szPage
    let aData := file.read (iOffset + WAL_FRAME_HDRSIZE)
    match walDecodeFrame big r.w aData (file.read iOffset) with
    | (none, w) => { r with w := w }
    | (some (pgno, nTruncate), w) =>
      match walIndexAppend r.wi w.hdr.mxFrame iFrame pgno with
      | (Rc.ok, wi) =>
        if nTruncate ≠ 0 then
          recoverFrames big file n iFrame
            { w := { w with hdr :=
                { w.hdr with
                  mxFrame := iFrame
                  nPage := nTruncate
                  szPage := encodePageSize w.szPage } }
              wi := wi
              aFrameCksum := w.hdr.aFrameCksum
              rc := Rc.ok }
        else recoverFrames big file n iFrame { r with w := w, wi := wi }
      | (rc, wi) => { r with w := w, wi := wi, rc := rc }

/-- The label `finished` of `walIndexRecover`. -/
def recoverFinished (r : Recovery) (info : WalCkptInfo) (hdr : WalIndexHdr) : Rc × Wal × Shm :=
  if r.rc = Rc.ok then
    let w := { r.w with hdr := { r.w.hdr with aFrameCksum := r.aFrameCksum } }
    let (w, s) := walIndexWriteHdr w ⟨hdr, info, r.wi⟩
    let aReadMark := fun i =>
      if i = 0 then 0
      else if i = 1 ∧ w.hdr.mxFrame ≠ 0 then w.hdr.mxFrame
      else READMARK_NOT_USED
    (Rc.ok, w, { s with info := ⟨0, aReadMark⟩ })
  else (r.rc, r.w, ⟨hdr, info, r.wi⟩)

def walIndexRecover (big : Bool) (file : File) (w : Wal) (s : Shm) : Rc × Wal × Shm :=
  let w := { w with hdr := {} }
  if WAL_HDRSIZE < file.size then
    let aBuf := file.read 0
    let magic := getBE aBuf 0
    let szPage := getBE aBuf 8
    if magic &&& 0xFFFFFFFE ≠ WAL_MAGIC ∨ szPage &&& (szPage - 1) ≠ 0 ∨ SQLITE_MAX_PAGE_SIZE < szPage ∨
        szPage < 512 then
      recoverFinished ⟨w, s.wi, (0, 0), Rc.ok⟩ s.info s.hdr
    else
      let bigEndCksum := (magic &&& 0x00000001) == 1
      let aCksum := walChecksumBytes big (bigEndCksum == big) aBuf (WAL_HDRSIZE - 2 * 4) (0, 0)
      let w := { w with
        szPage := szPage
        nCkpt := getBE aBuf 12
        hdr := { w.hdr with
          bigEndCksum := bigEndCksum
          aSalt := (getBE aBuf 16, getBE aBuf 20)
          aFrameCksum := aCksum } }
      if aCksum.1 ≠ getBE aBuf 24 ∨ aCksum.2 ≠ getBE aBuf 28 then
        recoverFinished ⟨w, s.wi, (0, 0), Rc.ok⟩ s.info s.hdr
      else if getBE aBuf 4 ≠ WAL_MAX_VERSION then
        recoverFinished ⟨w, s.wi, (0, 0), Rc.cantopen⟩ s.info s.hdr
      else
        let nFrame := (file.size - WAL_HDRSIZE) / (szPage + WAL_FRAME_HDRSIZE)
        recoverFinished (recoverFrames big file nFrame 0 ⟨w, s.wi, (0, 0), Rc.ok⟩) s.info s.hdr
  else recoverFinished ⟨w, s.wi, (0, 0), Rc.ok⟩ s.info s.hdr

end Recover

section Write

structure WalFrame where
  pgno : ℕ
  nTruncate : ℕ
  data : ℕ → UInt8

/-- What a call of `sqlite3WalFrames` is given: its arguments, the sector size of the device and
the bytes that `sqlite3_randomness` yields. -/
structure FramesCall where
  szPage : ℕ
  pList : List (ℕ × (ℕ → UInt8))
  nTruncate : ℕ
  isCommit : Bool
  syncTransactions : Bool
  sectorSize : ℕ
  salt : ℕ × ℕ

/-- The branch of `walRestartLog` that starts the log anew. -/
def walRestartLog (w : Wal) (s : Shm) (salt1 : ℕ) : Wal × Shm :=
  let w := { w with
    nCkpt := (w.nCkpt + 1) % 4294967296
    hdr := { w.hdr with mxFrame := 0, aSalt := ((1 + w.hdr.aSalt.1) % 4294967296, salt1) } }
  let (w, s) := walIndexWriteHdr w s
  (w, { s with info := ⟨0, fun i => if i ≤ 1 then 0 else READMARK_NOT_USED⟩ })

/-- The header of the log, written when the first frame is about to be. -/
def walLogHeader (big : Bool) (szPage nCkpt : ℕ) (salt : ℕ × ℕ) : (ℕ → UInt8) × (ℕ × ℕ) :=
  let a := putBE (putBE (fun _ => 0) 0 (WAL_MAGIC + if big then 1 else 0)) 4 WAL_MAX_VERSION
  let a := putBE (putBE a 8 szPage) 12 nCkpt
  let a := putBE (putBE a 16 salt.1) 20 salt.2
  let aCksum := walChecksumBytes big true a (WAL_HDRSIZE - 2 * 4) (0, 0)
  (putBE (putBE a 24 aCksum.1) 28 aCksum.2, aCksum)

def writeLogHeader (big : Bool) (c : FramesCall) (w : Wal) (file : File) : Wal × File :=
  let aSalt := if w.nCkpt = 0 then c.salt else w.hdr.aSalt
  let (aWalHdr, aCksum) := walLogHeader big c.szPage w.nCkpt aSalt
  ({ w with
      szPage := c.szPage
      truncateOnCommit := true
      hdr := { w.hdr with bigEndCksum := big, aFrameCksum := aCksum, aSalt := aSalt } },
    file.write 0 WAL_HDRSIZE aWalHdr)

def walWriteOneFrame (big : Bool) (szPage : ℕ) (w : Wal) (file : File) (f : WalFrame)
    (iOffset : ℕ) : Wal × File :=
  let (aFrame, w) := walEncodeFrame big w f.pgno f.nTruncate f.data
  (w, (file.write iOffset WAL_FRAME_HDRSIZE aFrame).write (iOffset + WAL_FRAME_HDRSIZE) szPage f.data)

def writeFrames (big : Bool) (szPage : ℕ) : List WalFrame → ℕ → Wal → File → Wal × File
  | [], _, w, file => (w, file)
  | f :: fs, iFrame, w, file =>
    let (w, file) := walWriteOneFrame big szPage w file f (walFrameOffset (iFrame + 1) szPage)
    writeFrames big szPage fs (iFrame + 1) w file

/-- The frames for a list of pages: the last one of a commit carries `nTruncate`. -/
def frameList (nTruncate : ℕ) (isCommit : Bool) : List (ℕ × (ℕ → UInt8)) → List WalFrame
  | [] => []
  | [p] => [⟨p.1, if isCommit then nTruncate else 0, p.2⟩]
  | p :: q :: r => ⟨p.1, 0, p.2⟩ :: frameList nTruncate isCommit (q :: r)

/-- The rounds of the loop that pads a commit to a sector boundary. -/
def nExtra (pad : Bool) (iOffset szPage sectorSize : ℕ) : ℕ :=
  if pad then
    let iSyncPoint := (iOffset + sectorSize - 1) / sectorSize * sectorSize
    (iSyncPoint - iOffset + (szPage + WAL_FRAME_HDRSIZE) - 1) / (szPage + WAL_FRAME_HDRSIZE)
  else 0

/-- All frames of a call, the repetitions of the last one included. -/
def callFrames (w : Wal) (c : FramesCall) (iFrame : ℕ) : List WalFrame :=
  let fs := frameList c.nTruncate c.isCommit c.pList
  let pad := c.isCommit && c.syncTransactions && w.padToSectorBoundary
  let n := nExtra pad (walFrameOffset (iFrame + fs.length + 1) c.szPage) c.szPage c.sectorSize
  match fs.getLast? with
  | none => fs
  | some f => fs ++ List.replicate n { f with nTruncate := c.nTruncate }

def walLimitSize (file : File) (nMax : ℕ) : File :=
  if nMax < file.size then file.truncate nMax else file

def appendFrames (mxFrame : ℕ) : List WalFrame → ℕ → WalIndex → Rc × WalIndex
  | [], _, wi => (Rc.ok, wi)
  | f :: fs, iFrame, wi =>
    match walIndexAppend wi mxFrame (iFrame + 1) f.pgno with
    | (Rc.ok, wi) => appendFrames mxFrame fs (iFrame + 1) wi
    | (rc, wi) => (rc, wi)

/-- The end of `sqlite3WalFrames`: the frames enter the wal-index, then the header changes. -/
def indexFrames (c : FramesCall) (fs : List WalFrame) (w : Wal) (s : Shm) (file : File) :
    Rc × Wal × Shm × File :=
  match appendFrames w.hdr.mxFrame fs w.hdr.mxFrame s.wi with
  | (Rc.ok, wi) =>
    let w := { w with hdr :=
      { w.hdr with szPage := encodePageSize c.szPage, mxFrame := w.hdr.mxFrame + fs.length } }
    if c.isCommit then
      let w := { w with hdr :=
        { w.hdr with iChange := (w.hdr.iChange + 1) % 4294967296, nPage := c.nTruncate } }
      let (w, s) := walIndexWriteHdr w { s with wi := wi }
      (Rc.ok, w, s, file)
    else (Rc.ok, w, { s with wi := wi }, file)
  | (rc, wi) => (rc, w, { s with wi := wi }, file)

def sqlite3WalFrames (big : Bool) (c : FramesCall) (w : Wal) (s : Shm) (file : File) :
    Rc × Wal × Shm × File :=
  let iFrame := w.hdr.mxFrame
  let (w, file) := if iFrame = 0 then writeLogHeader big c w file else (w, file)
  let fs := callFrames w c iFrame
  let (w, file) := writeFrames big c.szPage fs iFrame w file
  let iEnd := walFrameOffset (iFrame + fs.length + 1) c.szPage
  if c.isCommit && w.truncateOnCommit && decide (0 ≤ w.mxWalSize) then
    indexFrames c fs { w with truncateOnCommit := false } s
      (walLimitSize file (max w.mxWalSize.toNat iEnd))
  else indexFrames c fs w s file

end Write

end Sqlite.Wal

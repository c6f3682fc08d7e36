import Mathlib.Data.Finset.Card
import Mathlib.Logic.Function.Basic
import Sqlite.Foundation.Chain

/-! The in-memory journal: a linked list of chunks with a cursor at its end and one behind the
last read. Pointers are numbers, and a result `none` is a use of a null pointer. -/
namespace Sqlite.MemJrnl


section

/-- For pointers of eight bytes. -/
def JOURNAL_CHUNKSIZE : ℕ := 1024 - 8

inductive Rc
  | SQLITE_OK
  | SQLITE_IOERR_NOMEM
  deriving DecidableEq

structure FilePoint where
  iOffset : ℕ
  pChunk : Option ℕ

/-- `live` holds the chunks that are allocated. -/
structure MemJournal where
  pFirst : Option ℕ
  endpoint : FilePoint
  readpoint : FilePoint
  pNext : ℕ → Option ℕ
  zChunk : ℕ → ℕ → UInt8
  live : Finset ℕ

variable (p : MemJournal)

/-- The search loop of `memjrnlRead`, from the chunk at offset `iOff` on. -/
def seekLoop (iOfst iOff : ℕ) : Option ℕ → Option ℕ
  | none => none
  | some c =>
    if iOff + JOURNAL_CHUNKSIZE ≤ iOfst then
      seekLoop iOfst (iOff + JOURNAL_CHUNKSIZE) (p.pNext c)
    else some c
  termination_by iOfst - iOff
  decreasing_by
    have : JOURNAL_CHUNKSIZE = 1016 := rfl
    omega

/-- The bytes that `memcpy` takes from a chunk; it touches no chunk when there are none. -/
def copyOut (pChunk : Option ℕ) (iChunkOffset nCopy : ℕ) : Option (List UInt8) :=
  if nCopy = 0 then some []
  else pChunk.map (fun c => (List.range nCopy).map (fun k => p.zChunk c (iChunkOffset + k)))

/-- The copy loop of `memjrnlRead`: the bytes read, and the chunk where it stops. -/
def readLoop (pChunk : Option ℕ) (nRead iChunkOffset : ℕ) : Option (List UInt8 × Option ℕ) :=
  let iSpace := JOURNAL_CHUNKSIZE - iChunkOffset
  let nCopy := min nRead (JOURNAL_CHUNKSIZE - iChunkOffset)
  match copyOut p pChunk iChunkOffset nCopy with
  | none => none
  | some z =>
    if nRead < iSpace then some (z, pChunk)
    else
      match pChunk with
      | none => none
      | some c =>
        match p.pNext c with
        | none => some (z, none)
        | some pChunk =>
          -- the offset lies inside the chunk, so there is always some space
          if 0 < nRead - iSpace ∧ 0 < iSpace then
            (readLoop (some pChunk) (nRead - iSpace) 0).map (fun r => (z ++ r.1, r.2))
          else some (z, some pChunk)
  termination_by nRead

def memjrnlRead (iAmt iOfst : ℕ) : Option (List UInt8 × MemJournal) :=
  let pChunk := if p.readpoint.iOffset ≠ iOfst ∨ iOfst = 0 then seekLoop p iOfst 0 p.pFirst
    else p.readpoint.pChunk
  match readLoop p pChunk iAmt (iOfst % JOURNAL_CHUNKSIZE) with
  | none => none
  | some (z, pChunk) => some (z, { p with readpoint := ⟨iOfst + iAmt, pChunk⟩ })

/-- Link the new chunk of `memjrnlWrite` behind the last one. -/
def addChunk (pNew : ℕ) : MemJournal :=
  let q := { p with
    live := insert pNew p.live
    pNext := Function.update p.pNext pNew none }
  let q := match p.endpoint.pChunk with
    | some pChunk => { q with pNext := Function.update q.pNext pChunk (some pNew) }
    | none => { q with pFirst := some pNew }
  { q with endpoint := ⟨p.endpoint.iOffset, some pNew⟩ }

/-- `memcpy` into the chunk at the end of the file. -/
def copyIn (c iChunkOffset : ℕ) (z : List UInt8) : MemJournal :=
  { p with
    zChunk := Function.update p.zChunk c (fun k =>
      if iChunkOffset ≤ k ∧ k < iChunkOffset + z.length then z.getD (k - iChunkOffset) 0
      else p.zChunk c k)
    endpoint := ⟨p.endpoint.iOffset + z.length, p.endpoint.pChunk⟩ }

/-- The loop of `memjrnlWrite`. `malloc` says what `sqlite3_malloc` returns when the given chunks
are allocated. -/
def writeLoop (malloc : Finset ℕ → Option ℕ) (p : MemJournal) (zWrite : List UInt8) :
    Option (Rc × MemJournal) :=
  if zWrite.length = 0 then some (.SQLITE_OK, p)
  else
    let iChunkOffset := p.endpoint.iOffset % JOURNAL_CHUNKSIZE
    let iSpace := min zWrite.length (JOURNAL_CHUNKSIZE - iChunkOffset)
    let q := if iChunkOffset = 0 then (malloc p.live).map (addChunk p) else some p
    match q with
    | none => some (.SQLITE_IOERR_NOMEM, p)
    | some q =>
      match q.endpoint.pChunk with
      | none => none
      | some c => writeLoop malloc (copyIn q c iChunkOffset (zWrite.take iSpace)) (zWrite.drop iSpace)
  termination_by zWrite.length
  decreasing_by
    have h1 : JOURNAL_CHUNKSIZE = 1016 := rfl
    have h2 := Nat.mod_lt p.endpoint.iOffset (h1 ▸ Nat.succ_pos _ : 0 < JOURNAL_CHUNKSIZE)
    rw [List.length_drop]
    omega

def memjrnlWrite (zBuf : List UInt8) (malloc : Finset ℕ → Option ℕ) : Option (Rc × MemJournal) :=
  writeLoop malloc p zBuf

def sqlite3MemJournalOpen : MemJournal :=
  { p with pFirst := none, endpoint := ⟨0, none⟩, readpoint := ⟨0, none⟩ }

/-- The loop of `memjrnlTruncate`; it may only free chunks that are allocated. -/
def freeLoop (pNext : ℕ → Option ℕ) (live : Finset ℕ) : Option ℕ → Option (Finset ℕ)
  | none => some live
  | some c => if c ∈ live then freeLoop pNext (live.erase c) (pNext c) else none
  termination_by live.card
  decreasing_by exact Finset.card_erase_lt_of_mem ‹_›

def memjrnlTruncate : Option MemJournal :=
  match freeLoop p.pNext p.live p.pFirst with
  | none => none
  | some live => some (sqlite3MemJournalOpen { p with live := live })

def memjrnlFileSize : ℕ := p.endpoint.iOffset

end

/-! The journal as the bytes that were appended to it, and what a read returns. -/

open Foundation

variable {p : MemJournal} {l : List ℕ} {z : List UInt8} {q : Option ℕ}

theorem chunkSize : JOURNAL_CHUNKSIZE = 1016 := rfl

/-- The chunks `l` hold the bytes `z`. The cursor behind the last read is at the chunk of its
offset, unless it was left without a chunk. -/
structure Inv (p : MemJournal) (l : List ℕ) (z : List UInt8) : Prop where
  chain : Chain p.pNext p.pFirst l
  nodup : l.Nodup
  live : ∀ c ∈ l, c ∈ p.live
  size : p.endpoint.iOffset = z.length
  last : p.endpoint.pChunk = l.getLast?
  chunks : l.length = (z.length + (JOURNAL_CHUNKSIZE - 1)) / JOURNAL_CHUNKSIZE
  bytes : ∀ k c, l[k / JOURNAL_CHUNKSIZE]? = some c → ∀ b, z[k]? = some b →
    p.zChunk c (k % JOURNAL_CHUNKSIZE) = b
  cache : p.readpoint.iOffset = 0 ∨ p.readpoint.pChunk = none ∨
    p.readpoint.pChunk = l[p.readpoint.iOffset / JOURNAL_CHUNKSIZE]?

/-- Every byte of the file lies in a chunk. -/
theorem Inv.chunk_of_lt (hi : Inv p l z) {j : ℕ} (hj : j * JOURNAL_CHUNKSIZE < z.length) :
    ∃ c, l[j]? = some c := by
  have h := hi.chunks
  rw [chunkSize] at hj h
  have hlt : j < l.length := by omega
  exact ⟨l[j], List.getElem?_eq_getElem hlt⟩

/-- The search loop finds the chunk of the offset, if there is one. -/
theorem seekLoop_spec (hc : Chain p.pNext q l) {iOfst iOff : ℕ} (ho : iOff ≤ iOfst) :
    seekLoop p iOfst iOff q = l[(iOfst - iOff) / JOURNAL_CHUNKSIZE]? := by
  induction l generalizing q iOff with
  | nil =>
    rw [hc.head, List.head?_nil, seekLoop]
    rfl
  | cons c l ih =>
    obtain ⟨rfl, hc'⟩ := hc
    rw [seekLoop]
    have h := chunkSize
    by_cases hle : iOff + JOURNAL_CHUNKSIZE ≤ iOfst
    · rw [if_pos hle, ih hc' hle]
      have hdiv : (iOfst - iOff) / JOURNAL_CHUNKSIZE =
          (iOfst - (iOff + JOURNAL_CHUNKSIZE)) / JOURNAL_CHUNKSIZE + 1 := by
        rw [h] at hle ⊢
        omega
      rw [hdiv, List.getElem?_cons_succ]
    · rw [if_neg hle]
      have hdiv : (iOfst - iOff) / JOURNAL_CHUNKSIZE = 0 := by
        rw [h] at hle ⊢
        omega
      rw [hdiv, List.getElem?_cons_zero]

/-- The bytes copied out of one chunk are those of the file at its place. -/
theorem Inv.copyOut (hi : Inv p l z) {j off n : ℕ} (hq : q = l[j]?)
    (hn : n ≤ JOURNAL_CHUNKSIZE - off) (hz : j * JOURNAL_CHUNKSIZE + off + n ≤ z.length) :
    copyOut p q off n = some ((z.drop (j * JOURNAL_CHUNKSIZE + off)).take n) := by
  unfold MemJrnl.copyOut
  by_cases h0 : n = 0
  · rw [if_pos h0, h0, List.take_zero]
  · obtain ⟨c, hc⟩ := hi.chunk_of_lt (j := j) (by omega)
    rw [if_neg h0, hq, hc, Option.map_some]
    congr 1
    apply List.ext_getElem?
    intro k
    rw [List.getElem?_map]
    by_cases hk : k < n
    · have hlt : j * JOURNAL_CHUNKSIZE + off + k < z.length := by omega
      have hdiv : (j * JOURNAL_CHUNKSIZE + off + k) / JOURNAL_CHUNKSIZE = j := by
        rw [chunkSize] at hn ⊢
        omega
      have hmod : (j * JOURNAL_CHUNKSIZE + off + k) % JOURNAL_CHUNKSIZE = off + k := by
        rw [chunkSize] at hn ⊢
        omega
      have hb := hi.bytes (j * JOURNAL_CHUNKSIZE + off + k) c (by rw [hdiv, hc]) _
        (List.getElem?_eq_getElem hlt)
      rw [hmod] at hb
      rw [List.getElem?_range hk, Option.map_some, hb, List.getElem?_take_of_lt hk,
        List.getElem?_drop, List.getElem?_eq_getElem hlt]
    · rw [List.getElem?_eq_none (by simpa using hk), Option.map_none, List.getElem?_eq_none]
      rw [List.length_take]
      omega

theorem take_drop_split {a m n : ℕ} (h : m ≤ n) :
    (z.drop a).take n = (z.drop a).take m ++ (z.drop (a + m)).take (n - m) := by
  obtain ⟨r, rfl⟩ := Nat.exists_eq_add_of_le h
  rw [Nat.add_sub_cancel_left, List.take_add, List.drop_drop]

/-- The copy loop returns the bytes of the file, and stops at the chunk where they end. -/
theorem Inv.readLoop (hi : Inv p l z) {j off n : ℕ} (hq : q = l[j]?)
    (ho : off < JOURNAL_CHUNKSIZE) (hz : j * JOURNAL_CHUNKSIZE + off + n ≤ z.length) :
    readLoop p q n off = some ((z.drop (j * JOURNAL_CHUNKSIZE + off)).take n,
      l[(j * JOURNAL_CHUNKSIZE + off + n) / JOURNAL_CHUNKSIZE]?) := by
  induction n using Nat.strong_induction_on generalizing j off q with
  | _ n ih =>
    have hcs := chunkSize
    have hspace : 0 < JOURNAL_CHUNKSIZE - off := by omega
    rw [MemJrnl.readLoop, hi.copyOut hq (Nat.min_le_right _ _) (by omega)]
    dsimp only
    by_cases hlt : n < JOURNAL_CHUNKSIZE - off
    · have hdiv : (j * JOURNAL_CHUNKSIZE + off + n) / JOURNAL_CHUNKSIZE = j := by
        rw [hcs] at hlt ⊢
        omega
      rw [if_pos hlt, Nat.min_eq_left hlt.le, hdiv, hq]
    · rw [if_neg hlt, Nat.min_eq_right (Nat.le_of_not_lt hlt)]
      obtain ⟨c, hc⟩ := hi.chunk_of_lt (j := j) (by omega)
      rw [hq, hc]
      dsimp only
      rw [hi.chain.getElem?_succ hc]
      have hsum : j * JOURNAL_CHUNKSIZE + off + (JOURNAL_CHUNKSIZE - off) =
          (j + 1) * JOURNAL_CHUNKSIZE := by
        rw [hcs] at ho ⊢
        omega
      cases hc' : l[j + 1]? with
      | none =>
        -- nothing is left to read, as the file has no byte in a later chunk
        have hn : n = JOURNAL_CHUNKSIZE - off := by
          by_contra hne
          obtain ⟨c', h'⟩ := hi.chunk_of_lt (j := j + 1) (by omega)
          rw [hc'] at h'
          cases h'
        have hdiv : (j * JOURNAL_CHUNKSIZE + off + n) / JOURNAL_CHUNKSIZE = j + 1 := by
          rw [hn, hsum, hcs]
          omega
        rw [hdiv, hc', hn]
      | some c' =>
        dsimp only
        by_cases hmore : 0 < n - (JOURNAL_CHUNKSIZE - off) ∧ 0 < JOURNAL_CHUNKSIZE - off
        · have hrest := @ih (n - (JOURNAL_CHUNKSIZE - off)) (by omega) (some c') (j + 1) 0
            hc'.symm (by omega) (by omega)
          have hend : (j + 1) * JOURNAL_CHUNKSIZE + 0 + (n - (JOURNAL_CHUNKSIZE - off)) =
              j * JOURNAL_CHUNKSIZE + off + n := by omega
          rw [if_pos hmore, hrest, Option.map_some, hend]
          rw [Nat.add_zero, ← hsum, ← take_drop_split (Nat.le_of_not_lt hlt)]
        · rw [if_neg hmore]
          have hn : n = JOURNAL_CHUNKSIZE - off := by omega
          have hdiv : (j * JOURNAL_CHUNKSIZE + off + n) / JOURNAL_CHUNKSIZE = j + 1 := by
            rw [hn, hsum, hcs]
            omega
          rw [hdiv, hc', hn]

end Sqlite.MemJrnl

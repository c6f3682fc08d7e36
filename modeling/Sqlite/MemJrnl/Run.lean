import Mathlib.Data.Finset.Fold
import Sqlite.MemJrnl.Write

/-! Runs of calls on one journal. A read that starts where the last one ended relies on the chunk
saved there, and there is none when that was the end of the file and of its last chunk. -/
namespace Sqlite.MemJrnl

open Foundation

section

variable {p : MemJournal} {l : List ℕ} {z : List UInt8}

inductive Op
  | write (zBuf : List UInt8) (malloc : Finset ℕ → Option ℕ)
  | truncate
  | read (iAmt iOfst : ℕ)

/-- One call with its result code and the bytes read. -/
def step (p : MemJournal) : Op → Option (Rc × List UInt8 × MemJournal)
  | .write zBuf malloc => (memjrnlWrite p zBuf malloc).map (fun r => (r.1, [], r.2))
  | .truncate => (memjrnlTruncate p).map (fun p => (.SQLITE_OK, [], p))
  | .read iAmt iOfst => (memjrnlRead p iAmt iOfst).map (fun r => (.SQLITE_OK, r.1, r.2))

/-- The bytes of the file after a call on a file with bytes `z`. -/
def bytesAfter (z : List UInt8) : Op → List UInt8
  | .write zBuf _ => z ++ zBuf
  | .truncate => []
  | .read _ _ => z

def bytesRead (z : List UInt8) : Op → List UInt8
  | .read iAmt iOfst => (z.drop iOfst).take iAmt
  | _ => []

/-- Allocation succeeds, and reads are in range. -/
def Admits (z : List UInt8) : Op → Prop
  | .write _ malloc => ∀ s, ∃ c, malloc s = some c ∧ c ∉ s
  | .truncate => True
  | .read iAmt iOfst => iOfst + iAmt ≤ z.length

/-- A read of some bytes where the last read ended, which has saved no chunk. -/
def LosesChunk (p : MemJournal) : Op → Prop
  | .read iAmt iOfst => 0 < iAmt ∧ iOfst ≠ 0 ∧ p.readpoint.iOffset = iOfst ∧
      p.readpoint.pChunk = none
  | _ => False

def AdmitsAll : List UInt8 → List Op → Prop
  | _, [] => True
  | z, op :: ops => Admits z op ∧ AdmitsAll (bytesAfter z op) ops

/-- Every call succeeds and every read returns the bytes appended last. -/
def Conforms : MemJournal → List UInt8 → List Op → Prop
  | _, _, [] => True
  | p, z, op :: ops => ∃ p', step p op = some (.SQLITE_OK, bytesRead z op, p') ∧
      Conforms p' (bytesAfter z op) ops

def KeepsChunk : MemJournal → List Op → Prop
  | _, [] => True
  | p, op :: ops => ¬ LosesChunk p op ∧ ∀ r, step p op = some r → KeepsChunk r.2.2 ops

theorem Inv.open (p : MemJournal) : Inv (sqlite3MemJournalOpen p) [] [] := by
  constructor
  · rfl
  · exact List.nodup_nil
  · exact nofun
  · rfl
  · rfl
  · rfl
  · exact nofun
  · exact Or.inl rfl

theorem freeLoop_spec {next : ℕ → Option ℕ} {q : Option ℕ} {live : Finset ℕ}
    (hc : Chain next q l) (hnd : l.Nodup) (hl : ∀ c ∈ l, c ∈ live) :
    ∃ live', freeLoop next live q = some live' := by
  induction l generalizing q live with
  | nil =>
    obtain rfl := hc
    exact ⟨live, by rw [freeLoop]⟩
  | cons c l ih =>
    obtain ⟨rfl, hc'⟩ := hc
    obtain ⟨h1, h2⟩ := List.nodup_cons.mp hnd
    rw [freeLoop, if_pos (hl c List.mem_cons_self)]
    apply ih hc' h2
    intro d hd
    exact Finset.mem_erase.mpr ⟨ne_of_mem_of_not_mem hd h1, hl d (List.mem_cons_of_mem _ hd)⟩

theorem Inv.truncate (hi : Inv p l z) : ∃ p', memjrnlTruncate p = some p' ∧ Inv p' [] [] := by
  obtain ⟨live', h⟩ := freeLoop_spec hi.chain hi.nodup hi.live
  unfold memjrnlTruncate
  rw [h]
  exact ⟨_, rfl, Inv.open _⟩

/-- Moving the cursor to where a read has ended. -/
theorem Inv.setReadpoint (hi : Inv p l z) {k : ℕ} {q : Option ℕ}
    (hq : q = none ∨ q = l[k / JOURNAL_CHUNKSIZE]?) : Inv { p with readpoint := ⟨k, q⟩ } l z :=
  ⟨hi.chain, hi.nodup, hi.live, hi.size, hi.last, hi.chunks, hi.bytes, Or.inr hq⟩

/-- A read that has its chunk. -/
theorem Inv.read (hi : Inv p l z) {iAmt iOfst : ℕ} (hz : iOfst + iAmt ≤ z.length)
    (hk : p.readpoint.iOffset ≠ iOfst ∨ iOfst = 0 ∨ p.readpoint.pChunk ≠ none) :
    memjrnlRead p iAmt iOfst = some ((z.drop iOfst).take iAmt,
      { p with readpoint := ⟨iOfst + iAmt, l[(iOfst + iAmt) / JOURNAL_CHUNKSIZE]?⟩ }) := by
  have hstart : (if p.readpoint.iOffset ≠ iOfst ∨ iOfst = 0 then seekLoop p iOfst 0 p.pFirst
      else p.readpoint.pChunk) = l[iOfst / JOURNAL_CHUNKSIZE]? := by
    by_cases h : p.readpoint.iOffset ≠ iOfst ∨ iOfst = 0
    · rw [if_pos h, seekLoop_spec hi.chain (Nat.zero_le _), Nat.sub_zero]
    · rw [if_neg h]
      obtain ⟨h1, h2⟩ := not_or.mp h
      have h3 : p.readpoint.iOffset = iOfst := not_not.mp h1
      have h4 := (hk.resolve_left h1).resolve_left h2
      rw [← h3] at h2 ⊢
      exact (hi.cache.resolve_left h2).resolve_left h4
  have hcut : iOfst / JOURNAL_CHUNKSIZE * JOURNAL_CHUNKSIZE + iOfst % JOURNAL_CHUNKSIZE = iOfst :=
    Nat.div_add_mod' _ _
  have hmod : iOfst % JOURNAL_CHUNKSIZE < JOURNAL_CHUNKSIZE :=
    Nat.mod_lt _ (chunkSize ▸ Nat.succ_pos _)
  have hloop := hi.readLoop rfl hmod (by rw [hcut]; exact hz)
  rw [hcut] at hloop
  unfold memjrnlRead
  dsimp only
  rw [hstart, hloop]

/-- A read whose chunk was lost. -/
theorem memjrnlRead_lost {iAmt iOfst : ℕ} (h0 : iOfst ≠ 0) (ho : p.readpoint.iOffset = iOfst)
    (hc : p.readpoint.pChunk = none) :
    memjrnlRead p iAmt iOfst =
      if iAmt = 0 then some ([], { p with readpoint := ⟨iOfst + iAmt, none⟩ }) else none := by
  have hspace : 0 < JOURNAL_CHUNKSIZE - iOfst % JOURNAL_CHUNKSIZE :=
    Nat.sub_pos_of_lt (Nat.mod_lt _ (chunkSize ▸ Nat.succ_pos _))
  have hstart : ¬ (p.readpoint.iOffset ≠ iOfst ∨ iOfst = 0) := by
    rintro (h | h)
    · exact h ho
    · exact h0 h
  unfold memjrnlRead
  dsimp only
  rw [if_neg hstart, hc, readLoop]
  unfold copyOut
  by_cases h : iAmt = 0
  · rw [if_pos h, if_pos (by omega), h]
    dsimp only
    rw [if_pos hspace]
  · rw [if_neg h, if_neg (by omega)]
    rfl

/-- One call does what it should, unless it has lost its chunk. -/
theorem Inv.step (hi : Inv p l z) {op : Op} (ha : Admits z op) (hk : ¬ LosesChunk p op) :
    ∃ p' l', step p op = some (.SQLITE_OK, bytesRead z op, p') ∧ Inv p' l' (bytesAfter z op) := by
  cases op with
  | write zBuf malloc =>
    obtain ⟨p', l', h1, h2, -⟩ := hi.write malloc ha zBuf
    refine ⟨p', l', ?_, h2⟩
    unfold MemJrnl.step
    dsimp only
    rw [h1]
    rfl
  | truncate =>
    obtain ⟨p', h1, h2⟩ := hi.truncate
    refine ⟨p', [], ?_, h2⟩
    unfold MemJrnl.step
    dsimp only
    rw [h1]
    rfl
  | read iAmt iOfst =>
    unfold MemJrnl.step
    by_cases hc : p.readpoint.iOffset ≠ iOfst ∨ iOfst = 0 ∨ p.readpoint.pChunk ≠ none
    · dsimp only
      rw [hi.read ha hc]
      exact ⟨_, l, rfl, hi.setReadpoint (Or.inr rfl)⟩
    · obtain ⟨h1, h2⟩ := not_or.mp hc
      obtain ⟨h3, h4⟩ := not_or.mp h2
      have h0 : iAmt = 0 := by
        by_contra h0
        exact hk ⟨Nat.pos_of_ne_zero h0, h3, not_not.mp h1, not_not.mp h4⟩
      dsimp only
      rw [memjrnlRead_lost h3 (not_not.mp h1) (not_not.mp h4), if_pos h0]
      refine ⟨{ p with readpoint := ⟨iOfst + iAmt, none⟩ }, l, ?_, hi.setReadpoint (Or.inl rfl)⟩
      have hout : bytesRead z (.read iAmt iOfst) = [] := by
        rw [h0]
        rfl
      rw [hout]
      rfl

theorem step_lost {op : Op} (hk : LosesChunk p op) : step p op = none := by
  cases op with
  | write zBuf malloc => cases hk
  | truncate => cases hk
  | read iAmt iOfst =>
    obtain ⟨h1, h2, h3, h4⟩ := hk
    unfold step
    dsimp only
    rw [memjrnlRead_lost h2 h3 h4, if_neg h1.ne']
    rfl

/-- A run from any journal state conforms exactly if no read of it has lost its chunk. -/
theorem Inv.run_iff (hi : Inv p l z) {ops : List Op} (ha : AdmitsAll z ops) :
    Conforms p z ops ↔ KeepsChunk p ops := by
  induction ops generalizing p l z with
  | nil => exact Iff.rfl
  | cons op ops ih =>
    obtain ⟨h1, h2⟩ := ha
    constructor
    · rintro ⟨p', h3, h4⟩
      have hk : ¬ LosesChunk p op := by
        intro hk
        rw [step_lost hk] at h3
        cases h3
      obtain ⟨p2, l', h5, h6⟩ := hi.step h1 hk
      obtain rfl : p' = p2 := by
        rw [h3] at h5
        exact (Prod.mk.inj (Prod.mk.inj (Option.some.inj h5)).2).2
      refine ⟨hk, fun r hr => ?_⟩
      rw [h3] at hr
      obtain rfl := Option.some.inj hr
      exact (ih h6 h2).mp h4
    · rintro ⟨hk, h3⟩
      obtain ⟨p', l', h5, h6⟩ := hi.step h1 hk
      exact ⟨p', h5, (ih h6 h2).mpr (h3 _ h5)⟩

/-- A newly opened journal conforms over a run exactly if no read of it has lost its chunk. -/
theorem memjrnl_sound_iff (p : MemJournal) (ops : List Op) (ha : AdmitsAll [] ops) :
    Conforms (sqlite3MemJournalOpen p) [] ops ↔ KeepsChunk (sqlite3MemJournalOpen p) ops :=
  (Inv.open p).run_iff ha

/-- An allocator that always finds a new chunk. -/
def mallocNext (s : Finset ℕ) : Option ℕ := some (s.fold max 0 id + 1)

theorem mallocNext_fresh (s : Finset ℕ) : ∃ c, mallocNext s = some c ∧ c ∉ s := by
  refine ⟨_, rfl, fun h => ?_⟩
  have hle : s.fold max 0 id + 1 ≤ s.fold max 0 id :=
    (Finset.le_fold_max _).mpr (Or.inr ⟨_, h, Nat.le_refl _⟩)
  exact Nat.not_succ_le_self _ hle

/-- Journal memory before anything was allocated. -/
def blank : MemJournal := ⟨none, ⟨0, none⟩, ⟨0, none⟩, fun _ => none, fun _ _ => 0, ∅⟩

theorem memjrnl_sound_iff_one :
    Conforms (sqlite3MemJournalOpen blank) [] [.write [1, 2] mallocNext, .read 2 0] ↔
      KeepsChunk (sqlite3MemJournalOpen blank) [.write [1, 2] mallocNext, .read 2 0] :=
  memjrnl_sound_iff blank _ ⟨mallocNext_fresh, Nat.le_refl _, trivial⟩

/-- Fill one chunk, read it to its end, append a byte and read that. -/
def overrun : List Op :=
  [.write (List.replicate JOURNAL_CHUNKSIZE 0) mallocNext, .read JOURNAL_CHUNKSIZE 0,
    .write [7] mallocNext, .read 1 JOURNAL_CHUNKSIZE]

/-- The last read of `overrun` finds no chunk. -/
theorem memjrnl_overrun_fails :
    AdmitsAll [] overrun ∧ ¬ Conforms (sqlite3MemJournalOpen blank) [] overrun := by
  have hlen : (List.replicate JOURNAL_CHUNKSIZE (0 : UInt8)).length = JOURNAL_CHUNKSIZE :=
    List.length_replicate
  have ha : AdmitsAll [] overrun := by
    refine ⟨mallocNext_fresh, ?_, mallocNext_fresh, ?_, trivial⟩
    · exact (Nat.zero_add _).trans_le hlen.ge
    · show JOURNAL_CHUNKSIZE + 1 ≤ (List.replicate JOURNAL_CHUNKSIZE (0 : UInt8) ++ [7]).length
      rw [List.length_append, hlen]
      exact Nat.le_refl _
  refine ⟨ha, fun hc => ?_⟩
  obtain ⟨hk1, hk2⟩ := ((Inv.open blank).run_iff ha).mp hc
  obtain ⟨p1, l1, h1, h2, -⟩ := (Inv.open blank).write mallocNext mallocNext_fresh
    (List.replicate JOURNAL_CHUNKSIZE 0)
  obtain ⟨-, hk3⟩ := hk2 (.SQLITE_OK, [], p1) (by
    show (memjrnlWrite _ _ mallocNext).map _ = _
    rw [h1]
    rfl)
  have hread := @Inv.read _ _ _ h2 JOURNAL_CHUNKSIZE 0
    ((Nat.zero_add _).trans_le hlen.ge) (Or.inr (Or.inl rfl))
  -- the file has one chunk, so the cursor is left without one
  have hnone : l1[(0 + JOURNAL_CHUNKSIZE) / JOURNAL_CHUNKSIZE]? = none := by
    apply List.getElem?_eq_none
    rw [h2.chunks, List.nil_append, hlen]
    decide
  rw [hnone] at hread
  obtain ⟨-, hk4⟩ := hk3 _ (by
    show (memjrnlRead p1 JOURNAL_CHUNKSIZE 0).map _ = _
    rw [hread]
    rfl)
  obtain ⟨p3, l3, h3, -, h4⟩ := (h2.setReadpoint (k := 0 + JOURNAL_CHUNKSIZE)
    (Or.inl rfl)).write mallocNext mallocNext_fresh [7]
  obtain ⟨hk5, -⟩ := hk4 (.SQLITE_OK, [], p3) (by
    show (memjrnlWrite _ [7] mallocNext).map _ = _
    rw [h3]
    rfl)
  apply hk5
  refine ⟨Nat.succ_pos 0, by decide, ?_, ?_⟩
  · show p3.readpoint.iOffset = JOURNAL_CHUNKSIZE
    rw [h4]
    rfl
  · show p3.readpoint.pChunk = none
    rw [h4]

end

/-! Writes that run out of memory. What was appended before stays. -/

variable {p p' : MemJournal} {l : List ℕ} {w z : List UInt8} {malloc : Finset ℕ → Option ℕ}

/-- The bytes of the file, read from its beginning. -/
def contents (p : MemJournal) : Option (List UInt8) :=
  (memjrnlRead p (memjrnlFileSize p) 0).map Prod.fst

theorem Inv.contents (hi : Inv p l z) : contents p = some z ∧ memjrnlFileSize p = z.length := by
  have hsize : memjrnlFileSize p = z.length := hi.size
  have hread := @Inv.read _ _ _ hi z.length 0 (Nat.zero_add _).le (.inr (.inl rfl))
  unfold MemJrnl.contents
  rw [hsize, hread]
  simp

/-- Reads are within the file; allocations may fail. -/
def Allowed (p : MemJournal) : Op → Prop
  | .write _ malloc => Fresh malloc
  | .truncate => True
  | .read iAmt iOfst => iOfst + iAmt ≤ memjrnlFileSize p

/-- The journals that some calls lead to. -/
inductive Reachable : MemJournal → Prop
  | open (p : MemJournal) : Reachable (sqlite3MemJournalOpen p)
  | step {p p' : MemJournal} {op : Op} {rc : Rc} {z : List UInt8} : Reachable p → Allowed p op →
      step p op = some (rc, z, p') → Reachable p'

theorem Inv.next (hi : Inv p l z) {op : Op} {rc : Rc} {out : List UInt8} (ha : Allowed p op)
    (hs : MemJrnl.step p op = some (rc, out, p')) : ∃ l' z', Inv p' l' z' := by
  by_cases hk : LosesChunk p op
  · rw [step_lost hk] at hs
    cases hs
  cases op with
  | write w malloc =>
    obtain ⟨rc', q, l', ys, h1, h2, -⟩ := hi.append ha w
    unfold MemJrnl.step at hs
    dsimp only at hs
    rw [h1] at hs
    cases hs
    exact ⟨l', _, h2⟩
  | truncate =>
    have hadmits : Admits z .truncate := trivial
    obtain ⟨q, l', h1, h2⟩ := hi.step hadmits hk
    rw [h1] at hs
    cases hs
    exact ⟨l', _, h2⟩
  | read iAmt iOfst =>
    have hin : Admits z (.read iAmt iOfst) := ha.trans hi.size.le
    obtain ⟨q, l', h1, h2⟩ := hi.step hin hk
    rw [h1] at hs
    cases hs
    exact ⟨l', _, h2⟩

theorem Reachable.inv (hp : Reachable p) : ∃ l z, Inv p l z := by
  induction hp with
  | «open» p => exact ⟨[], [], Inv.open p⟩
  | step _ ha hs ih =>
    obtain ⟨l, z, hi⟩ := ih
    exact hi.next ha hs

/-- A write that runs out of memory leaves the file with a part of its bytes appended, up to the end
of a chunk. When the rest is written the file is as if the write had succeeded at first. -/
theorem memjrnlWrite_failed (hp : Reachable p) (hm : Fresh malloc)
    (hw : memjrnlWrite p w malloc = some (.SQLITE_IOERR_NOMEM, p')) :
    ∃ z ys, contents p = some z ∧ memjrnlFileSize p = z.length ∧
      ys <+: w ∧ ys.length < w.length ∧ (z.length + ys.length) % JOURNAL_CHUNKSIZE = 0 ∧
      contents p' = some (z ++ ys) ∧ memjrnlFileSize p' = z.length + ys.length ∧
      ∀ malloc' q r, Fresh malloc' → memjrnlWrite p w malloc' = some (.SQLITE_OK, q) →
        memjrnlWrite p' (w.drop ys.length) malloc' = some (.SQLITE_OK, r) →
        contents r = some (z ++ w) ∧ contents r = contents q ∧
          memjrnlFileSize r = memjrnlFileSize q := by
  obtain ⟨l, z, hi⟩ := hp.inv
  obtain ⟨rc, p₁, l', ys, h1, h2, -, h3, -⟩ := hi.append hm w
  rw [hw] at h1
  cases h1
  obtain ⟨hpre, hlt, hmod⟩ := h3
  obtain ⟨hc, hs⟩ := hi.contents
  obtain ⟨hc', hs'⟩ := h2.contents
  rw [List.length_append] at hs'
  refine ⟨z, ys, hc, hs, hpre, hlt, hmod, hc', hs', fun malloc' q r hm' hq hr => ?_⟩
  obtain ⟨rc₁, q', l₁, ys₁, h4, h5, -, h6, -⟩ := hi.append hm' w
  obtain ⟨rc₂, r', l₂, ys₂, h7, h8, -, h9, -⟩ := h2.append hm' (w.drop ys.length)
  rw [hq] at h4
  rw [hr] at h7
  cases h4
  cases h7
  have hall : ys ++ w.drop ys.length = w := by
    obtain ⟨rest, rfl⟩ := hpre
    simp
  have h9' : ys₂ = w.drop ys.length := h9
  have h6' : ys₁ = w := h6
  rw [h9', List.append_assoc, hall] at h8
  rw [h6'] at h5
  obtain ⟨hc₁, hs₁⟩ := h5.contents
  obtain ⟨hc₂, hs₂⟩ := h8.contents
  exact ⟨hc₂, hc₂.trans hc₁.symm, hs₂.trans hs₁.symm⟩

theorem fresh_none : Fresh fun _ => none := nofun

theorem fresh_mallocNext : Fresh mallocNext := by
  intro s c hc
  obtain ⟨c', hc', hnew⟩ := mallocNext_fresh s
  exact Option.some.inj (hc.symm.trans hc') ▸ hnew

/-- A journal with one byte, and no memory for a second chunk. -/
theorem exists_failed : ∃ p p' l z, Reachable p ∧ memjrnlFileSize p = 1 ∧
    memjrnlWrite p (List.replicate 1016 7) (fun _ => none) = some (.SQLITE_IOERR_NOMEM, p') ∧
    Inv p' l z ∧ z.length = 1016 := by
  obtain ⟨p, l, hone, hi, -⟩ := (Inv.open blank).write mallocNext mallocNext_fresh [0]
  have hs : step (sqlite3MemJournalOpen blank) (.write [0] mallocNext) =
      some (.SQLITE_OK, [], p) := by
    unfold step
    dsimp only
    rw [hone]
    rfl
  have ha : Allowed (sqlite3MemJournalOpen blank) (.write [0] mallocNext) := fresh_mallocNext
  have hw : (List.replicate 1016 (7 : UInt8)).length = 1016 := List.length_replicate
  obtain ⟨rc, p', l', ys, h1, h2, -, h3, -, hsame⟩ :=
    hi.append fresh_none (List.replicate 1016 7)
  -- both files have one chunk
  have hl := h2.chunks
  rw [hsame fun _ => rfl, hi.chunks, List.nil_append, List.length_append, List.length_singleton,
    chunkSize] at hl
  have hys : rc = .SQLITE_IOERR_NOMEM ∧ ys.length = 1015 := by
    cases rc with
    | SQLITE_OK =>
      have hys : ys.length = 1016 := (congrArg List.length h3).trans hw
      omega
    | SQLITE_IOERR_NOMEM =>
      obtain ⟨-, hlt, hmod⟩ := h3
      rw [List.nil_append, List.length_singleton, chunkSize] at hmod
      exact ⟨rfl, by omega⟩
  obtain ⟨rfl, hys⟩ := hys
  refine ⟨p, p', l', _, .step (.open blank) ha hs, hi.contents.2, h1, h2, ?_⟩
  rw [List.nil_append, List.length_append, List.length_singleton, hys]

theorem memjrnlWrite_failed_part : ∃ p p' z ys, memjrnlFileSize p = 1 ∧ contents p = some z ∧
    memjrnlWrite p (List.replicate 1016 7) (fun _ => none) = some (.SQLITE_IOERR_NOMEM, p') ∧
    contents p' = some (z ++ ys) := by
  obtain ⟨p, p', -, -, hp, hsize, hw, -⟩ := exists_failed
  obtain ⟨z, ys, hz, -, -, -, -, hz', -⟩ := memjrnlWrite_failed hp fresh_none hw
  exact ⟨p, p', z, ys, hsize, hz, hw, hz'⟩

/-- 1015 of the 1016 bytes are in the file after the failure, and twice when the write is made once
more. -/
theorem memjrnlWrite_keeps_part : ∃ p p' r, Reachable p ∧ memjrnlFileSize p = 1 ∧
    memjrnlWrite p (List.replicate 1016 7) (fun _ => none) = some (.SQLITE_IOERR_NOMEM, p') ∧
    memjrnlFileSize p' = 1016 ∧
    memjrnlWrite p' (List.replicate 1016 7) mallocNext = some (.SQLITE_OK, r) ∧
    memjrnlFileSize r = 2032 := by
  obtain ⟨p, p', l, z, hp, hsize, hw, hi, hz⟩ := exists_failed
  obtain ⟨r, l₂, hw', hi', -⟩ := hi.write mallocNext mallocNext_fresh (List.replicate 1016 7)
  have hsize' := hi'.contents.2
  rw [List.length_append, List.length_replicate, hz] at hsize'
  exact ⟨p, p', r, hp, hsize, hw, hi.contents.2.trans hz, hw', hsize'⟩

end Sqlite.MemJrnl

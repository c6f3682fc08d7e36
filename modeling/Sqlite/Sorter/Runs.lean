import Sqlite.Foundation.StableSort
import Sqlite.Sorter.Model

/-! The records in memory, where the sort in slots is stable; the runs in the temporary file, and the writer that
appends them page by page. -/
namespace Sqlite.Sorter

open Foundation Record

section

variable {U : Type}

/-- The keys of `K` can be compared, and the comparison orders them by `le`. -/
structure KeyInfo.Compares (pKeyInfo : KeyInfo U) (K : Bytes → Prop) (le : Bytes → Bytes → Bool) : Prop where
  order : TotalOn K le
  compare : ∀ a b, K a → K b → ∃ r2 res, pKeyInfo.unpack b = some r2 ∧ pKeyInfo.recordCompare a r2 = some res ∧
    (res ≤ 0 ↔ le a b)

variable {db : Db U} {K : Bytes → Prop} {le : Bytes → Bytes → Bool} {r2 : Option U} {p q a b : Bytes}
  {l l₁ l₂ m : List Bytes} {aSlot groups : List (List Bytes)} {i : ℕ}

theorem compare_spec (r2 : Option U) (h : db.pKeyInfo.Compares K le) (ha : K a) (hb : K b) {pKey2 : Option Bytes}
    (hr : pKey2 = some b ∨ pKey2 = none ∧ r2 = db.pKeyInfo.unpack b) :
    ∃ res u, vdbeSorterCompare db r2 a pKey2 = some (res, u) ∧ db.pKeyInfo.unpack b = some u ∧
      (res ≤ 0 ↔ le a b) := by
  obtain ⟨u, res, hu, hres, hle⟩ := h.compare a b ha hb
  refine ⟨res, u, ?_, hu, hle⟩
  obtain rfl | ⟨rfl, rfl⟩ := hr
  · simp only [vdbeSorterCompare, hu, hres, Option.bind_eq_bind, Option.bind_some]
  · simp only [vdbeSorterCompare, hu, hres, Option.bind_eq_bind, Option.bind_some]

/-- Of the key behind `p2` the unpacked record is kept while `p1` advances. -/
theorem mergeLoop_spec (h : db.pKeyInfo.Compares K le) (hK : ∀ y ∈ l₁ ++ l₂, K y) (r2 : Option U) (pVal2 : Option Bytes)
    (hr : pVal2 = l₂.head? ∨ pVal2 = none ∧ ∀ b ∈ l₂.head?, r2 = db.pKeyInfo.unpack b) :
    ∃ r2', mergeLoop db l₁ l₂ pVal2 r2 = some (l₁.merge l₂ le, r2') := by
  induction l₁ generalizing l₂ pVal2 r2 with
  | nil => exact ⟨r2, by rw [mergeLoop, List.nil_merge]⟩
  | cons a l₁ ih₁ =>
    induction l₂ generalizing pVal2 r2 with
    | nil => exact ⟨r2, by rw [mergeLoop, List.merge_right]; simp⟩
    | cons b l₂ ih₂ =>
      have ha := hK a (by simp)
      have hb := hK b (by simp)
      obtain ⟨res, u, hc, hu, hle⟩ := compare_spec r2 h ha hb (hr.imp_right fun h' => ⟨h'.1, h'.2 b rfl⟩)
      rw [mergeLoop, hc, List.cons_merge_cons]
      by_cases hab : le a b
      · obtain ⟨r2', ih⟩ := ih₁ (show ∀ y ∈ l₁ ++ b :: l₂, K y from fun y hy => hK y (by simp_all)) (some u) none
          (.inr ⟨rfl, fun b' hb' => by cases hb'; exact hu.symm⟩)
        exact ⟨r2', by simp [hle.mpr hab, hab, ih]⟩
      · obtain ⟨r2', ih⟩ := ih₂ (fun y hy => hK y (by simp at hy ⊢; tauto)) (some u) l₂.head? (.inl rfl)
        exact ⟨r2', by simp [mt hle.mp hab, hab, ih]⟩

theorem merge_spec (h : db.pKeyInfo.Compares K le) (hp : StableSort K le l₁ l) (hq : StableSort K le l₂ m)
    (hK : ∀ y ∈ l₁ ++ l₂, K y) (r2 : Option U) :
    ∃ out r2', vdbeSorterMerge db l m r2 = some (out, r2') ∧ StableSort K le (l₁ ++ l₂) out := by
  obtain ⟨r2', hm⟩ := mergeLoop_spec h (fun y hy => hK y ((hp.perm.append hq.perm).mem_iff.mp hy)) r2 _ (.inl rfl)
  exact ⟨_, r2', hm, hp.merge h.order hq hK⟩

/-- Slot `j` is empty or holds `2 ^ (i + j)` records. -/
def Sized : ℕ → List (List Bytes) → Prop
  | _, [] => True
  | i, slot :: aSlot => (slot = [] ∨ slot.length = 2 ^ i) ∧ Sized (i + 1) aSlot

theorem slotLoop_spec (h : db.pKeyInfo.Compares K le) (hp : StableSort K le m l)
    (hs : List.Forall₂ (StableSort K le) groups aSlot) (hK : ∀ y ∈ m ++ groups.flatten, K y)
    (hlen : l.length = 2 ^ i) (hsz : Sized i aSlot)
    (hroom : groups.flatten.length + 2 ^ i < 2 ^ (i + aSlot.length)) (r2 : Option U) :
    ∃ aSlot' groups' r2', slotLoop db l aSlot r2 = some (aSlot', r2') ∧
      List.Forall₂ (StableSort K le) groups' aSlot' ∧ groups'.flatten = m ++ groups.flatten ∧ Sized i aSlot' ∧
      aSlot'.length = aSlot.length := by
  induction hs generalizing l m i r2 with
  | nil =>
    simp at hroom
  | @cons g slot groups aSlot hg hs ih =>
    obtain ⟨hslot, hsz'⟩ := hsz
    obtain _ | ⟨x, slot⟩ := slot
    · obtain rfl := List.perm_nil.mp hg.perm.symm
      exact ⟨l :: aSlot, m :: groups, r2, rfl, .cons hp hs, by simp, ⟨.inr hlen, hsz'⟩, rfl⟩
    · have hslot := hslot.resolve_left (List.cons_ne_nil x slot)
      rw [List.flatten_cons] at hK hroom
      have hglen := hg.perm.length_eq
      obtain ⟨out, u, hmerge, hout⟩ := merge_spec h hp hg (fun y hy => hK y (by simp at hy ⊢; tauto)) r2
      have hout_len := hout.perm.length_eq
      have hp_len := hp.perm.length_eq
      rw [List.length_append] at hout_len
      rw [List.length_append, List.length_cons] at hroom
      have hpow : 2 ^ (i + 1) = 2 ^ i + 2 ^ i := by ring
      have harg : i + (aSlot.length + 1) = i + 1 + aSlot.length := by omega
      rw [harg] at hroom
      obtain ⟨aSlot', groups', r2', heq, hall, hfl, hsz'', hlen'⟩ := ih hout
        (fun y hy => hK y (by simp at hy ⊢; tauto)) (i := i + 1) (by omega) hsz' (by omega) u
      refine ⟨[] :: aSlot', [] :: groups', r2', ?_, .cons .nil hall, ?_, ⟨.inl rfl, hsz''⟩, by simp [hlen']⟩
      · rw [slotLoop]
        · simp only [hmerge, heq, Option.bind_eq_bind, Option.bind_some]
        · exact List.cons_ne_nil x slot
      · simp [hfl]

/-- The records are taken from the newest to the oldest. -/
theorem recordLoop_spec (h : db.pKeyInfo.Compares K le) (hs : List.Forall₂ (StableSort K le) groups aSlot)
    (hK : ∀ y ∈ l.reverse ++ groups.flatten, K y) (hsz : Sized 0 aSlot)
    (hroom : groups.flatten.length + l.length < 2 ^ aSlot.length) (r2 : Option U) :
    ∃ aSlot' groups' r2', recordLoop db l aSlot r2 = some (aSlot', r2') ∧
      List.Forall₂ (StableSort K le) groups' aSlot' ∧ groups'.flatten = l.reverse ++ groups.flatten := by
  induction l generalizing aSlot groups r2 with
  | nil => exact ⟨aSlot, groups, r2, rfl, hs, rfl⟩
  | cons p l ih =>
    rw [List.length_cons] at hroom
    obtain ⟨aSlot₁, groups₁, r₁, heq₁, hs₁, hfl₁, hsz₁, hlen₁⟩ := slotLoop_spec (i := 0) h (.singleton p) hs
      (fun y hy => hK y (by simp at hy ⊢; tauto)) rfl hsz
      (by rw [pow_zero, Nat.zero_add]; omega) r2
    obtain ⟨aSlot₂, groups₂, r₂, heq₂, hs₂, hfl₂⟩ := ih hs₁ (fun y hy => hK y (by simp [hfl₁] at hy ⊢; tauto)) hsz₁
      (by rw [hfl₁, hlen₁, List.length_append, List.length_singleton]; omega) r₁
    refine ⟨aSlot₂, groups₂, r₂, ?_, hs₂, by simp [hfl₂, hfl₁]⟩
    simp only [recordLoop, heq₁, heq₂, Option.bind_eq_bind, Option.bind_some]

theorem finalLoop_spec (h : db.pKeyInfo.Compares K le) (hp : StableSort K le m l)
    (hs : List.Forall₂ (StableSort K le) groups aSlot) (hK : ∀ y ∈ m ++ groups.flatten, K y) (r2 : Option U) :
    ∃ out r2', finalLoop db l aSlot r2 = some (out, r2') ∧ StableSort K le (m ++ groups.flatten) out := by
  induction hs generalizing l m r2 with
  | nil => exact ⟨l, r2, rfl, by simpa using hp⟩
  | @cons g slot groups aSlot hg hs ih =>
    obtain ⟨out₁, r₁, hm, hout₁⟩ := merge_spec h hp hg (fun y hy => hK y (by simp at hy ⊢; tauto)) r2
    obtain ⟨out, r', heq, hout⟩ := ih hout₁ (fun y hy => hK y (by simp at hy ⊢; tauto)) r₁
    refine ⟨out, r', ?_, by simpa using hout⟩
    simp only [finalLoop, hm, heq, Option.bind_eq_bind, Option.bind_some]

/-- The list is sorted, equal keys in the order in which they came. -/
theorem sort_spec (h : db.pKeyInfo.Compares K le) (s : VdbeSorter U) (hK : ∀ y ∈ s.pRecord, K y)
    (hlen : s.pRecord.length < 2 ^ 64) :
    ∃ pRecord pUnpacked, vdbeSorterSort db s = some { s with pRecord, pUnpacked } ∧
      StableSort K le s.pRecord.reverse pRecord := by
  have hnil : ∀ n, List.Forall₂ (StableSort K le) (List.replicate n []) (List.replicate n []) := by
    intro n
    induction n with
    | zero => exact .nil
    | succ n ih => exact .cons .nil ih
  have hsized : ∀ n i, Sized i (List.replicate n []) := by
    intro n
    induction n with
    | zero => exact fun _ => trivial
    | succ n ih => exact fun i => ⟨.inl rfl, ih (i + 1)⟩
  obtain ⟨aSlot, groups, r₁, heq₁, hs₁, hfl⟩ := recordLoop_spec (l := s.pRecord) h (hnil 64)
    (fun y hy => hK y (by simpa using hy)) (hsized 64 0) (by simpa using hlen) s.pUnpacked
  rw [show (List.replicate 64 ([] : List Bytes)).flatten = [] by simp, List.append_nil] at hfl
  obtain ⟨out, r₂, heq₂, hout⟩ := finalLoop_spec h .nil hs₁ (fun y hy => hK y (by simpa [hfl] using hy)) r₁
  rw [hfl, List.nil_append] at hout
  refine ⟨out, r₂, ?_, hout⟩
  simp only [vdbeSorterSort, heq₁, heq₂, Option.bind_eq_bind, Option.bind_some]

end

/-! Pieces of files and buffers. -/

section Bytes

variable {f buf src dest : Bytes} {off i n b e : ℕ}

theorem take_osWrite (buf : Bytes) (h : off ≤ f.length) :
    (sqlite3OsWrite f buf off).take (off + buf.length) = f.take off ++ buf := by
  rw [sqlite3OsWrite, Nat.sub_eq_zero_of_le h, List.replicate_zero, List.append_nil]
  exact List.take_left' (by rw [List.length_append, List.length_take, min_eq_left h])

theorem le_length_osWrite (buf : Bytes) (h : off ≤ f.length) :
    off + buf.length ≤ (sqlite3OsWrite f buf off).length := by
  have hlen := congrArg List.length (take_osWrite buf h)
  rw [List.length_take, List.length_append, List.length_take, min_eq_left h] at hlen
  omega

theorem memcpy_eq (dest : Bytes) (i : ℕ) (src : Bytes) (h : i + src.length ≤ dest.length) :
    memcpy dest i src = some (dest.take i ++ src ++ dest.drop (i + src.length)) := if_pos h

theorem length_memcpy (h : memcpy dest i src = some buf) : buf.length = dest.length := by
  unfold memcpy at h
  split at h
  · obtain rfl := Option.some.inj h
    simp
    omega
  · cases h

/-- What was in the buffer, and behind it what is copied. -/
theorem extract_memcpy (h : memcpy dest e src = some buf) (hb : b ≤ e) :
    (buf.drop b).take (e + src.length - b) = (dest.drop b).take (e - b) ++ src := by
  unfold memcpy at h
  split at h
  · next hle =>
    obtain rfl := Option.some.inj h
    have hlen : ((dest.take e).drop b).length = e - b := by
      rw [List.length_drop, List.length_take]
      omega
    rw [List.append_assoc, List.drop_append_of_le_length (by rw [List.length_take]; omega),
      show e + src.length - b = ((dest.take e).drop b).length + src.length by omega, List.take_length_add_append,
      List.take_left' rfl, List.drop_take]
  · cases h

theorem memcpy_append (dest done src : Bytes) (hdone : dest.take done.length = done)
    (h : done.length + src.length ≤ dest.length) : ∃ buf, memcpy dest done.length src = some buf ∧
      buf.take (done ++ src).length = done ++ src ∧ buf.length = dest.length := by
  obtain ⟨buf, hcpy⟩ : ∃ buf, memcpy dest done.length src = some buf := ⟨_, memcpy_eq _ _ _ h⟩
  have hext := extract_memcpy hcpy (Nat.zero_le _)
  rw [List.drop_zero, List.drop_zero, Nat.sub_zero, Nat.sub_zero, hdone, ← List.length_append] at hext
  exact ⟨buf, hcpy, hext, length_memcpy hcpy⟩

theorem bytesAt_eq (h : i + n ≤ src.length) : bytesAt src i n = some ((src.drop i).take n) := if_pos h

end Bytes

/-! The writer. -/

/-- The file, up to the last byte that was written, is `bytes` once the buffer is flushed. -/
structure FileWriter.Holds (p : FileWriter) (bytes : Bytes) : Prop where
  start_le : p.iBufStart ≤ p.iBufEnd
  end_lt : p.iBufEnd < p.aBuffer.length
  file : p.iWriteOff + p.iBufStart ≤ p.pFile.length
  eq : p.pFile.take (p.iWriteOff + p.iBufStart) ++ (p.aBuffer.drop p.iBufStart).take (p.iBufEnd - p.iBufStart) = bytes

section Writer

variable {p : FileWriter} {bytes data f : Bytes} {nBuf iStart : ℕ}

theorem FileWriter.Holds.length (h : p.Holds bytes) : bytes.length = p.iWriteOff + p.iBufEnd := by
  have h₁ := h.start_le
  have h₂ := h.end_lt
  have h₃ := h.file
  rw [← h.eq, List.length_append, List.length_take, List.length_take, List.length_drop]
  omega

theorem length_malloc (raw : ℕ → UInt8) (n : ℕ) : (sqlite3DbMallocRaw raw n).length = n := by
  rw [sqlite3DbMallocRaw, List.length_map, List.length_range]

theorem holds_init (raw : ℕ → UInt8) (hn : 0 < nBuf) (h : iStart ≤ f.length) :
    (fileWriterInit raw nBuf f iStart).Holds (f.take iStart) := by
  have hlt := Nat.mod_lt iStart hn
  have hle := Nat.mod_le iStart nBuf
  refine ⟨le_rfl, ?_, ?_, ?_⟩
  · simp only [fileWriterInit, length_malloc]
    exact hlt
  · simp only [fileWriterInit]
    omega
  · simp only [fileWriterInit, Nat.sub_self, List.take_zero, List.append_nil]
    congr 1
    omega

/-- The flush of a part of the buffer. -/
theorem take_flush (h : p.Holds bytes) :
    bytesAt p.aBuffer p.iBufStart (p.iBufEnd - p.iBufStart) =
      some ((p.aBuffer.drop p.iBufStart).take (p.iBufEnd - p.iBufStart)) ∧
    (sqlite3OsWrite p.pFile ((p.aBuffer.drop p.iBufStart).take (p.iBufEnd - p.iBufStart))
      (p.iWriteOff + p.iBufStart)).take bytes.length = bytes := by
  have h₁ := h.start_le
  have h₂ := h.end_lt
  have hlen : ((p.aBuffer.drop p.iBufStart).take (p.iBufEnd - p.iBufStart)).length = p.iBufEnd - p.iBufStart := by
    rw [List.length_take, List.length_drop]
    omega
  refine ⟨bytesAt_eq (by omega), ?_⟩
  rw [h.length, show p.iWriteOff + p.iBufEnd = p.iWriteOff + p.iBufStart +
    ((p.aBuffer.drop p.iBufStart).take (p.iBufEnd - p.iBufStart)).length by omega, take_osWrite _ h.file, h.eq]

theorem writeLoop_spec (n : ℕ) (h : p.Holds bytes) (hn : data.length ≤ n) :
    ∃ p', writeLoop n p data = some p' ∧ p'.Holds (bytes ++ data) ∧ p'.aBuffer.length = p.aBuffer.length := by
  induction n generalizing p data bytes with
  | zero =>
    obtain rfl := List.eq_nil_of_length_eq_zero (Nat.le_zero.mp hn)
    exact ⟨p, rfl, by rwa [List.append_nil], rfl⟩
  | succ n ih =>
    obtain _ | ⟨x, rest⟩ := data
    · exact ⟨p, rfl, by rwa [List.append_nil], rfl⟩
    generalize hdata : x :: rest = data at *
    have hpos : 0 < data.length := by rw [← hdata]; simp
    rw [← hdata, writeLoop, hdata]
    swap
    · exact fun h => absurd h (List.cons_ne_nil x rest)
    have h₁ := h.start_le
    have h₂ := h.end_lt
    generalize hc : (if p.aBuffer.length - p.iBufEnd < data.length then p.aBuffer.length - p.iBufEnd
      else data.length) = nCopy
    have hle : nCopy ≤ data.length ∧ 0 < nCopy ∧ p.iBufEnd + nCopy ≤ p.aBuffer.length := by
      split at hc <;> omega
    have htake : (data.take nCopy).length = nCopy := by rw [List.length_take]; omega
    have hrest : (data.drop nCopy).length ≤ n := by rw [List.length_drop]; omega
    obtain ⟨aBuffer, hcpy⟩ : ∃ b, memcpy p.aBuffer p.iBufEnd (data.take nCopy) = some b :=
      ⟨_, memcpy_eq _ _ _ (by rw [htake]; exact hle.2.2)⟩
    have hblen := length_memcpy hcpy
    have hext := extract_memcpy hcpy h₁
    rw [htake] at hext
    have heq : p.pFile.take (p.iWriteOff + p.iBufStart) ++
        (aBuffer.drop p.iBufStart).take (p.iBufEnd + nCopy - p.iBufStart) = bytes ++ data.take nCopy := by
      rw [hext, ← List.append_assoc, h.eq]
    simp only [hcpy, Option.bind_eq_bind, Option.bind_some]
    have happ : bytes ++ data = bytes ++ data.take nCopy ++ data.drop nCopy := by
      rw [List.append_assoc, List.take_append_drop]
    by_cases hfull : p.iBufEnd + nCopy = aBuffer.length
    · -- a full page goes to the file
      have hdlen : ((aBuffer.drop p.iBufStart).take (p.iBufEnd + nCopy - p.iBufStart)).length =
          p.iBufEnd + nCopy - p.iBufStart := by
        rw [List.length_take, List.length_drop]
        omega
      have hfile := le_length_osWrite ((aBuffer.drop p.iBufStart).take (p.iBufEnd + nCopy - p.iBufStart)) h.file
      have htk := take_osWrite ((aBuffer.drop p.iBufStart).take (p.iBufEnd + nCopy - p.iBufStart)) h.file
      rw [hdlen, show p.iWriteOff + p.iBufStart + (p.iBufEnd + nCopy - p.iBufStart) =
        p.iWriteOff + aBuffer.length by omega] at hfile htk
      rw [if_pos hfull, bytesAt_eq (by omega)]
      simp only [Option.bind_some]
      obtain ⟨p', hp', hh, hl⟩ := ih (p := { p with
          aBuffer, iBufStart := 0, iBufEnd := 0, iWriteOff := p.iWriteOff + aBuffer.length
          pFile := sqlite3OsWrite p.pFile ((aBuffer.drop p.iBufStart).take (p.iBufEnd + nCopy - p.iBufStart))
            (p.iWriteOff + p.iBufStart) })
        (show FileWriter.Holds _ (bytes ++ data.take nCopy) from
          ⟨le_rfl, by simp only; omega, by simpa using hfile, by simpa [heq] using htk⟩) hrest
      exact ⟨p', hp', by rwa [happ], by rw [hl, hblen]⟩
    · rw [if_neg hfull]
      obtain ⟨p', hp', hh, hl⟩ := ih (p := { p with aBuffer, iBufEnd := p.iBufEnd + nCopy })
        (show FileWriter.Holds _ (bytes ++ data.take nCopy) from
          ⟨by simp only; omega, by simp only; omega, h.file, heq⟩) hrest
      exact ⟨p', hp', by rwa [happ], by rw [hl, hblen]⟩

theorem write_spec (h : p.Holds bytes) (data : Bytes) :
    ∃ p', fileWriterWrite p data = some p' ∧ p'.Holds (bytes ++ data) := by
  obtain ⟨p', hp', hh, -⟩ := writeLoop_spec data.length h le_rfl
  exact ⟨p', hp', hh⟩

theorem finish_spec (h : p.Holds bytes) :
    ∃ f, fileWriterFinish p = some (f, bytes.length) ∧ f.take bytes.length = bytes := by
  obtain ⟨h₁, h₂⟩ := take_flush h
  unfold fileWriterFinish
  by_cases hlt : p.iBufStart < p.iBufEnd
  · rw [if_pos hlt, h₁, h.length]
    exact ⟨_, rfl, h.length ▸ h₂⟩
  · have hb := h.eq
    have hl := h.length
    have hs := h.start_le
    rw [Nat.sub_eq_zero_of_le (by omega), List.take_zero, List.append_nil] at hb
    rw [if_neg hlt, hl, ← hb]
    refine ⟨p.pFile, rfl, ?_⟩
    congr 1
    omega

end Writer

/-! The runs. -/

/-- A record with its size before it. -/
def record (r : Bytes) : Bytes := sqlite3PutVarint r.length ++ r

def content (run : List Bytes) : Bytes := run.flatMap record

/-- A run with the size of its content before it. -/
def pma (run : List Bytes) : Bytes := sqlite3PutVarint (content run).length ++ content run

section Runs

variable {r : Bytes} {run run' : List Bytes} {writer : FileWriter} {bytes : Bytes}

@[simp] theorem content_nil : content [] = [] := rfl

@[simp] theorem content_cons : content (r :: run) = record r ++ content run := List.flatMap_cons

theorem length_record (hr : r.length < 2 ^ 64) :
    (record r).length = sqlite3VarintLen r.length + r.length := by
  rw [record, List.length_append, length_putVarint hr]

theorem record_ne_nil (hr : r.length < 2 ^ 64) : 0 < (record r).length := by
  have := varintLen_pos r.length
  rw [length_record hr]
  omega

theorem length_content_perm (h : run.Perm run') : (content run).length = (content run').length := by
  rw [content, content, List.length_flatMap, List.length_flatMap]
  exact (h.map _).sum_nat

theorem length_le_content (hr : ∀ r ∈ run, r.length < 2 ^ 64) : run.length ≤ (content run).length := by
  induction run with
  | nil => simp
  | cons r run ih =>
    have h₁ := record_ne_nil (hr r List.mem_cons_self)
    have h₂ := ih fun r hm => hr r (List.mem_cons_of_mem _ hm)
    rw [content_cons, List.length_append, List.length_cons]
    omega

theorem writeRecords_spec (h : writer.Holds bytes) (run : List Bytes) :
    ∃ writer', writeRecords writer run = some writer' ∧ writer'.Holds (bytes ++ content run) := by
  induction run generalizing writer bytes with
  | nil => exact ⟨writer, rfl, by simpa using h⟩
  | cons r run ih =>
    obtain ⟨w₁, hw₁, h₁⟩ := write_spec h (sqlite3PutVarint r.length)
    obtain ⟨w₂, hw₂, h₂⟩ := write_spec h₁ r
    obtain ⟨w₃, hw₃, h₃⟩ := ih h₂
    refine ⟨w₃, ?_, by simpa [record] using h₃⟩
    simp only [writeRecords, fileWriterWriteVarint, hw₁, hw₂, hw₃, Option.bind_eq_bind, Option.bind_some]

variable {U : Type} {db : Db U} {K : Bytes → Prop} {le : Bytes → Bytes → Bool} {s : VdbeSorter U}

/-- The list of records goes to the end of the file as one sorted run. -/
theorem listToPMA_spec (h : db.pKeyInfo.Compares K le) (hdb : 0 < db.pageSize) (hK : ∀ y ∈ s.pRecord, K y)
    (hsize : s.nInMemory = (content s.pRecord).length) (hpos : 0 < s.nInMemory) (hmax : s.nInMemory < 2 ^ 31)
    (hr : ∀ r ∈ s.pRecord, r.length < 2 ^ 64) (hoff : s.iWriteOff ≤ (s.pTemp1.getD []).length) :
    ∃ run pUnpacked f, StableSort K le s.pRecord.reverse run ∧
      vdbeSorterListToPMA db s = some { s with
        pTemp1 := some f, iWriteOff := s.iWriteOff + (pma run).length, nPMA := s.nPMA + 1, pRecord := [], pUnpacked } ∧
      f.take (s.iWriteOff + (pma run).length) = (s.pTemp1.getD []).take s.iWriteOff ++ pma run := by
  have hlen := length_le_content hr
  obtain ⟨run, pUnpacked, hsort, hrun⟩ := sort_spec h s hK (by omega)
  have hcontent : (content run).length = s.nInMemory := by
    rw [hsize]
    exact length_content_perm (hrun.perm.trans (List.reverse_perm _))
  obtain ⟨w₁, hw₁, h₁⟩ := write_spec (holds_init db.raw hdb hoff) (sqlite3PutVarint s.nInMemory)
  obtain ⟨w₂, hw₂, h₂⟩ := writeRecords_spec h₁ run
  obtain ⟨f, hf, htake⟩ := finish_spec h₂
  have hbytes : (s.pTemp1.getD []).take s.iWriteOff ++ sqlite3PutVarint s.nInMemory ++ content run =
      (s.pTemp1.getD []).take s.iWriteOff ++ pma run := by
    rw [pma, hcontent, List.append_assoc]
  have hbl : ((s.pTemp1.getD []).take s.iWriteOff ++ pma run).length = s.iWriteOff + (pma run).length := by
    rw [List.length_append, List.length_take, min_eq_left hoff]
  rw [hbytes, hbl] at hf htake
  refine ⟨run, pUnpacked, f, hrun, ?_, htake⟩
  rw [vdbeSorterListToPMA, if_neg (by omega), hsort]
  simp only [fileWriterWriteVarint, hw₁, hw₂, hf, Option.bind_eq_bind, Option.bind_some]

end Runs

end Sqlite.Sorter

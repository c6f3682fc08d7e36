import Sqlite.Sorter.Runs

/-! The iterator of a run: what it reads page by page is the run. -/
namespace Sqlite.Sorter

open Foundation Record

/-- The rest of the page is in the buffer, as far as the iterator will read. -/
def VdbeSorterIter.Filled (p : VdbeSorterIter) (aBuffer data : Bytes) : Prop :=
  (aBuffer.drop (p.iReadOff % p.nBuffer)).take data.length = data.take (p.nBuffer - p.iReadOff % p.nBuffer)

/-- `data` is left for the iterator to read. -/
structure VdbeSorterIter.Reads (pFile : Bytes) (p : VdbeSorterIter) (data : Bytes) : Prop where
  pos : 0 < p.nBuffer
  length : p.aBuffer.length = p.nBuffer
  alloc : 0 < p.aAlloc.length
  eof : p.iReadOff + data.length = p.iEof
  file : p.iEof ≤ pFile.length
  -- the distance to the end is cast to an `int`
  small : p.iEof < 2 ^ 31
  eq : (pFile.drop p.iReadOff).take data.length = data
  filled : p.iReadOff % p.nBuffer ≠ 0 → p.Filled p.aBuffer data

/-- A read of `n` bytes changes the rest of the iterator only in its buffers. -/
structure VdbeSorterIter.Advance (p p' : VdbeSorterIter) (n : ℕ) : Prop where
  iReadOff : p'.iReadOff = p.iReadOff + n
  iEof : p'.iEof = p.iEof
  nKey : p'.nKey = p.nKey
  pFile : p'.pFile = p.pFile
  nBuffer : p'.nBuffer = p.nBuffer

section

open VdbeSorterIter

variable {pFile data d rest : Bytes} {p p' p'' : VdbeSorterIter} {n m : ℕ}

theorem VdbeSorterIter.Advance.trans (h : Advance p p' n) (h' : Advance p' p'' m) : Advance p p'' (n + m) :=
  ⟨by rw [h'.iReadOff, h.iReadOff, Nat.add_assoc], h'.iEof.trans h.iEof, h'.nKey.trans h.nKey,
    h'.pFile.trans h.pFile, h'.nBuffer.trans h.nBuffer⟩

theorem toInt_of_lt {x : ℤ} (h₀ : 0 ≤ x) (h : x < 2 ^ 31) : toInt x = x := by
  unfold toInt
  rw [Int.bmod_def]
  omega

theorem toSize_of_lt (h : n < 2 ^ 31) : toSize n = some n := by
  rw [toSize, toInt_of_lt (Int.natCast_nonneg n) (by exact_mod_cast h), if_pos (Int.natCast_nonneg n),
    Int.toNat_natCast]

/-- Only a prefix is left to read. -/
theorem VdbeSorterIter.Reads.prefix (h : Reads pFile p (data ++ rest)) :
    Reads pFile { p with iEof := p.iReadOff + data.length } data := by
  have heof := h.eof
  have hfile := h.file
  have hsmall := h.small
  rw [List.length_append] at heof
  refine ⟨h.pos, h.length, h.alloc, rfl, ?_, ?_, ?_, fun hne => ?_⟩
  · dsimp only
    omega
  · dsimp only
    omega
  · have heq := congrArg (List.take data.length) h.eq
    rwa [List.take_take, List.length_append, min_eq_left (Nat.le_add_right _ _), List.take_left] at heq
  · have heq := congrArg (List.take data.length) (h.filled hne)
    rwa [List.take_take, List.length_append, min_eq_left (Nat.le_add_right _ _), List.take_take, Nat.min_comm,
      ← List.take_take, List.take_left] at heq

/-- The page that is read at the start of a page, or is in the buffer already. -/
theorem fill_spec (h : Reads pFile p data) :
    ∃ aBuffer, fillBuffer pFile p = some aBuffer ∧ aBuffer.length = p.nBuffer ∧ p.Filled aBuffer data := by
  unfold fillBuffer
  by_cases h0 : p.iReadOff % p.nBuffer = 0
  · have heof := h.eof
    have hfile := h.file
    have hsmall := h.small
    rw [if_pos h0]
    have hint : toInt (p.iEof - p.iReadOff) = data.length := by
      rw [toInt_of_lt (by omega) (by omega)]
      omega
    have hread : (if (p.nBuffer : ℤ) < data.length then (p.nBuffer : ℤ) else data.length) =
        (min p.nBuffer data.length : ℕ) := by
      split <;> omega
    dsimp only
    have hlen : (data.take p.nBuffer).length = min p.nBuffer data.length := List.length_take
    have htake : (pFile.drop p.iReadOff).take (min p.nBuffer data.length) = data.take p.nBuffer := by
      rw [← List.take_take, h.eq]
    rw [hint, hread, sqlite3OsRead, if_pos ⟨by omega, by omega⟩, Int.toNat_natCast, htake]
    have hcpy := memcpy_eq p.aBuffer 0 (data.take p.nBuffer)
      (by rw [hlen, h.length]; omega)
    refine ⟨_, hcpy, (length_memcpy hcpy).trans h.length, ?_⟩
    unfold VdbeSorterIter.Filled
    rw [h0, List.drop_zero, Nat.sub_zero, List.take_zero, List.nil_append, hlen]
    obtain hle | hlt := le_or_gt p.nBuffer data.length
    · rw [min_eq_left hle, Nat.zero_add, List.drop_eq_nil_of_le (le_of_eq h.length), List.append_nil,
        List.take_take, min_eq_right hle]
    · rw [List.take_of_length_le (le_of_lt hlt), min_eq_right (le_of_lt hlt), List.take_left' rfl]
  · rw [if_neg h0]
    exact ⟨p.aBuffer, rfl, h.length, h.filled h0⟩

/-- The offset in the page after a read from the buffer. -/
theorem mod_advance {o nB : ℕ} (hpos : 0 < nB) (hn : n ≤ nB - o % nB) :
    (o + n) % nB = if n = nB - o % nB then 0 else o % nB + n := by
  have hlt := Nat.mod_lt o hpos
  rw [Nat.add_mod]
  split
  · next heq =>
    subst heq
    obtain h0 | h0 := Nat.eq_zero_or_pos (o % nB)
    · rw [h0, Nat.sub_zero, Nat.mod_self, Nat.zero_add, Nat.zero_mod]
    · rw [Nat.mod_eq_of_lt (a := nB - o % nB) (by omega), Nat.add_sub_cancel' (by omega), Nat.mod_self]
  · next hne => rw [Nat.mod_eq_of_lt (a := n) (by omega), Nat.mod_eq_of_lt (by omega)]

/-- After bytes of the buffer. -/
theorem VdbeSorterIter.Reads.advance {aBuffer aAlloc : Bytes} (h : Reads pFile p (d ++ rest))
    (hlen : aBuffer.length = p.nBuffer) (hf : p.Filled aBuffer (d ++ rest))
    (hn : d.length ≤ p.nBuffer - p.iReadOff % p.nBuffer) (ha : 0 < aAlloc.length) :
    Reads pFile { p with aBuffer, aAlloc, iReadOff := p.iReadOff + d.length } rest := by
  have heof := h.eof
  rw [List.length_append] at heof
  refine ⟨h.pos, hlen, ha, by dsimp only; omega, h.file, h.small, ?_, fun hne => ?_⟩
  · have heq := congrArg (List.drop d.length) h.eq
    rw [List.drop_take, List.drop_drop, List.drop_left, List.length_append, Nat.add_sub_cancel_left] at heq
    exact heq
  · unfold VdbeSorterIter.Filled
    dsimp only at hne ⊢
    rw [mod_advance h.pos hn] at hne ⊢
    rw [if_neg (fun he => hne (if_pos he))]
    have heq := congrArg (List.drop d.length) hf
    rw [List.drop_take, List.drop_take, List.drop_drop, List.drop_left, List.length_append,
      Nat.add_sub_cancel_left] at heq
    rw [heq]
    congr 1
    omega

theorem deref_filled {aBuffer : Bytes} {q : VdbeSorterIter} (hq : q.aBuffer = aBuffer)
    (hlen : aBuffer.length = p.nBuffer) (hpos : 0 < p.nBuffer) (hf : p.Filled aBuffer (d ++ rest))
    (hn : d.length ≤ p.nBuffer - p.iReadOff % p.nBuffer) :
    q.deref (.aBuffer (p.iReadOff % p.nBuffer)) d.length = some d := by
  have hlt := Nat.mod_lt p.iReadOff hpos
  have heq := congrArg (List.take d.length) hf
  rw [List.take_take, List.length_append, min_eq_left (Nat.le_add_right _ _), List.take_take, min_eq_left hn,
    List.take_left] at heq
  rw [deref, hq, bytesAt_eq (by omega), heq]

/-- A read from one page. -/
theorem iterRead_page (raw : ℕ → UInt8) (depth : ℕ) (h : Reads pFile p (d ++ rest))
    (hn : d.length ≤ p.nBuffer - p.iReadOff % p.nBuffer) :
    ∃ p' ptr, iterRead raw pFile (depth + 1) p d.length = some (p', ptr) ∧ p'.deref ptr d.length = some d ∧
      Reads pFile p' rest ∧ Advance p p' d.length ∧ p'.aAlloc = p.aAlloc := by
  obtain ⟨aBuffer, hfill, hlen, hf⟩ := fill_spec h
  refine ⟨{ p with aBuffer, iReadOff := p.iReadOff + d.length }, .aBuffer (p.iReadOff % p.nBuffer), ?_,
    deref_filled rfl hlen h.pos hf hn, h.advance hlen hf hn h.alloc, ⟨rfl, rfl, rfl, rfl, rfl⟩, rfl⟩
  simp only [iterRead, hfill, if_pos hn, Option.bind_eq_bind, Option.bind_some]

/-- The doubling stops before it leaves the range of an `int`. -/
theorem growLoop_spec {nByte : ℕ} (hmax : nByte ≤ 2 ^ 30) (n : ℕ) {nNew : ℕ} (hpos : 0 < nNew)
    (hn : nByte ≤ nNew + n) : ∃ k, growLoop nByte (n + 1) nNew = some k ∧ nByte ≤ k := by
  induction n generalizing nNew with
  | zero =>
    rw [growLoop, if_neg (by omega)]
    exact ⟨nNew, by simp, hn⟩
  | succ n ih =>
    rw [growLoop]
    by_cases hlt : nNew < nByte
    · rw [if_pos (by omega), toInt_of_lt (by omega) (by omega)]
      exact_mod_cast ih (show 0 < nNew * 2 by omega) (by omega)
    · rw [if_neg (by omega)]
      exact ⟨nNew, by simp, by omega⟩

theorem copyLoop_succ {read : VdbeSorterIter → ℕ → Option (VdbeSorterIter × Pointer)} {nByte nRem : ℕ}
    (h : nRem ≠ 0) : copyLoop read nByte (n + 1) nRem p = (do
      let nCopy := if p.nBuffer < nRem then p.nBuffer else nRem
      let (p, aNext) ← read p nCopy
      let data ← p.deref aNext nCopy
      let aAlloc ← memcpy p.aAlloc (nByte - nRem) data
      copyLoop read nByte n (nRem - nCopy) { p with aAlloc }) := by
  obtain _ | nRem := nRem
  · exact absurd rfl h
  · rfl

theorem copyLoop_nil (read : VdbeSorterIter → ℕ → Option (VdbeSorterIter × Pointer)) {nByte : ℕ} {done : Bytes}
    (h : Reads pFile p (d ++ rest)) (hd : d = []) (hdone : p.aAlloc.take done.length = done)
    (hlen : done.length + d.length = nByte) (halloc : nByte ≤ p.aAlloc.length) :
    ∃ p', copyLoop read nByte n d.length p = some p' ∧
      p'.aAlloc.take nByte = done ++ d ∧ nByte ≤ p'.aAlloc.length ∧ Reads pFile p' rest ∧ Advance p p' d.length := by
  subst hd
  refine ⟨p, by simp [copyLoop], ?_, halloc, h, ⟨rfl, rfl, rfl, rfl, rfl⟩⟩
  rw [← hlen, List.length_nil, Nat.add_zero, hdone, List.append_nil]

/-- Of `d` the bytes behind `done` are copied page by page. -/
theorem copyLoop_spec (raw : ℕ → UInt8) (depth : ℕ) {nByte : ℕ} {done : Bytes} (n : ℕ) (h : Reads pFile p (d ++ rest))
    (h0 : d = [] ∨ p.iReadOff % p.nBuffer = 0) (hdone : p.aAlloc.take done.length = done)
    (hlen : done.length + d.length = nByte) (halloc : nByte ≤ p.aAlloc.length) (hn : d.length ≤ n) :
    ∃ p', copyLoop (iterRead raw pFile (depth + 1)) nByte n d.length p = some p' ∧
      p'.aAlloc.take nByte = done ++ d ∧ nByte ≤ p'.aAlloc.length ∧ Reads pFile p' rest ∧ Advance p p' d.length := by
  induction n generalizing p d done with
  | zero => exact copyLoop_nil _ h (List.eq_nil_of_length_eq_zero (Nat.le_zero.mp hn)) hdone hlen halloc
  | succ n ih =>
    obtain hd | hpos := Nat.eq_zero_or_pos d.length
    · exact copyLoop_nil _ h (List.eq_nil_of_length_eq_zero hd) hdone hlen halloc
    have hmod := h0.resolve_left (List.ne_nil_of_length_pos hpos)
    have hnb := h.pos
    obtain ⟨nCopy, hc⟩ : ∃ k, (if p.nBuffer < d.length then p.nBuffer else d.length) = k := ⟨_, rfl⟩
    have hle : nCopy ≤ d.length ∧ nCopy ≤ p.nBuffer ∧ 0 < nCopy ∧ (nCopy = d.length ∨ nCopy = p.nBuffer) := by
      split at hc <;> omega
    obtain ⟨d₁, d₂, hd, hd₁⟩ : ∃ d₁ d₂ : Bytes, d = d₁ ++ d₂ ∧ d₁.length = nCopy :=
      ⟨_, _, (List.take_append_drop nCopy d).symm, by rw [List.length_take]; omega⟩
    subst hd
    rw [List.length_append] at hlen hn
    obtain ⟨p₁, ptr, hread, hderef, hr₁, hadv, hall⟩ := iterRead_page raw depth
      (show Reads pFile p (d₁ ++ (d₂ ++ rest)) by rwa [← List.append_assoc]) (by rw [hmod]; omega)
    have hnd : nByte - (d₁ ++ d₂).length = done.length := by rw [List.length_append]; omega
    obtain ⟨aAlloc, hcpy, htk, hblen⟩ := memcpy_append p₁.aAlloc done d₁ (by rwa [hall])
      (by rw [hall]; omega)
    have halen : aAlloc.length = p.aAlloc.length := by rw [hblen, hall]
    have hnext : d₂ = [] ∨ p₁.iReadOff % p₁.nBuffer = 0 := by
      rw [hadv.iReadOff, hadv.nBuffer]
      obtain hlast | hpage := hle.2.2.2
      · rw [List.length_append] at hlast
        exact .inl (List.eq_nil_of_length_eq_zero (by omega))
      · rw [hd₁, hpage, Nat.add_mod_right]
        exact .inr hmod
    obtain ⟨p', hloop, htk', hl, hr', hadv'⟩ := ih (p := { p₁ with aAlloc }) (d := d₂)
      ⟨hr₁.pos, hr₁.length, by dsimp only; omega, hr₁.eof, hr₁.file, hr₁.small, hr₁.eq, hr₁.filled⟩ hnext htk
      (by rw [List.length_append]; omega) (by dsimp only; omega) (by omega)
    refine ⟨p', ?_, by rw [htk', List.append_assoc], hl, hr', ?_⟩
    · rw [copyLoop_succ (by omega)]
      dsimp only
      rw [hc, ← hd₁, hread]
      simp only [hderef, hnd, hcpy, Option.bind_eq_bind, Option.bind_some]
      rw [List.length_append, Nat.add_sub_cancel_left]
      exact hloop
    · rw [List.length_append]
      exact hadv.trans ⟨hadv'.1, hadv'.2, hadv'.3, hadv'.4, hadv'.5⟩

theorem growAlloc_spec (raw : ℕ → UInt8) {nByte : ℕ} (ha : 0 < p.aAlloc.length) (hmax : nByte ≤ 2 ^ 30) :
    ∃ aAlloc, growAlloc raw p nByte = some aAlloc ∧ nByte ≤ aAlloc.length ∧ 0 < aAlloc.length := by
  unfold growAlloc
  by_cases hsmall : p.aAlloc.length < nByte
  · rw [if_pos hsmall, toInt_of_lt (by omega) (by omega)]
    obtain ⟨k, hk, hle⟩ := growLoop_spec hmax (nByte - 1) (show 0 < p.aAlloc.length * 2 by omega) (by omega)
    rw [Nat.sub_add_cancel (by omega)] at hk
    push_cast at hk
    rw [hk]
    have hlen : (p.aAlloc ++ sqlite3DbMallocRaw raw (k - p.aAlloc.length)).length =
        p.aAlloc.length + (k - p.aAlloc.length) := by rw [List.length_append, length_malloc]
    exact ⟨_, rfl, by omega, by omega⟩
  · rw [if_neg hsmall]
    exact ⟨_, rfl, by omega, ha⟩

/-- A read of `d`, from one page or from several. -/
theorem iterRead_spec (raw : ℕ → UInt8) (h : Reads pFile p (d ++ rest)) (hmax : d.length ≤ 2 ^ 30) :
    ∃ p' ptr, vdbeSorterIterRead raw pFile p d.length = some (p', ptr) ∧ p'.deref ptr d.length = some d ∧
      Reads pFile p' rest ∧ Advance p p' d.length := by
  obtain hle | hlt := le_or_gt d.length (p.nBuffer - p.iReadOff % p.nBuffer)
  · obtain ⟨p', ptr, h₁, h₂, h₃, h₄, -⟩ := iterRead_page raw 1 h hle
    exact ⟨p', ptr, h₁, h₂, h₃, h₄⟩
  have hmod := Nat.mod_lt p.iReadOff h.pos
  obtain ⟨aBuffer, hfill, hlen, hf⟩ := fill_spec h
  obtain ⟨d₁, d₂, hd, hd₁⟩ : ∃ d₁ d₂ : Bytes, d = d₁ ++ d₂ ∧ d₁.length = p.nBuffer - p.iReadOff % p.nBuffer :=
    ⟨_, _, (List.take_append_drop (p.nBuffer - p.iReadOff % p.nBuffer) d).symm, by rw [List.length_take]; omega⟩
  subst hd
  have hdl : (d₁ ++ d₂).length = d₁.length + d₂.length := List.length_append
  rw [List.append_assoc] at h hf
  have hderef : bytesAt aBuffer (p.iReadOff % p.nBuffer) d₁.length = some d₁ :=
    deref_filled (q := { p with aBuffer }) rfl hlen h.pos hf (by omega)
  obtain ⟨aAlloc, hgrow, hroom, hpos⟩ := growAlloc_spec raw (p := { p with aBuffer }) h.alloc hmax
  obtain ⟨aAlloc₁, hcpy, htk, hal⟩ := memcpy_append aAlloc [] d₁ rfl
    (by rw [List.length_nil]; omega)
  have hr₁ := h.advance hlen hf (by omega) (show 0 < aAlloc₁.length by omega)
  have hnext : d₂ = [] ∨ (p.iReadOff + d₁.length) % p.nBuffer = 0 := by
    rw [mod_advance h.pos (by omega), if_pos hd₁]
    exact .inr rfl
  obtain ⟨p', hloop, htk', hl, hr', hadv'⟩ := copyLoop_spec raw 0 d₂.length hr₁ hnext htk
    (show ([] ++ d₁ : Bytes).length + d₂.length = (d₁ ++ d₂).length by simp) (by dsimp only; omega) le_rfl
  refine ⟨p', .aAlloc, ?_, ?_, hr', ?_⟩
  · rw [List.length_nil] at hcpy
    rw [hd₁] at hderef hloop
    have hnRem : (d₁ ++ d₂).length - (p.nBuffer - p.iReadOff % p.nBuffer) = d₂.length := by omega
    rw [vdbeSorterIterRead, iterRead]
    simp only [hfill, if_neg (not_le.mpr hlt), hgrow, hderef, hcpy, hnRem, Option.bind_eq_bind, Option.bind_some]
    rw [Nat.zero_add] at hloop
    rw [hloop, Option.bind_some]
  · rw [deref, bytesAt_eq (by omega), List.drop_zero, htk', List.nil_append]
  · rw [hdl]
    exact (show Advance p { p with aBuffer, aAlloc := aAlloc₁, iReadOff := p.iReadOff + d₁.length } d₁.length from
      ⟨rfl, rfl, rfl, rfl, rfl⟩).trans hadv'

/-! Numbers. -/

theorem putVarint_bytes {v : ℕ} (hv : v < 2 ^ 31) : ∃ hi lo, sqlite3PutVarint v = hi ++ [lo] ∧
    (∀ b ∈ hi, 128 ≤ b.toNat) ∧ lo.toNat < 128 ∧ hi.length ≤ 8 := by
  refine ⟨putHigh 8 (v / 128), .ofNat (v % 128), ?_, high_of_mem_putHigh, ?_, ?_⟩
  · rw [putVarint_eq (by omega), if_neg (by omega)]
  · rw [UInt8.toNat_ofNat']
    omega
  · exact (length_putHigh_le (n := 8) (k := 8) (by omega))

theorem and_high (b : UInt8) : b &&& 0x80 = 0 ↔ b.toNat < 128 := by
  rw [← UInt8.toNat_inj, UInt8.toNat_and]
  have h := and_flag b.toNat
  have hlt := b.toNat_lt
  simp only [UInt8.reduceToNat]
  omega

/-- One round of the loop. -/
theorem varintLoop_step (raw : ℕ → UInt8) {aVarint done : Bytes} {b : UInt8} (n : ℕ) (h : Reads pFile p (b :: rest))
    (hdone : aVarint.take done.length = done) (hlen : aVarint.length = 16) (hmax : done.length < 16) :
    ∃ p' aVarint', varintLoop raw pFile (n + 1) done.length aVarint p =
        (if b &&& 0x80 = 0 then some (p', aVarint') else varintLoop raw pFile n (done ++ [b]).length aVarint' p') ∧
      aVarint'.take (done ++ [b]).length = done ++ [b] ∧ aVarint'.length = 16 ∧ Reads pFile p' rest ∧
      Advance p p' 1 := by
  obtain ⟨p', ptr, hread, hderef, hr, hadv⟩ := iterRead_spec raw (d := [b]) h (by simp)
  obtain ⟨aVarint', hcpy, htk, hl⟩ := memcpy_append aVarint done [b] hdone (by rw [List.length_singleton]; omega)
  refine ⟨p', aVarint', ?_, htk, hl.trans hlen, hr, hadv⟩
  have hand : done.length &&& 0xf = done.length := (and_low _ 4).trans (Nat.mod_eq_of_lt hmax)
  rw [List.length_singleton] at hread hderef
  simp only [varintLoop, hread, hderef, hand, hcpy, Option.bind_eq_bind, Option.bind_some, List.length_append,
    List.length_singleton]

/-- The loop stops behind the first byte without the high bit. -/
theorem varintLoop_spec (raw : ℕ → UInt8) {hi aVarint done : Bytes} {lo : UInt8} (n : ℕ)
    (h : Reads pFile p (hi ++ [lo] ++ rest)) (hhi : ∀ b ∈ hi, 128 ≤ b.toNat) (hlo : lo.toNat < 128)
    (hdone : aVarint.take done.length = done) (hlen : aVarint.length = 16) (hmax : done.length + hi.length < 16)
    (hn : hi.length < n) :
    ∃ p' aVarint', varintLoop raw pFile n done.length aVarint p = some (p', aVarint') ∧
      aVarint'.take (done ++ hi ++ [lo]).length = done ++ hi ++ [lo] ∧ Reads pFile p' rest ∧
      Advance p p' (hi.length + 1) := by
  obtain ⟨n, rfl⟩ := Nat.exists_eq_succ_of_ne_zero (Nat.ne_zero_of_lt hn)
  induction hi generalizing n p done aVarint with
  | nil =>
    obtain ⟨p', aVarint', heq, htk, -, hr, hadv⟩ := varintLoop_step raw (b := lo) n h hdone hlen
      (by simpa using hmax)
    rw [if_pos ((and_high lo).mpr hlo)] at heq
    exact ⟨p', aVarint', heq, by simpa using htk, hr, hadv⟩
  | cons b hi ih =>
    have hb := hhi b List.mem_cons_self
    rw [List.length_cons] at hmax hn
    obtain ⟨p₁, aVarint₁, heq, htk, hl, hr, hadv⟩ := varintLoop_step raw n h hdone hlen (by omega)
    rw [if_neg (fun h0 => by have := (and_high b).mp h0; omega)] at heq
    obtain ⟨n, rfl⟩ := Nat.exists_eq_succ_of_ne_zero (show n ≠ 0 by omega)
    obtain ⟨p', aVarint', heq', htk', hr', hadv'⟩ := ih hr
      (fun b hm => hhi b (List.mem_cons_of_mem _ hm)) htk hl
      (by rw [List.length_append, List.length_singleton]; omega) n (by omega)
    refine ⟨p', aVarint', heq.trans heq', by simpa using htk', hr', ?_⟩
    rw [List.length_cons, Nat.add_comm (hi.length + 1)]
    exact hadv.trans hadv'

/-- A number is read from the buffer if nine bytes of the page are left, else byte by byte. -/
theorem iterVarint_spec (raw : ℕ → UInt8) {v : ℕ} (hv : v < 2 ^ 31) (h : Reads pFile p (sqlite3PutVarint v ++ rest)) :
    ∃ p', vdbeSorterIterVarint raw pFile p = some (p', v) ∧ Reads pFile p' rest ∧
      Advance p p' (sqlite3PutVarint v).length := by
  have hget : ∀ {bytes : Bytes}, bytes.take (sqlite3PutVarint v).length = sqlite3PutVarint v →
      sqlite3GetVarint bytes = some (v, (sqlite3PutVarint v).length) := by
    intro bytes hb
    rw [← List.take_append_drop (sqlite3PutVarint v).length bytes, hb, getVarint_eq_format,
      getVarint_putVarint (by omega)]
  have h9 : (sqlite3PutVarint v).length ≤ 9 := by
    rw [length_putVarint (by omega)]
    exact varintLen_le_nine v
  unfold vdbeSorterIterVarint
  by_cases hfast : p.iReadOff % p.nBuffer ≠ 0 ∧ 9 ≤ p.nBuffer - p.iReadOff % p.nBuffer
  · have hf := h.filled hfast.1
    have heq := congrArg (List.take (sqlite3PutVarint v).length) hf
    rw [List.take_take, List.length_append, min_eq_left (Nat.le_add_right _ _), List.take_take,
      min_eq_left (by omega), List.take_left] at heq
    rw [if_pos hfast, hget heq]
    have hr := h.advance h.length hf (by omega) h.alloc
    exact ⟨_, rfl, hr, ⟨rfl, rfl, rfl, rfl, rfl⟩⟩
  · obtain ⟨hi, lo, hput, hhi, hlo, hlen⟩ := putVarint_bytes hv
    have hfile : hi.length < pFile.length := by
      have h₁ := h.eof
      have h₂ := h.file
      rw [hput] at h₁
      simp only [List.length_append, List.length_singleton] at h₁
      omega
    obtain ⟨p', aVarint, hloop, htk, hr, hadv⟩ := varintLoop_spec raw pFile.length (hput ▸ h) hhi hlo
      (show (sqlite3DbMallocRaw raw 16).take ([] : Bytes).length = [] from rfl) (length_malloc raw 16)
      (by rw [List.length_nil]; omega) hfile
    rw [List.nil_append, ← hput] at htk
    rw [List.length_nil] at hloop
    refine ⟨p', ?_, hr, ?_⟩
    · rw [if_neg hfast]
      simp only [hloop, hget htk, Option.bind_eq_bind, Option.bind_some]
    · rwa [hput, List.length_append, List.length_singleton]

/-! Records. -/

/-- The records of `run` are still to come from the iterator, the first one is its key. -/
def VdbeSorterIter.Holds (pFile : Bytes) (p : VdbeSorterIter) : List Bytes → Prop
  | [] => p = .vdbeSorterIterZero
  | r :: run => p.pFile = true ∧ p.nKey = r.length ∧ p.key = some r ∧ Reads pFile p (content run)

/-- The head of a run is what the iterator has as its key. -/
theorem iterNext_spec (raw : ℕ → UInt8) {run : List Bytes} (h : Reads pFile p (content run)) (hp : p.pFile = true)
    (hmax : ∀ r ∈ run, r.length ≤ 2 ^ 30) :
    ∃ p', vdbeSorterIterNext raw pFile p = some p' ∧ p'.Holds pFile run ∧ (run ≠ [] → p'.iEof = p.iEof) := by
  have heof := h.eof
  unfold vdbeSorterIterNext
  obtain _ | ⟨r, run⟩ := run
  · rw [content_nil, List.length_nil] at heof
    exact ⟨_, if_pos (by omega), rfl, fun hne => absurd rfl hne⟩
  · have hr := hmax r List.mem_cons_self
    have hlt : r.length < 2 ^ 31 := hr.trans_lt (by norm_num)
    have hpos := record_ne_nil (hlt.trans (by norm_num))
    rw [content_cons] at h heof
    rw [List.length_append] at heof
    rw [record, List.append_assoc] at h
    rw [if_neg (by omega)]
    obtain ⟨p₁, hvar, hr₁, hadv₁⟩ := iterVarint_spec raw hlt h
    have hr₁' : Reads pFile { p₁ with nKey := r.length } (r ++ content run) :=
      ⟨hr₁.pos, hr₁.length, hr₁.alloc, hr₁.eof, hr₁.file, hr₁.small, hr₁.eq, hr₁.filled⟩
    obtain ⟨p₂, ptr, hread, hderef, hr₂, hadv₂⟩ := iterRead_spec raw hr₁' hr
    refine ⟨{ p₂ with aKey := ptr }, ?_, ⟨?_, ?_, ?_, ?_⟩, fun _ => ?_⟩
    · rw [hvar, Option.bind_eq_bind, Option.bind_some]
      dsimp only
      rw [toSize_of_lt hlt, Option.bind_eq_bind, Option.bind_some, hread, Option.bind_eq_bind, Option.bind_some]
    · exact (hadv₂.pFile.trans hadv₁.pFile).trans hp
    · exact hadv₂.nKey
    · rw [VdbeSorterIter.key]
      dsimp only
      rw [hadv₂.nKey]
      exact hderef
    · exact ⟨hr₂.pos, hr₂.length, hr₂.alloc, hr₂.eof, hr₂.file, hr₂.small, hr₂.eq, hr₂.filled⟩
    · exact hadv₂.iEof.trans hadv₁.iEof

/-- The iterator of the run at `iStart`. -/
theorem iterInit_spec (raw : ℕ → UInt8) {nBuf iWriteOff iStart : ℕ} {run : List Bytes} (hnb : 0 < nBuf)
    (hw : iWriteOff ≤ pFile.length) (hsmall : iWriteOff < 2 ^ 31)
    (heq : (pFile.take iWriteOff).drop iStart = pma run ++ rest) (hmax : ∀ r ∈ run, r.length ≤ 2 ^ 30) (nByte : ℕ) :
    ∃ p', vdbeSorterIterInit raw pFile nBuf iWriteOff iStart nByte = some (p', nByte + (content run).length) ∧
      p'.Holds pFile run ∧ (run ≠ [] → p'.iEof = iStart + (pma run).length) := by
  generalize hdata : pma run ++ rest = data at heq
  have hlen : data.length = iWriteOff - iStart := by
    rw [← heq, List.length_drop, List.length_take, min_eq_left hw]
  have hcl : (content run).length < 2 ^ 31 := by
    rw [← hdata, List.length_append, pma, List.length_append] at hlen
    omega
  have hpos : 0 < data.length := by
    have hv := varintLen_pos (content run).length
    rw [← hdata, List.length_append, pma, List.length_append, length_putVarint (hcl.trans (by norm_num))]
    omega
  have htake : (pFile.drop iStart).take data.length = data := by rw [hlen, ← List.drop_take, heq]
  have hmod := Nat.mod_lt iStart hnb
  -- the rest of the page at `iStart`
  obtain ⟨aBuffer, hbuf, hblen, hfill⟩ : ∃ aBuffer, (if iStart % nBuf ≠ 0 then do
        let nRead := nBuf - iStart % nBuf
        let nRead := if iWriteOff < iStart + nRead then iWriteOff - iStart else nRead
        memcpy (sqlite3DbMallocRaw raw nBuf) (iStart % nBuf) (← sqlite3OsRead pFile nRead iStart)
      else some (sqlite3DbMallocRaw raw nBuf)) = some aBuffer ∧ aBuffer.length = nBuf ∧
      (iStart % nBuf ≠ 0 → (aBuffer.drop (iStart % nBuf)).take data.length = data.take (nBuf - iStart % nBuf)) := by
    by_cases h0 : iStart % nBuf ≠ 0
    · have hread : (if iWriteOff < iStart + (nBuf - iStart % nBuf) then iWriteOff - iStart
          else nBuf - iStart % nBuf) = min (nBuf - iStart % nBuf) data.length := by
        split <;> omega
      have hsrc : (pFile.drop iStart).take (min (nBuf - iStart % nBuf) data.length) =
          data.take (nBuf - iStart % nBuf) := by rw [← List.take_take, htake]
      have hslen : (data.take (nBuf - iStart % nBuf)).length = min (nBuf - iStart % nBuf) data.length :=
        List.length_take
      have hcpy := memcpy_eq (sqlite3DbMallocRaw raw nBuf) (iStart % nBuf)
        (data.take (nBuf - iStart % nBuf)) (by rw [hslen, length_malloc]; omega)
      rw [if_pos h0]
      dsimp only
      rw [hread, sqlite3OsRead, if_pos ⟨by omega, by omega⟩, Int.toNat_natCast, hsrc]
      refine ⟨_, hcpy, (length_memcpy hcpy).trans (length_malloc raw nBuf), fun _ => ?_⟩
      rw [List.append_assoc, List.drop_left' (by rw [List.length_take, length_malloc]; omega), hslen]
      obtain hle | hlt := le_or_gt (nBuf - iStart % nBuf) data.length
      · rw [min_eq_left hle, Nat.add_sub_cancel' (le_of_lt hmod), List.drop_eq_nil_of_le (by rw [length_malloc]),
          List.append_nil, List.take_take, min_eq_right hle]
      · rw [List.take_of_length_le (le_of_lt hlt), List.take_left' rfl]
    · rw [if_neg h0]
      exact ⟨_, rfl, length_malloc raw nBuf, fun h => absurd h h0⟩
  have hr : Reads pFile
      { iReadOff := iStart, iEof := iWriteOff, nKey := 0, pFile := true, aAlloc := sqlite3DbMallocRaw raw 128
        aKey := .aAlloc, aBuffer, nBuffer := nBuf } data :=
    ⟨hnb, hblen, by rw [length_malloc]; omega, by dsimp only; omega, hw, hsmall, htake, hfill⟩
  rw [← hdata, pma, List.append_assoc] at hr
  obtain ⟨p₁, hvar, hr₁, hadv₁⟩ := iterVarint_spec raw hcl hr
  obtain ⟨p', hnext, hh, heof⟩ := iterNext_spec raw hr₁.prefix hadv₁.pFile hmax
  refine ⟨p', ?_, hh, fun hne => ?_⟩
  · unfold vdbeSorterIterInit
    dsimp only at hbuf ⊢
    rw [hbuf, Option.bind_eq_bind, Option.bind_some, hvar, Option.bind_eq_bind, Option.bind_some, hnext,
      Option.bind_eq_bind, Option.bind_some]
  · rw [heof hne, pma, List.length_append, hadv₁.iReadOff, Nat.add_assoc]

end

end Sqlite.Sorter

import Mathlib.Algebra.Ring.Int.Defs
import Mathlib.Data.List.Induction
import Sqlite.Doclist.Format

/-! Iteration over a doclist, forwards and backwards. -/
namespace Sqlite.Doclist

open Fts (sqlite3Fts3PutVarint sqlite3Fts3GetVarint)

/-- The variables of the caller: `*ppIter` is an offset into the doclist, or null. -/
structure Iter where
  ppIter : Option ℕ := none
  iDocid : ℤ := 0
  nList : ℤ := 0
  bEof : Bool := false
  deriving DecidableEq

def sign (bDescIdx : Bool) : ℤ := if bDescIdx then -1 else 1

/-- The forward scan for the last row: its docid, and the bytes from its position list on. -/
def lastLoop (bDescIdx : Bool) : ℕ → ℤ → ℤ → List ℕ → List ℕ → Option (ℤ × List ℕ)
  | 0, _, _, _, _ => none
  | n + 1, iMul, iDocid, pNext, pDocid =>
    if pDocid = [] then some (iDocid, pNext)
    else do
      let (iDelta, pNext) ← sqlite3Fts3GetVarint pDocid
      let (_, pDocid) ← fts3PoslistCopy pNext
      lastLoop bDescIdx n (sign bDescIdx) (i64 (iDocid + iMul * iDelta)) pNext
        (pDocid.dropWhile (· = 0))

/-- The loop of `fts3GetReverseVarint`, with the number of bytes up to and including `*p`. -/
def reverseLoop (a : List ℕ) : ℕ → Option ℕ
  | 0 => some 0
  | k + 1 => do
    let b ← a[k]?
    if b &&& 0x80 ≠ 0 then reverseLoop a k else return k + 1

/-- The number that ends before offset `pp`, and the offset where it starts. -/
def fts3GetReverseVarint (a : List ℕ) : ℕ → Option (ℕ × ℕ)
  | 0 => none
  | k + 1 => do
    let p ← reverseLoop a k
    let (iVal, _) ← sqlite3Fts3GetVarint (a.drop p)
    return (iVal, p)

/-- The first loop of `fts3ReversePoslist`, over the zeros at the end: `p` and `c` after it. -/
def zerosLoop (a : List ℕ) : ℕ → ℕ → Option (ℕ × ℕ)
  | 0, c => some (0, c)
  | p + 1, _ => do
    let c ← a[p + 1]?
    if c = 0 then zerosLoop a p c else return (p, c)

/-- The second loop of `fts3ReversePoslist`, back to a zero that is not the end of a number. -/
def entryLoop (a : List ℕ) : ℕ → ℕ → Option ℕ
  | 0, _ => some 0
  | p + 1, c => do
    let b ← a[p + 1]?
    if (b &&& 0x80) ||| c ≠ 0 then entryLoop a p b else return p + 1

/-- The last loop of `fts3ReversePoslist`: the number of bytes it steps over. -/
def tailLoop : List ℕ → Option ℕ
  | [] => none
  | b :: q => if b &&& 0x80 ≠ 0 then (tailLoop q).map (· + 1) else some 1

/-- The start of the position list that ends at offset `pp`. -/
def fts3ReversePoslist (a : List ℕ) : ℕ → Option ℕ
  | p + 2 => do
    let (p, c) ← zerosLoop a p 0
    let p ← entryLoop a p c
    let p := if p > 0 then p + 2 else p
    let n ← tailLoop (a.drop p)
    return p + n
  | _ => none

def sqlite3Fts3DoclistPrev (bDescIdx : Bool) (aDoclist : List ℕ) (s : Iter) : Option Iter :=
  match s.ppIter with
  | none => do
    let (iDocid, pNext) ← lastLoop bDescIdx (aDoclist.length + 1) 1 0 [] aDoclist
    return { s with ppIter := some (aDoclist.length - pNext.length), iDocid, nList := pNext.length }
  | some p => do
    let (iDelta, p) ← fts3GetReverseVarint aDoclist p
    let iDocid := i64 (s.iDocid - sign bDescIdx * iDelta)
    if p = 0 then return { s with ppIter := some p, iDocid, bEof := true }
    else do
      let q ← fts3ReversePoslist aDoclist p
      return { s with ppIter := some q, iDocid, nList := p - q }

def sqlite3Fts3DoclistNext (bDescIdx : Bool) (aDoclist : List ℕ) (s : Iter) : Option Iter :=
  match s.ppIter with
  | none => do
    let (v, p) ← sqlite3Fts3GetVarint aDoclist
    return { s with ppIter := some (aDoclist.length - p.length), iDocid := i64 v }
  | some p => do
    let (_, p) ← fts3PoslistCopy (aDoclist.drop p)
    if p = [] then return { s with ppIter := some aDoclist.length, bEof := true }
    else do
      let (iVar, p) ← sqlite3Fts3GetVarint p
      return { s with
        ppIter := some (aDoclist.length - p.length)
        iDocid := i64 (s.iDocid + sign bDescIdx * iVar) }

/-- The rows that at most `n` calls of `sqlite3Fts3DoclistNext` produce, up to the end of file. -/
def forward (bDescIdx : Bool) (a : List ℕ) : ℕ → Iter → Option (List (ℤ × List ℕ))
  | 0, _ => none
  | n + 1, s => do
    let s ← sqlite3Fts3DoclistNext bDescIdx a s
    if s.bEof then return []
    else do
      let (pList, _) ← fts3PoslistCopy (a.drop (s.ppIter.getD 0))
      let l ← forward bDescIdx a n s
      return (s.iDocid, pList) :: l

/-- The rows that at most `n` calls of `sqlite3Fts3DoclistPrev` produce, up to the end of file. -/
def backward (bDescIdx : Bool) (a : List ℕ) : ℕ → Iter → Option (List (ℤ × List ℕ))
  | 0, _ => none
  | n + 1, s => do
    let s ← sqlite3Fts3DoclistPrev bDescIdx a s
    if s.bEof then return []
    else do
      let l ← backward bDescIdx a n s
      return (s.iDocid, (a.drop (s.ppIter.getD 0)).take s.nList.toNat) :: l

/-! A step of the iterators, on bytes that are well formed. -/

/-- What the iterators produce for a row. -/
def row (e : ℤ × Poslist) : ℤ × List ℕ := (e.1, poslistBytes e.2)

theorem docid_next {desc : Bool} {d e : ℤ} (h : -2 ^ 63 ≤ e ∧ e < 2 ^ 63) :
    i64 (d + sign desc * (delta desc (some d) e : ℤ)) = e := by
  cases desc
  · rw [sign, if_neg Bool.false_ne_true, one_mul]
    exact i64_add_u64_sub h.1 h.2
  · have := i64_sub_u64_sub (x := d) h.1 h.2
    rwa [sub_eq_add_neg, ← neg_one_mul] at this

theorem docid_prev {desc : Bool} {d e : ℤ} (h : -2 ^ 63 ≤ d ∧ d < 2 ^ 63) :
    i64 (e - sign desc * (delta desc (some d) e : ℤ)) = d := by
  cases desc
  · rw [sign, if_neg Bool.false_ne_true, one_mul]
    exact i64_sub_u64_sub h.1 h.2
  · have := i64_add_u64_sub (x := e) h.1 h.2
    rwa [← sub_neg_eq_add, ← neg_one_mul] at this

theorem docid_first {desc : Bool} {d : ℤ} (h : -2 ^ 63 ≤ d ∧ d < 2 ^ 63) :
    i64 (delta desc none d : ℤ) = d := by
  have := i64_add_u64_sub (x := 0) h.1 h.2
  rwa [zero_add, sub_zero] at this

theorem drop_length_sub {a rest : List ℕ} (h : rest <:+ a) :
    a.drop (a.length - rest.length) = rest := (List.suffix_iff_eq_drop.mp h).symm

theorem entriesBytes_ne_nil {desc : Bool} {prev : Option ℤ} {e : ℤ × Poslist} {l : Entries} :
    entriesBytes desc prev (e :: l) ≠ [] := by
  rw [entriesBytes, List.append_assoc]
  exact List.append_ne_nil_of_left_ne_nil (putVarint_ne_nil (delta_lt desc prev e.1)) _

theorem getVarint_entries (desc : Bool) (prev : Option ℤ) (e : ℤ × Poslist) (l : Entries) :
    sqlite3Fts3GetVarint (entriesBytes desc prev (e :: l)) =
      some (delta desc prev e.1, poslistBytes e.2 ++ entriesBytes desc (some e.1) l) := by
  rw [entriesBytes, List.append_assoc, Fts.getVarint_putVarint (delta_lt desc prev e.1)]

/-- The iterator is at the row `e`, and the rows `l` come after it. -/
structure At (desc : Bool) (a : List ℕ) (s : Iter) (e : ℤ × Poslist) (l : Entries) : Prop where
  pos : ∃ p, s.ppIter = some p ∧ a.drop p = poslistBytes e.2 ++ entriesBytes desc (some e.1) l
  docid : s.iDocid = e.1
  open_ : s.bEof = false

variable {desc : Bool} {a : List ℕ} {s : Iter} {e : ℤ × Poslist} {l : Entries}

theorem At.next_end (h : At desc a s e []) (he : IsPoslist e.2) :
    ∃ s', sqlite3Fts3DoclistNext desc a s = some s' ∧ s'.bEof = true := by
  obtain ⟨p, hp, hdrop⟩ := h.pos
  refine ⟨{ s with ppIter := some a.length, bEof := true }, ?_, rfl⟩
  rw [sqlite3Fts3DoclistNext, hp]
  simp only [hdrop, poslistCopy he, Option.bind_eq_bind, Option.bind_some, entriesBytes, if_true]
  rfl

theorem At.next {f : ℤ × Poslist} (h : At desc a s e (f :: l)) (he : IsPoslist e.2)
    (hf : -2 ^ 63 ≤ f.1 ∧ f.1 < 2 ^ 63) :
    ∃ s', sqlite3Fts3DoclistNext desc a s = some s' ∧ At desc a s' f l := by
  obtain ⟨p, hp, hdrop⟩ := h.pos
  have hsuffix : poslistBytes f.2 ++ entriesBytes desc (some f.1) l <:+ a := by
    have hmid : a.drop p <:+ a := List.drop_suffix p a
    rw [hdrop, entriesBytes] at hmid
    refine List.IsSuffix.trans ?_ hmid
    exact ⟨poslistBytes e.2 ++ sqlite3Fts3PutVarint (delta desc (some e.1) f.1), by
      simp only [List.append_assoc]⟩
  have hstep : sqlite3Fts3DoclistNext desc a s = some { s with
      ppIter := some (a.length - (poslistBytes f.2 ++ entriesBytes desc (some f.1) l).length)
      iDocid := i64 (s.iDocid + sign desc * (delta desc (some e.1) f.1 : ℤ)) } := by
    rw [sqlite3Fts3DoclistNext, hp]
    simp only [hdrop, poslistCopy he, Option.bind_eq_bind, Option.bind_some,
      getVarint_entries, entriesBytes_ne_nil, if_false]
    rfl
  have hdocid : i64 (s.iDocid + sign desc * (delta desc (some e.1) f.1 : ℤ)) = f.1 := by
    rw [h.docid, docid_next hf]
  exact ⟨_, hstep, ⟨_, rfl, drop_length_sub hsuffix⟩, hdocid, h.open_⟩

theorem At.read (h : At desc a s e l) (he : IsPoslist e.2) :
    fts3PoslistCopy (a.drop (s.ppIter.getD 0)) =
      some (poslistBytes e.2, entriesBytes desc (some e.1) l) := by
  obtain ⟨p, hp, hdrop⟩ := h.pos
  rw [hp, Option.getD_some, hdrop, poslistCopy he]

theorem At.forward (h : At desc a s e l) (hl : IsDoclist desc (e :: l)) {n : ℕ} (hn : l.length < n) :
    forward desc a n s = some (l.map row) := by
  induction l generalizing s e n with
  | nil =>
    obtain ⟨n, rfl⟩ : ∃ k, n = k + 1 := ⟨n - 1, by omega⟩
    obtain ⟨s', hs, heof⟩ := h.next_end (hl.poslists e List.mem_cons_self)
    rw [Doclist.forward, hs]
    simp [heof]
  | cons f l ih =>
    obtain ⟨n, rfl⟩ : ∃ k, n = k + 1 := ⟨n - 1, by omega⟩
    have hf : f ∈ e :: f :: l := List.mem_cons_of_mem e List.mem_cons_self
    obtain ⟨s', hs, h'⟩ := h.next (hl.poslists e List.mem_cons_self) (hl.fits f hf)
    have hrest := ih h' hl.of_cons (n := n) (by simpa using hn)
    rw [Doclist.forward, hs]
    simp [h'.open_, h'.read (hl.poslists f hf), hrest, h'.docid, row]

/-- Forwards, every row is produced, in the order of the doclist. -/
theorem forward_rows (hl : IsDoclist desc l) (hne : l ≠ []) {n : ℕ} (hn : l.length < n) :
    Doclist.forward desc (doclistBytes desc l) n {} = some (l.map row) := by
  obtain ⟨e, l, rfl⟩ := List.exists_cons_of_ne_nil hne
  obtain ⟨n, rfl⟩ : ∃ k, n = k + 1 := ⟨n - 1, by omega⟩
  have he := List.mem_cons_self (a := e) (l := l)
  have hsuffix : poslistBytes e.2 ++ entriesBytes desc (some e.1) l <:+
      doclistBytes desc (e :: l) :=
    ⟨sqlite3Fts3PutVarint (delta desc none e.1), by
      rw [doclistBytes, entriesBytes, List.append_assoc]⟩
  obtain ⟨s, hs, h⟩ : ∃ s, sqlite3Fts3DoclistNext desc (doclistBytes desc (e :: l)) {} = some s ∧
      At desc (doclistBytes desc (e :: l)) s e l := by
    have hstep : sqlite3Fts3DoclistNext desc (doclistBytes desc (e :: l)) {} = some {
        ppIter := some ((doclistBytes desc (e :: l)).length -
          (poslistBytes e.2 ++ entriesBytes desc (some e.1) l).length)
        iDocid := i64 (delta desc none e.1) } := by
      simp only [sqlite3Fts3DoclistNext, doclistBytes, getVarint_entries, Option.bind_eq_bind,
        Option.bind_some]
      rfl
    refine ⟨_, hstep, ⟨_, rfl, drop_length_sub hsuffix⟩, ?_, rfl⟩
    simp only [docid_first (hl.fits e he)]
  have hrest := h.forward hl (n := n) (by simpa using hn)
  rw [Doclist.forward, hs]
  simp [h.open_, h.read (hl.poslists e he), hrest, h.docid, row]

/-! The loops of `sqlite3Fts3DoclistPrev`, from what the bytes they meet are. -/

theorem low_byte : ∀ b < 128, b &&& 0x80 = 0 := fun b hb => (low_bits b hb).1

/-- Back over the high bytes of a number, to the byte after the low byte before it. -/
theorem reverseLoop_eq {m : ℕ} (hm : m = 0 ∨ ∃ b, a[m - 1]? = some b ∧ b < 128) :
    ∀ n, (∀ j < n, ∃ b, a[m + j]? = some b ∧ 128 ≤ b ∧ b < 256) → reverseLoop a (m + n) = some m
  | 0, _ => by
    rcases hm with rfl | ⟨b, hb, hlt⟩
    · rfl
    · cases m with
      | zero => rfl
      | succ m =>
        rw [Nat.add_sub_cancel] at hb
        rw [Nat.add_zero, reverseLoop, hb]
        simp [low_byte b hlt]
  | n + 1, h => by
    obtain ⟨b, hb, h1, h2⟩ := h n (Nat.lt_succ_self n)
    have hrest := reverseLoop_eq hm n fun j hj => h j (by omega)
    rw [← Nat.add_assoc, reverseLoop, hb]
    simp [(high_bits b h2 h1).1, hrest]

theorem or_ne_zero {b c : ℕ} (h : c ≠ 0) : b ||| c ≠ 0 := fun h' => h (Nat.or_eq_zero_iff.mp h').2

/-- Back over bytes that are not zero, to the start of the doclist. -/
theorem entryLoop_start : ∀ {i c : ℕ}, c ≠ 0 → (∀ k, 1 ≤ k → k ≤ i → ∃ b, a[k]? = some b ∧ b ≠ 0) →
    entryLoop a i c = some 0
  | 0, _, _, _ => rfl
  | i + 1, c, hc, h => by
    obtain ⟨b, hb, hne⟩ := h (i + 1) (by omega) le_rfl
    have hrest := entryLoop_start (i := i) hne fun k h1 h2 => h k h1 (by omega)
    rw [entryLoop, hb]
    simp [or_ne_zero hc, hrest]

/-- Back over bytes that are not zero, to the byte before the terminator at `m + 1`. -/
theorem entryLoop_stop {m : ℕ} (hm : a[m + 1]? = some 0)
    (hm' : m = 0 ∨ ∃ b, a[m]? = some b ∧ b < 128) :
    ∀ {i c : ℕ}, c ≠ 0 → (∀ k, m + 1 < k → k ≤ m + 1 + i → ∃ b, a[k]? = some b ∧ b ≠ 0) →
      entryLoop a (m + 1 + i) c = some m
  | 0, c, hc, _ => by
    rw [Nat.add_zero, entryLoop, hm]
    cases m with
    | zero => simp [hc, entryLoop]
    | succ m =>
      obtain ⟨b, hb, hlt⟩ := hm'.resolve_left (Nat.succ_ne_zero m)
      simp [hc, entryLoop, hb, low_byte b hlt]
  | i + 1, c, hc, h => by
    obtain ⟨b, hb, hne⟩ := h (m + 1 + (i + 1)) (by omega) le_rfl
    have hrest := entryLoop_stop hm hm' (i := i) hne fun k h1 h2 => h k h1 (by omega)
    rw [← Nat.add_assoc, entryLoop, Nat.add_assoc (m + 1), hb]
    simp [or_ne_zero hc, hrest]

theorem tailLoop_varint {v : ℕ} (hv : v < 2 ^ 64) (rest : List ℕ) :
    tailLoop (sqlite3Fts3PutVarint v ++ rest) = some (sqlite3Fts3PutVarint v).length := by
  obtain ⟨hi, lo, heq, hhi, hlo, -, -⟩ := (varint v hv).split
  rw [heq, List.append_assoc, List.singleton_append]
  clear heq
  induction hi with
  | nil => simp [tailLoop, low_byte lo hlo]
  | cons b hi ih =>
    obtain ⟨h1, h2⟩ := hhi b List.mem_cons_self
    rw [List.cons_append, tailLoop, (high_bits b h2 h1).1, if_pos (by decide),
      ih fun x hx => hhi x (List.mem_cons_of_mem b hx)]
    simp

/-! The bytes of a row: none is zero but the terminator, and the last before it is low. -/

theorem varint_nonzero {v : ℕ} (hv : v < 2 ^ 64) (hne : v ≠ 0) :
    ∀ b ∈ sqlite3Fts3PutVarint v, b ≠ 0 := by
  obtain ⟨hi, lo, heq, hhi, -, hlo, -⟩ := (varint v hv).split
  rw [heq]
  intro b hb
  rcases List.mem_append.mp hb with hb | hb
  · have := (hhi b hb).1
    omega
  · rw [List.mem_singleton.mp hb]
    exact hlo hne

theorem posBytes_nonzero : ∀ (prev : ℕ) (l : List ℕ), (∀ q ∈ l, q < 2 ^ 31) →
    ∀ b ∈ posBytes prev l, b ≠ 0
  | _, [], _, _, hb => absurd hb List.not_mem_nil
  | prev, q :: l, h, b, hb => by
    have hq := h q List.mem_cons_self
    rcases List.mem_append.mp hb with hb | hb
    · exact varint_nonzero (by omega) (by omega) b hb
    · exact posBytes_nonzero q l (fun x hx => h x (List.mem_cons_of_mem q hx)) b hb

theorem columnsBytes_nonzero {l : Poslist} (h : IsPoslist l) : ∀ b ∈ columnsBytes l, b ≠ 0 := by
  intro b hb
  obtain ⟨c, hc, hb⟩ := List.mem_flatMap.mp hb
  have hlt := h.column_lt c hc
  rcases List.mem_append.mp hb with hb | hb
  · rw [headerBytes] at hb
    split at hb
    · exact absurd hb List.not_mem_nil
    · rcases List.mem_cons.mp hb with rfl | hb
      · exact Nat.one_ne_zero
      · exact varint_nonzero (by omega) (by omega) b hb
  · exact posBytes_nonzero 0 c.2 (h.position_lt c hc) b hb

/-- The bytes end with a low one. -/
def EndsLow (l : List ℕ) : Prop := ∃ x y, l = x ++ [y] ∧ y < 128

theorem EndsLow.append_left {l : List ℕ} (h : EndsLow l) (l' : List ℕ) : EndsLow (l' ++ l) := by
  obtain ⟨x, y, rfl, hy⟩ := h
  exact ⟨l' ++ x, y, by rw [List.append_assoc], hy⟩

theorem EndsLow.varint {v : ℕ} (hv : v < 2 ^ 64) : EndsLow (sqlite3Fts3PutVarint v) := by
  obtain ⟨hi, lo, heq, -, hlo, -, -⟩ := (Doclist.varint v hv).split
  exact ⟨hi, lo, heq, hlo⟩

theorem EndsLow.posBytes : ∀ (prev : ℕ) (l : List ℕ), (∀ q ∈ l, q < 2 ^ 31) → l ≠ [] →
    EndsLow (posBytes prev l)
  | _, [], _, h => absurd rfl h
  | prev, [q], h, _ => by
    have hq := h q List.mem_cons_self
    rw [Doclist.posBytes, Doclist.posBytes, List.append_nil]
    exact EndsLow.varint (by omega)
  | prev, q :: r :: l, h, _ =>
    (EndsLow.posBytes q (r :: l) (fun x hx => h x (List.mem_cons_of_mem q hx))
      (List.cons_ne_nil r l)).append_left _

theorem EndsLow.row {v : ℕ} (hv : v < 2 ^ 64) {l : Poslist} (h : IsPoslist l) :
    EndsLow (sqlite3Fts3PutVarint v ++ columnsBytes l) := by
  cases l using List.reverseRecOn with
  | nil =>
    rw [columnsBytes, List.flatMap_nil, List.append_nil]
    exact EndsLow.varint hv
  | append_singleton l c =>
    have hc : c ∈ l ++ [c] := List.mem_append_right l List.mem_cons_self
    rw [columnsBytes, List.flatMap_append, List.flatMap_singleton, columnBytes]
    exact (((EndsLow.posBytes 0 c.2 (h.position_lt c hc) (h.nonempty c hc)).append_left _).append_left
      _).append_left _

/-- Nothing to step over: the byte before is the end of what precedes. -/
theorem reverseLoop_start {pre : List ℕ} (rest : List ℕ) (hpre : pre = [] ∨ EndsLow pre)
    (ha : a = pre ++ rest) {n : ℕ} (hbytes : ∀ j < n, ∃ b, rest[j]? = some b ∧ 128 ≤ b ∧ b < 256) :
    reverseLoop a (pre.length + n) = some pre.length := by
  refine reverseLoop_eq ?_ n ?_
  · rcases hpre with rfl | ⟨x, y, rfl, hy⟩
    · exact .inl rfl
    · refine .inr ⟨y, ?_, hy⟩
      rw [ha]
      simp [List.append_assoc]
  · intro j hj
    rw [ha, List.getElem?_append_right (Nat.le_add_right _ _), Nat.add_sub_cancel_left]
    exact hbytes j hj

/-- From the last byte of a number back to its start. -/
theorem reverseLoop_varint {pre : List ℕ} (rest : List ℕ) {v : ℕ} (hv : v < 2 ^ 64)
    (hpre : pre = [] ∨ EndsLow pre) (ha : a = pre ++ sqlite3Fts3PutVarint v ++ rest) {n : ℕ}
    (hn : n < (sqlite3Fts3PutVarint v).length) : reverseLoop a (pre.length + n) = some pre.length := by
  obtain ⟨hi, lo, heq, hhi, -⟩ := (varint v hv).split
  rw [heq, List.length_append, List.length_singleton] at hn
  refine reverseLoop_start (sqlite3Fts3PutVarint v ++ rest) hpre (by rw [ha, List.append_assoc]) ?_
  intro j hj
  have hj : j < hi.length := by omega
  refine ⟨hi[j], ?_, hhi _ (List.getElem_mem hj)⟩
  rw [heq, List.append_assoc, List.getElem?_append_left hj, List.getElem?_eq_getElem hj]

/-- The number at the end of `pre` and some bytes after it. -/
theorem getReverseVarint {pre : List ℕ} (rest : List ℕ) {v : ℕ} (hv : v < 2 ^ 64) (hpre : pre = [] ∨ EndsLow pre)
    (ha : a = pre ++ sqlite3Fts3PutVarint v ++ rest) :
    fts3GetReverseVarint a (pre ++ sqlite3Fts3PutVarint v).length = some (v, pre.length) := by
  have hpos := length_putVarint_pos hv
  have hlen : (pre ++ sqlite3Fts3PutVarint v).length =
      pre.length + ((sqlite3Fts3PutVarint v).length - 1) + 1 := by
    rw [List.length_append]
    omega
  have hloop := reverseLoop_varint rest hv hpre ha (Nat.sub_lt hpos one_pos)
  have hdrop : a.drop pre.length = sqlite3Fts3PutVarint v ++ rest := by
    rw [ha, List.append_assoc, List.drop_left]
  rw [hlen, fts3GetReverseVarint, hloop]
  simp [hdrop, Fts.getVarint_putVarint hv]

/-- The start of the position list of a row whose bytes `pre ++ w ++ [0]` end before offset `pp`: the
search ends at the row before it, or at the start of the doclist. -/
theorem reversePoslist {pre rest V C : List ℕ} (hV : V ≠ [])
    (hw : ∀ j (h : j < (V ++ C).length), 0 < pre.length + j → (V ++ C)[j] ≠ 0)
    (ha : a = pre ++ (V ++ C ++ [0]) ++ rest) {q n : ℕ}
    (hpre : pre = [] ∧ q = 0 ∨ ∃ x y, pre = x ++ [y, 0] ∧ y < 128 ∧
      q = if x = [] then 0 else pre.length)
    (htail : tailLoop (a.drop q) = some n) :
    fts3ReversePoslist a (pre ++ (V ++ C ++ [0])).length = some (q + n) := by
  obtain ⟨w, hwdef⟩ : ∃ w, V ++ C = w := ⟨_, rfl⟩
  rw [hwdef] at hw ha ⊢
  have hwne : w ≠ [] := by
    rw [← hwdef]
    exact List.append_ne_nil_of_left_ne_nil hV C
  obtain ⟨k, hk⟩ : ∃ k, w.length = k + 1 :=
    ⟨w.length - 1, by have := List.length_pos_iff.mpr hwne; omega⟩
  have hget : ∀ j (h : j < w.length), a[pre.length + j]? = some w[j] := by
    intro j h
    rw [ha, List.append_assoc, List.getElem?_append_right (Nat.le_add_right _ _),
      Nat.add_sub_cancel_left, List.append_assoc, List.getElem?_append_left h,
      List.getElem?_eq_getElem h]
  have hnonzero : ∀ i, pre.length ≤ i → 0 < i → i ≤ pre.length + k →
      ∃ b, a[i]? = some b ∧ b ≠ 0 := by
    intro i h1 h2 h3
    obtain ⟨j, rfl⟩ := Nat.exists_eq_add_of_le h1
    exact ⟨w[j], hget j (by omega), hw j (by omega) h2⟩
  have hlen : (pre ++ (w ++ [0])).length = pre.length + k + 2 := by
    simp [hk]
    omega
  -- The two backward loops end at the last byte but one of `pre`, or at the start.
  have hloops : ∃ p c, zerosLoop a (pre.length + k) 0 = some (p, c) ∧
      ∃ p', entryLoop a p c = some p' ∧ (if p' > 0 then p' + 2 else p') = q := by
    rcases hpre with ⟨rfl, rfl⟩ | ⟨x, y, hxy, hy, hq⟩
    · rw [List.length_nil, Nat.zero_add] at hnonzero ⊢
      cases k with
      | zero => exact ⟨0, 0, rfl, 0, rfl, rfl⟩
      | succ k =>
        obtain ⟨b, hb, hne⟩ := hnonzero (k + 1) (Nat.zero_le _) (Nat.succ_pos k) le_rfl
        refine ⟨k, b, ?_, 0, ?_, rfl⟩
        · rw [zerosLoop, hb]
          simp [hne]
        · exact entryLoop_start hne fun i h1 h2 => hnonzero i (Nat.zero_le _) h1 (by omega)
    · have hplen : pre.length = x.length + 1 + 1 := by
        rw [hxy]
        simp
      have hterm : a[x.length + 1]? = some 0 := by
        rw [ha, hxy]
        simp [List.append_assoc]
      have hlow : a[x.length]? = some y := by
        rw [ha, hxy]
        simp [List.append_assoc]
      obtain ⟨b, hb, hne⟩ := hnonzero (pre.length + k) (Nat.le_add_right _ _) (by omega) le_rfl
      have hpos : pre.length + k = x.length + 1 + k + 1 := by omega
      rw [hpos] at hb ⊢
      refine ⟨x.length + 1 + k, b, ?_, x.length, ?_, ?_⟩
      · rw [zerosLoop, hb]
        simp [hne]
      · exact entryLoop_stop hterm (.inr ⟨y, hlow, hy⟩) hne fun i h1 h2 =>
          hnonzero i (by omega) (by omega) (by omega)
      · rw [hq, hplen]
        cases x <;> simp
  obtain ⟨p, c, hz, p', he, hp'⟩ := hloops
  rw [hlen, fts3ReversePoslist, hz]
  simp [he, hp', htail]

theorem entriesBytes_concat (desc : Bool) (prev : Option ℤ) (init : Entries) (e : ℤ × Poslist) :
    entriesBytes desc prev (init ++ [e]) = entriesBytes desc prev init ++
      (sqlite3Fts3PutVarint (delta desc (lastDocid prev init) e.1) ++ columnsBytes e.2 ++ [0]) := by
  rw [entriesBytes_append, entriesBytes, entriesBytes, List.append_nil, poslistBytes, POS_END,
    ← List.append_assoc (sqlite3Fts3PutVarint _)]

/-- Rows end with a zero, after a low byte. -/
theorem entriesBytes_end (desc : Bool) (prev : Option ℤ) {init : Entries} (h : ∀ e ∈ init, IsPoslist e.2)
    (hne : init ≠ []) : ∃ x y, entriesBytes desc prev init = x ++ [y, 0] ∧ y < 128 := by
  obtain ⟨init, f, rfl⟩ := (List.eq_nil_or_concat init).resolve_left hne
  rw [List.concat_eq_append] at h ⊢
  obtain ⟨x, y, hrow, hy⟩ := EndsLow.row (delta_lt desc (lastDocid prev init) f.1)
    (h f (List.mem_append_right init List.mem_cons_self))
  refine ⟨entriesBytes desc prev init ++ x, y, ?_, hy⟩
  rw [entriesBytes_concat, hrow]
  simp

/-- The first of the rows takes two bytes, a docid of one byte and an empty position list, and there
are more of them. -/
def Short (l : Entries) : Prop := ∃ d e r, l = (d, []) :: e :: r ∧ 0 ≤ d ∧ d < 128

theorem u64_small {d : ℤ} (h : -2 ^ 63 ≤ d ∧ d < 2 ^ 63) (hu : u64 d < 128) : 0 ≤ d ∧ d < 128 := by
  rw [u64] at hu
  omega

/-- Rows of two bytes are one row, with a docid of one byte and no positions. -/
theorem two_bytes {init : Entries} (hinit : IsDoclist desc init)
    (hlen : (entriesBytes desc none init).length = 2) :
    ∃ d, init = [(d, [])] ∧ 0 ≤ d ∧ d < 128 := by
  cases init with
  | nil => exact absurd hlen (Nat.succ_ne_zero 1).symm
  | cons e l =>
    obtain ⟨d, c⟩ := e
    have hpos := length_putVarint_pos (delta_lt desc none d)
    cases l with
    | cons f l =>
      have hpos' := length_putVarint_pos (delta_lt desc (some d) f.1)
      simp only [entriesBytes, poslistBytes, List.length_append, List.length_cons,
        List.length_nil] at hlen
      omega
    | nil =>
      simp only [entriesBytes, poslistBytes, List.length_append, List.length_cons, List.length_nil]
        at hlen
      have hc : columnsBytes c = [] := List.eq_nil_of_length_eq_zero (by omega)
      have hsmall : u64 d < 128 := by
        by_contra hbig
        have hlong : (sqlite3Fts3PutVarint (u64 d)).length =
            (sqlite3Fts3PutVarint (u64 d / 128)).length + 1 := by
          rw [putVarint_big (by omega) (u64_lt d), List.length_cons]
        have := length_putVarint_pos (v := u64 d / 128) (by have := u64_lt d; omega)
        simp only [delta] at hlen
        omega
      obtain rfl : c = [] := columnsBytes_eq_nil (hinit.poslists _ List.mem_cons_self) hc
      exact ⟨d, rfl, u64_small (hinit.fits _ List.mem_cons_self) hsmall⟩

/-- The iterator came from behind to the row `e`, and the rows `init` are before it. -/
structure Back (desc : Bool) (a : List ℕ) (s : Iter) (init : Entries) (e : ℤ × Poslist) : Prop where
  layout : ∃ rest, a = entriesBytes desc none (init ++ [e]) ++ rest
  pos : s.ppIter = some (entriesBytes desc none init ++
    sqlite3Fts3PutVarint (delta desc (lastDocid none init) e.1)).length
  docid : s.iDocid = e.1
  list : s.nList = (poslistBytes e.2).length
  open_ : s.bEof = false

variable {init : Entries}

/-- The number that `sqlite3Fts3DoclistPrev` steps back over. -/
theorem Back.reverse (h : Back desc a s init e) (hinit : ∀ f ∈ init, IsPoslist f.2) :
    ∃ p, s.ppIter = some p ∧ fts3GetReverseVarint a p =
      some (delta desc (lastDocid none init) e.1, (entriesBytes desc none init).length) := by
  obtain ⟨rest, ha⟩ := h.layout
  refine ⟨_, h.pos, getReverseVarint (columnsBytes e.2 ++ [0] ++ rest)
    (delta_lt desc (lastDocid none init) e.1) ?_ ?_⟩
  · by_cases hnil : init = []
    · exact .inl (by rw [hnil]; rfl)
    · obtain ⟨x, y, hxy, -⟩ := entriesBytes_end desc none hinit hnil
      exact .inr ⟨x ++ [y], 0, by rw [hxy]; simp, by decide⟩
  · rw [ha, entriesBytes_concat]
    simp only [List.append_assoc]

theorem Back.read (h : Back desc a s init e) :
    (a.drop (s.ppIter.getD 0)).take s.nList.toNat = poslistBytes e.2 := by
  obtain ⟨rest, ha⟩ := h.layout
  rw [h.pos, h.list, Option.getD_some, Int.toNat_natCast, ha, entriesBytes_concat]
  have hsplit : entriesBytes desc none init ++ (sqlite3Fts3PutVarint
      (delta desc (lastDocid none init) e.1) ++ columnsBytes e.2 ++ [0]) ++ rest =
      (entriesBytes desc none init ++ sqlite3Fts3PutVarint
        (delta desc (lastDocid none init) e.1)) ++ (poslistBytes e.2 ++ rest) := by
    simp only [poslistBytes, POS_END, List.append_assoc]
  rw [hsplit, List.drop_left, List.take_left]

theorem Back.prev_end (h : Back desc a s [] e) :
    ∃ s', sqlite3Fts3DoclistPrev desc a s = some s' ∧ s'.bEof = true := by
  obtain ⟨p, hp, hrev⟩ := h.reverse (by simp)
  refine ⟨{ s with
    ppIter := some 0
    iDocid := i64 (s.iDocid - sign desc * (delta desc (lastDocid none []) e.1 : ℤ))
    bEof := true }, ?_, rfl⟩
  rw [sqlite3Fts3DoclistPrev, hp]
  simp [hrev, entriesBytes]

/-- A step back to the row `f`, with the offset `q` that `fts3ReversePoslist` ends at. -/
theorem Back.step {f : ℤ × Poslist} (h : Back desc a s (init ++ [f]) e)
    (hinit : ∀ g ∈ init ++ [f], IsPoslist g.2) (hf : -2 ^ 63 ≤ f.1 ∧ f.1 < 2 ^ 63) {q : ℕ}
    (hq : fts3ReversePoslist a (entriesBytes desc none (init ++ [f])).length = some q) :
    sqlite3Fts3DoclistPrev desc a s = some { s with
      ppIter := some q
      iDocid := f.1
      nList := (entriesBytes desc none (init ++ [f])).length - q } := by
  obtain ⟨p, hp, hrev⟩ := h.reverse hinit
  have hne : (entriesBytes desc none (init ++ [f])).length ≠ 0 := by
    rw [entriesBytes_concat]
    simp
  have hdocid : i64 (s.iDocid - sign desc * (delta desc (lastDocid none (init ++ [f])) e.1 : ℤ)) =
      f.1 := by
    rw [h.docid, lastDocid_concat, docid_prev hf]
  rw [sqlite3Fts3DoclistPrev, hp]
  simp [hrev, hdocid, hq, hne]

/-- The bytes of a row hold no zero before the terminator, except a first docid of zero. -/
theorem row_nonzero {f : ℤ × Poslist} (hl : IsDoclist desc (init ++ [f])) (j : ℕ)
    (h : j < (sqlite3Fts3PutVarint (delta desc (lastDocid none init) f.1) ++ columnsBytes f.2).length)
    (hpos : 0 < (entriesBytes desc none init).length + j) :
    (sqlite3Fts3PutVarint (delta desc (lastDocid none init) f.1) ++ columnsBytes f.2)[j] ≠ 0 := by
  have hf : f ∈ init ++ [f] := List.mem_append_right init List.mem_cons_self
  have hC := columnsBytes_nonzero (hl.poslists f hf)
  have hlt := delta_lt desc (lastDocid none init) f.1
  by_cases hzero : delta desc (lastDocid none init) f.1 = 0
  · -- Only the first docid can be zero, and its one byte is the first of the doclist.
    have hnil : init = [] := by
      by_contra hne
      obtain ⟨init', g, rfl⟩ := (List.eq_nil_or_concat init).resolve_left hne
      rw [List.concat_eq_append] at hl hf hzero
      rw [lastDocid_concat] at hzero
      have hg : g ∈ init' ++ [g] ++ [f] :=
        List.mem_append_left [f] (List.mem_append_right init' List.mem_cons_self)
      have hbefore := (List.pairwise_append.mp hl.order).2.2 g
        (List.mem_append_right init' List.mem_cons_self) f List.mem_cons_self
      exact delta_ne_zero hbefore (hl.fits g hg) (hl.fits f hf) hzero
    subst hnil
    simp only [hzero, putVarint_small (v := 0) (by decide)] at h hpos ⊢
    rw [entriesBytes, List.length_nil, Nat.zero_add] at hpos
    obtain ⟨j, rfl⟩ : ∃ k, j = k + 1 := ⟨j - 1, by omega⟩
    simp only [List.singleton_append, List.getElem_cons_succ]
    exact hC _ (List.getElem_mem _)
  · have hmem := List.getElem_mem h
    rcases List.mem_append.mp hmem with hb | hb
    · exact varint_nonzero hlt hzero _ hb
    · exact hC _ hb

/-- Where `fts3ReversePoslist` ends: at the position list of the last row, unless the rows before it take
two bytes; then it mistakes these for the docid. -/
theorem reversePoslist_rows {f : ℤ × Poslist} (hl : IsDoclist desc (init ++ [f])) {rest : List ℕ}
    (ha : a = entriesBytes desc none (init ++ [f]) ++ rest) :
    fts3ReversePoslist a (entriesBytes desc none (init ++ [f])).length =
      some (if (entriesBytes desc none init).length = 2 then 1
        else (entriesBytes desc none init ++
          sqlite3Fts3PutVarint (delta desc (lastDocid none init) f.1)).length) := by
  have hlt := delta_lt desc (lastDocid none init) f.1
  have hinit : ∀ e ∈ init, IsPoslist e.2 := fun e he => hl.poslists e (List.mem_append_left [f] he)
  have hsub : IsDoclist desc init :=
    ⟨(List.pairwise_append.mp hl.order).1, fun e he => hl.fits e (List.mem_append_left [f] he), hinit⟩
  rw [entriesBytes_concat] at ha ⊢
  have hdrop : tailLoop (a.drop (entriesBytes desc none init).length) =
      some (sqlite3Fts3PutVarint (delta desc (lastDocid none init) f.1)).length := by
    rw [ha, List.append_assoc, List.drop_left, List.append_assoc, List.append_assoc,
      tailLoop_varint hlt]
  by_cases hnil : init = []
  · have hpre : entriesBytes desc none init = [] := by rw [hnil]; rfl
    rw [reversePoslist (putVarint_ne_nil hlt) (row_nonzero hl) ha (q := 0) (.inl ⟨hpre, rfl⟩)
      (by rw [hpre] at hdrop; exact hdrop), hpre]
    simp
  · obtain ⟨x, y, hxy, hy⟩ := entriesBytes_end desc none hinit hnil
    cases x with
    | nil =>
      -- The two bytes before the row: the search runs into the start of the doclist.
      have hsmall : tailLoop (a.drop 0) = some 1 := by
        rw [ha, hxy]
        simp [tailLoop, low_byte y hy]
      rw [reversePoslist (putVarint_ne_nil hlt) (row_nonzero hl) ha (q := 0)
        (.inr ⟨[], y, hxy, hy, by simp⟩) hsmall, hxy]
      simp
    | cons z x =>
      have hlong : (entriesBytes desc none init).length ≠ 2 := by
        rw [hxy]
        simp
      rw [reversePoslist (putVarint_ne_nil hlt) (row_nonzero hl) ha
        (q := (entriesBytes desc none init).length) (.inr ⟨z :: x, y, hxy, hy, by simp⟩) hdrop,
        if_neg hlong, List.length_append]

/-- Rows of two bytes before the last one, or not, decide whether the rows are short. -/
theorem short_concat {f : ℤ × Poslist} (hl : IsDoclist desc (init ++ [f])) :
    Short (init ++ [f]) ↔ (entriesBytes desc none init).length = 2 ∨ Short init := by
  have hsub : IsDoclist desc init :=
    ⟨(List.pairwise_append.mp hl.order).1, fun e he => hl.fits e (List.mem_append_left [f] he),
      fun e he => hl.poslists e (List.mem_append_left [f] he)⟩
  constructor
  · rintro ⟨d, e, r, heq, hd⟩
    cases init with
    | nil => simp at heq
    | cons g init =>
      obtain ⟨rfl, htail⟩ := List.cons.inj heq
      cases init with
      | nil =>
        left
        have hsmall : sqlite3Fts3PutVarint (u64 d) = [d.toNat] := by
          have hu : u64 d = d.toNat := u64_eq (Int.toNat_of_nonneg hd.1).symm (by omega)
          rw [hu, putVarint_small (by omega)]
        simp [entriesBytes, delta, hsmall, poslistBytes, columnsBytes]
      | cons h init =>
        exact .inr ⟨d, h, init, rfl, hd⟩
  · rintro (h2 | ⟨d, e, r, rfl, hd⟩)
    · obtain ⟨d, rfl, hd⟩ := two_bytes hsub h2
      exact ⟨d, f, [], rfl, hd⟩
    · exact ⟨d, e, r ++ [f], rfl, hd⟩

/-- Past a row of two bytes the iterator is left at the end of the first docid, and the next call is the
last one. -/
theorem Back.lost {f : ℤ × Poslist} (h : Back desc a s (init ++ [f]) e)
    (hl : IsDoclist desc (init ++ [f])) (h2 : (entriesBytes desc none init).length = 2) {n : ℕ}
    (hn : 2 < n) : ∃ p, backward desc a n s = some [p] := by
  obtain ⟨n, rfl⟩ : ∃ k, n = k + 1 + 1 := ⟨n - 2, by omega⟩
  obtain ⟨rest, ha⟩ := h.layout
  have ha' : a = entriesBytes desc none (init ++ [f]) ++ (sqlite3Fts3PutVarint
      (delta desc (lastDocid none (init ++ [f])) e.1) ++ columnsBytes e.2 ++ [0] ++ rest) := by
    rw [ha, entriesBytes_concat, List.append_assoc]
  have hstep := h.step hl.poslists (hl.fits f (List.mem_append_right init List.mem_cons_self))
    (reversePoslist_rows hl ha')
  rw [if_pos h2] at hstep
  obtain ⟨v, q, hread⟩ : ∃ v q, sqlite3Fts3GetVarint a = some (v, q) := by
    cases init with
    | nil => exact absurd h2 (Nat.succ_ne_zero 1).symm
    | cons g init =>
      rw [ha', List.cons_append, entriesBytes, List.append_assoc, List.append_assoc]
      exact ⟨_, _, Fts.getVarint_putVarint (delta_lt desc none g.1) _⟩
  have hlast : ∀ d m, backward desc a (n + 1) ⟨some 1, d, m, false⟩ = some [] := by
    intro d m
    simp [backward, sqlite3Fts3DoclistPrev, fts3GetReverseVarint, reverseLoop, hread]
  rw [h.open_] at hstep
  rw [backward, hstep]
  simp only [Option.bind_eq_bind, Option.bind_some, Bool.false_eq_true, if_false, hlast]
  exact ⟨_, rfl⟩

/-- Anywhere else the iterator comes to the row before. -/
theorem Back.prev {f : ℤ × Poslist} (h : Back desc a s (init ++ [f]) e)
    (hl : IsDoclist desc (init ++ [f])) (h2 : (entriesBytes desc none init).length ≠ 2) :
    ∃ s', sqlite3Fts3DoclistPrev desc a s = some s' ∧ Back desc a s' init f := by
  obtain ⟨rest, ha⟩ := h.layout
  have ha' : a = entriesBytes desc none (init ++ [f]) ++ (sqlite3Fts3PutVarint
      (delta desc (lastDocid none (init ++ [f])) e.1) ++ columnsBytes e.2 ++ [0] ++ rest) := by
    rw [ha, entriesBytes_concat, List.append_assoc]
  have hstep := h.step hl.poslists (hl.fits f (List.mem_append_right init List.mem_cons_self))
    (reversePoslist_rows hl ha')
  rw [if_neg h2] at hstep
  refine ⟨_, hstep, ⟨_, ha'⟩, rfl, rfl, ?_, h.open_⟩
  rw [entriesBytes_concat, poslistBytes, POS_END]
  simp only [List.length_append]
  omega

/-- Backwards from a row, the rows before it are produced, last first; one is lost if they are short. -/
theorem Back.backward (h : Back desc a s init e) (hl : IsDoclist desc init) {n : ℕ}
    (hn : init.length < n) : ∃ rows, backward desc a n s = some rows ∧
      (Short init → rows.length + 1 = init.length) ∧ (¬Short init → rows = (init.map row).reverse) := by
  induction init using List.reverseRecOn generalizing s e n with
  | nil =>
    obtain ⟨n, rfl⟩ : ∃ k, n = k + 1 := ⟨n - 1, by omega⟩
    obtain ⟨s', hs, heof⟩ := h.prev_end
    refine ⟨[], ?_, ?_, fun _ => rfl⟩
    · rw [Doclist.backward, hs]
      simp [heof]
    · rintro ⟨d, f, r, hnil, -⟩
      exact absurd hnil.symm (List.cons_ne_nil _ _)
  | append_singleton init f ih =>
    have hsub : IsDoclist desc init :=
      ⟨(List.pairwise_append.mp hl.order).1, fun g hg => hl.fits g (List.mem_append_left [f] hg),
        fun g hg => hl.poslists g (List.mem_append_left [f] hg)⟩
    have hshort := short_concat hl
    by_cases h2 : (entriesBytes desc none init).length = 2
    · obtain ⟨d, rfl, -⟩ := two_bytes hsub h2
      obtain ⟨p, hp⟩ := h.lost hl h2 (n := n) (by simpa using hn)
      exact ⟨[p], hp, fun _ => rfl, fun hno => absurd (hshort.mpr (.inl h2)) hno⟩
    · obtain ⟨n, rfl⟩ : ∃ k, n = k + 1 := ⟨n - 1, by omega⟩
      obtain ⟨s', hs, hback⟩ := h.prev hl h2
      obtain ⟨rows, hrows, hbad, hgood⟩ := ih hback hsub (n := n) (by simpa using hn)
      refine ⟨row f :: rows, ?_, ?_, ?_⟩
      · rw [Doclist.backward, hs]
        simp [hback.open_, hrows, hback.read, hback.docid, row]
      · intro h
        have := hbad ((hshort.mp h).resolve_left h2)
        simp
        omega
      · intro h
        rw [hgood fun h' => h (hshort.mpr (.inr h'))]
        simp

/-- No padding is skipped after a row: the next docid does not start with a zero. -/
theorem dropWhile_entries {e : ℤ × Poslist} (hl : IsDoclist desc (e :: l)) :
    (entriesBytes desc (some e.1) l).dropWhile (· = 0) = entriesBytes desc (some e.1) l := by
  cases l with
  | nil => rfl
  | cons f l =>
    have hlt := delta_lt desc (some e.1) f.1
    have hne := delta_ne_zero ((List.pairwise_cons.mp hl.order).1 f List.mem_cons_self)
      (hl.fits e List.mem_cons_self) (hl.fits f (List.mem_cons_of_mem e List.mem_cons_self))
    obtain ⟨b, r, hb, -⟩ := putVarint_head hlt
    have hnz := varint_nonzero hlt hne b (by rw [hb]; exact List.mem_cons_self)
    rw [entriesBytes, hb, List.append_assoc, List.cons_append, List.dropWhile_cons_of_neg]
    simpa using hnz

theorem lastLoop_rest {e : ℤ × Poslist} (hl : IsDoclist desc (e :: l)) {n : ℕ} (hn : l.length < n)
    {f : ℤ × Poslist} {init : Entries} (hlast : e :: l = init ++ [f]) :
    lastLoop desc n (sign desc) e.1 (poslistBytes e.2 ++ entriesBytes desc (some e.1) l)
      (entriesBytes desc (some e.1) l) = some (f.1, poslistBytes f.2) := by
  induction l generalizing e n init with
  | nil =>
    obtain ⟨n, rfl⟩ : ∃ k, n = k + 1 := ⟨n - 1, by omega⟩
    obtain rfl : e = f := List.singleton_inj.mp (@List.append_inj' _ [] _ _ _ hlast rfl).2
    rw [entriesBytes, List.append_nil]
    rfl
  | cons g l ih =>
    obtain ⟨n, rfl⟩ : ∃ k, n = k + 1 := ⟨n - 1, by omega⟩
    have hg : g ∈ e :: g :: l := List.mem_cons_of_mem e List.mem_cons_self
    obtain ⟨init', hinit⟩ : ∃ init', g :: l = init' ++ [f] := by
      cases init with
      | nil => simp at hlast
      | cons x init => exact ⟨init, (List.cons.inj hlast).2⟩
    have hrest := ih hl.of_cons (n := n) (by simpa using hn) hinit
    rw [lastLoop, if_neg entriesBytes_ne_nil, getVarint_entries]
    simp only [Option.bind_eq_bind, Option.bind_some, poslistCopy (hl.poslists g hg),
      dropWhile_entries hl.of_cons, docid_next (hl.fits g hg), hrest]

/-- The forward scan ends at the last row. -/
theorem prev_start {f : ℤ × Poslist} (hl : IsDoclist desc (init ++ [f])) :
    ∃ s, sqlite3Fts3DoclistPrev desc (doclistBytes desc (init ++ [f])) {} = some s ∧
      Back desc (doclistBytes desc (init ++ [f])) s init f := by
  have hscan : lastLoop desc ((doclistBytes desc (init ++ [f])).length + 1) 1 0 []
      (doclistBytes desc (init ++ [f])) = some (f.1, poslistBytes f.2) := by
    have hlen := length_le_entriesBytes desc none (init ++ [f])
    obtain ⟨e, l, hcons⟩ := List.exists_cons_of_ne_nil (List.append_ne_nil_of_right_ne_nil init
      (List.cons_ne_nil f []))
    rw [doclistBytes]
    rw [hcons] at hl hlen ⊢
    have hrest := lastLoop_rest hl hlen hcons.symm
    have he := List.mem_cons_self (a := e) (l := l)
    rw [lastLoop, if_neg entriesBytes_ne_nil, getVarint_entries]
    simp only [Option.bind_eq_bind, Option.bind_some, poslistCopy (hl.poslists e he),
      dropWhile_entries hl, zero_add, one_mul, docid_first (hl.fits e he), hrest]
  refine ⟨⟨some ((doclistBytes desc (init ++ [f])).length - (poslistBytes f.2).length), f.1,
    (poslistBytes f.2).length, false⟩, ?_, ⟨[], by rw [List.append_nil]; rfl⟩, ?_, rfl, rfl, rfl⟩
  · rw [sqlite3Fts3DoclistPrev]
    simp only [hscan, Option.bind_eq_bind, Option.bind_some]
    rfl
  · rw [doclistBytes, entriesBytes_concat, poslistBytes, POS_END]
    simp only [List.length_append, Option.some.injEq]
    omega

/-- Backwards, every row is produced, in the reverse order, if and only if the rows before the last are
not short. -/
theorem backward_rows {f : ℤ × Poslist} (hl : IsDoclist desc (init ++ [f])) {n : ℕ}
    (hn : (init ++ [f]).length < n) :
    Doclist.backward desc (doclistBytes desc (init ++ [f])) n {} =
      some ((init ++ [f]).map row).reverse ↔ ¬Short init := by
  obtain ⟨n, rfl⟩ : ∃ k, n = k + 1 := ⟨n - 1, by omega⟩
  have hsub : IsDoclist desc init :=
    ⟨(List.pairwise_append.mp hl.order).1, fun g hg => hl.fits g (List.mem_append_left [f] hg),
      fun g hg => hl.poslists g (List.mem_append_left [f] hg)⟩
  obtain ⟨s, hs, hback⟩ := prev_start hl
  obtain ⟨rows, hrows, hbad, hgood⟩ := hback.backward hsub (n := n) (by simpa using hn)
  have hrun : Doclist.backward desc (doclistBytes desc (init ++ [f])) (n + 1) {} =
      some (row f :: rows) := by
    rw [Doclist.backward, hs]
    simp [hback.open_, hrows, hback.read, hback.docid, row]
  rw [hrun]
  constructor
  · intro h hshort
    have hlen := congrArg List.length (Option.some.inj h)
    have := hbad hshort
    simp at hlen
    omega
  · intro h
    rw [hgood h]
    simp

/-- The first row takes two bytes, a docid of one byte and an empty position list, and at least two rows
come after it. -/
def LosesRow (l : Entries) : Prop := ∃ d e f r, l = (d, []) :: e :: f :: r ∧ 0 ≤ d ∧ d < 128

theorem losesRow_iff (init : Entries) (f : ℤ × Poslist) : LosesRow (init ++ [f]) ↔ Short init := by
  constructor
  · rintro ⟨d, e, g, r, heq, hd⟩
    obtain ⟨r', h, hr⟩ : ∃ r' h, g :: r = r' ++ [h] :=
      (List.eq_nil_or_concat (g :: r)).resolve_left (List.cons_ne_nil g r) |>.imp fun _ h => by
        obtain ⟨b, hb⟩ := h
        exact ⟨b, by rw [hb, List.concat_eq_append]⟩
    rw [hr, ← List.cons_append, ← List.cons_append] at heq
    obtain ⟨rfl, -⟩ := List.append_inj' heq rfl
    exact ⟨d, e, r', rfl, hd⟩
  · rintro ⟨d, e, r, rfl, hd⟩
    cases r with
    | nil => exact ⟨d, e, f, [], rfl, hd⟩
    | cons g r => exact ⟨d, e, g, r ++ [f], rfl, hd⟩

/-- The rows of `sqlite3Fts3DoclistPrev` are those of `sqlite3Fts3DoclistNext` in the reverse order,
up to the end of file, if and only if the first row is longer than two bytes or among the last two. -/
theorem prev_reverses_next_iff (desc : Bool) (l : Entries) (hl : IsDoclist desc l) (hne : l ≠ [])
    (n : ℕ) (hn : l.length < n) :
    (∃ rows, forward desc (doclistBytes desc l) n {} = some rows ∧
      backward desc (doclistBytes desc l) n {} = some rows.reverse) ↔ ¬LosesRow l := by
  obtain ⟨init, f, rfl⟩ := (List.eq_nil_or_concat l).resolve_left hne
  rw [List.concat_eq_append] at hl hne hn ⊢
  rw [losesRow_iff, ← backward_rows hl hn, forward_rows hl hne hn]
  simp

theorem prev_reverses_next_iff_three :
    ∃ l : Entries, IsDoclist true l ∧ l ≠ [] ∧ l.length < 4 ∧ ((∃ rows,
      forward true (doclistBytes true l) 4 {} = some rows ∧
      backward true (doclistBytes true l) 4 {} = some rows.reverse) ↔ ¬LosesRow l) :=
  ⟨[(300, []), (5, [(0, [2, 7])]), (-1, [(3, [1])])], by decide +kernel, List.cons_ne_nil _ _, by decide,
    prev_reverses_next_iff true _ (by decide +kernel) (List.cons_ne_nil _ _) 4 (by decide)⟩

/-- The row `(6, [0])` gets a position list that starts with that of the row `(5, [])`, which is lost. -/
theorem prev_loses_row : ∃ l : Entries, IsDoclist false l ∧ l ≠ [] ∧ l.length < 4 ∧
    forward false (doclistBytes false l) 4 {} = some [(5, [0]), (6, [2, 0]), (7, [2, 0])] ∧
    backward false (doclistBytes false l) 4 {} = some [(7, [2, 0]), (6, [0, 1, 2, 0])] ∧
    ¬∃ rows, forward false (doclistBytes false l) 4 {} = some rows ∧
      backward false (doclistBytes false l) 4 {} = some rows.reverse := by
  have hf : forward false (doclistBytes false [(5, []), (6, [(0, [0])]), (7, [(0, [0])])]) 4 {} =
      some [(5, [0]), (6, [2, 0]), (7, [2, 0])] := by decide +kernel
  have hb : backward false (doclistBytes false [(5, []), (6, [(0, [0])]), (7, [(0, [0])])]) 4 {} =
      some [(7, [2, 0]), (6, [0, 1, 2, 0])] := by decide +kernel
  refine ⟨_, by decide +kernel, List.cons_ne_nil _ _, by decide, hf, hb, ?_⟩
  rintro ⟨rows, h1, h2⟩
  rw [hf, Option.some.injEq] at h1
  rw [hb, ← h1] at h2
  exact absurd h2 (by decide +kernel)

end Sqlite.Doclist

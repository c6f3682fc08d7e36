import Sqlite.Doclist.Reverse

/-! The merge hint of the full-text index: a stack of levels and counts in one blob, each a number of
seven-bit bytes. -/
namespace Sqlite.Doclist

open Fts (sqlite3Fts3PutVarint sqlite3Fts3GetVarint FTS3_VARINT_MAX)

/-- The number of bytes that hold the 64 bits `v`. -/
def sqlite3Fts3VarintLen (v : ℕ) : ℕ :=
  if v >>> 7 = 0 then 1 else sqlite3Fts3VarintLen (v >>> 7) + 1
termination_by v
decreasing_by
  rw [Nat.shiftRight_eq_div_pow] at *
  omega

def sqlite3Fts3GetVarint32 (p : List ℕ) : Option (ℤ × List ℕ) := do
  let (i, p) ← sqlite3Fts3GetVarint p
  return (i32 i, p)

inductive Rc
  | SQLITE_OK
  | SQLITE_NOMEM
  | SQLITE_CORRUPT_VTAB
  deriving DecidableEq

/-- A buffer: the bytes that are allocated, and how many of them are in use. -/
structure Blob where
  a : List ℕ := []
  n : ℕ := 0
  deriving DecidableEq

/-- `fresh` gives the bytes of the new memory, unless `sqlite3_realloc` fails. -/
def blobGrowBuffer (pBlob : Blob) (nMin : ℕ) (fresh : Option (ℕ → ℕ)) : Blob × Rc :=
  if nMin > pBlob.a.length then
    match fresh with
    | some byte => ({ pBlob with a := pBlob.a ++ (List.range (nMin - pBlob.a.length)).map byte }, .SQLITE_OK)
    | none => (pBlob, .SQLITE_NOMEM)
  else (pBlob, .SQLITE_OK)

/-- The bytes `l` written into the buffer from its offset `n` on; `none` is a write behind its end. -/
def Blob.write (pBlob : Blob) (l : List ℕ) : Option Blob :=
  let n := pBlob.n + l.length
  if n ≤ pBlob.a.length then some { a := pBlob.a.take pBlob.n ++ l ++ pBlob.a.drop n, n } else none

def fts3IncrmergeHintPush (pHint : Blob) (iAbsLevel nInput : ℤ) (fresh : Option (ℕ → ℕ)) :
    Option (Blob × Rc) :=
  let (pHint, rc) := blobGrowBuffer pHint (pHint.n + 2 * FTS3_VARINT_MAX) fresh
  if rc = .SQLITE_OK then do
    let pHint ← pHint.write (sqlite3Fts3PutVarint (u64 iAbsLevel))
    let pHint ← pHint.write (sqlite3Fts3PutVarint (u64 nInput))
    return (pHint, rc)
  else some (pHint, rc)

/-- The last entry, and the blob without it. Both loops over continuation bytes are as `reverseLoop`;
there is no step over the first byte between them. A blob of less than two bytes is read in front of
its start. -/
def fts3IncrmergeHintPop (pHint : Blob) : Option (Rc × ℤ × ℤ × Blob) :=
  if pHint.n < 2 then none
  else do
    let i ← reverseLoop pHint.a (pHint.n - 2)
    let i ← reverseLoop pHint.a i
    let (iAbsLevel, p) ← sqlite3Fts3GetVarint (pHint.a.drop i)
    let (nInput, p) ← sqlite3Fts3GetVarint32 p
    let rc := if pHint.a.length - p.length ≠ pHint.n then Rc.SQLITE_CORRUPT_VTAB else .SQLITE_OK
    return (rc, i64 iAbsLevel, nInput, { pHint with n := i })

/-! Numbers. -/

theorem varintLen_eq {v : ℕ} (hv : v < 2 ^ 64) :
    (sqlite3Fts3PutVarint v).length = sqlite3Fts3VarintLen v := by
  refine varint_induction (P := fun v l => l.length = sqlite3Fts3VarintLen v) ?_ ?_ v hv
  · intro v h
    have hshift : v >>> 7 = 0 := by
      rw [Nat.shiftRight_eq_div_pow]
      omega
    rw [sqlite3Fts3VarintLen, if_pos hshift]
    rfl
  · intro v l h _ hl
    have hshift : v >>> 7 = v / 128 := Nat.shiftRight_eq_div_pow v 7
    rw [sqlite3Fts3VarintLen, hshift, if_neg (by omega), List.length_cons, hl]

/-- At most `n` bytes are taken just when one of the first `n` ends the number. -/
theorem getLoop_le_iff (p : List ℕ) : ∀ n x y : ℕ,
    (∃ v q, Fts.getLoop n x y p = some (v, q) ∧ p.length ≤ q.length + n) ↔
      ∃ b ∈ p.take n, b &&& 0x80 ≠ 0x80 := by
  induction p with
  | nil => simp [Fts.getLoop]
  | cons b p ih =>
    intro n x y
    cases n with
    | zero => simp [Fts.getLoop]
    | succ n =>
      by_cases hb : b &&& 0x80 = 0x80
      · have hstep : Fts.getLoop (n + 1) x y (b :: p) =
            Fts.getLoop n ((x + y * (b &&& 0x7f)) % 2 ^ 64) ((y <<< 7) % 2 ^ 64) p := by
          rw [Fts.getLoop, if_pos ⟨hb, Nat.succ_ne_zero n⟩, Nat.add_sub_cancel]
        rw [hstep, List.take_succ_cons, List.length_cons]
        simp only [List.mem_cons, exists_eq_or_imp, hb, ne_eq, not_true_eq_false, false_or,
          ← Nat.add_assoc, Nat.add_le_add_iff_right]
        exact ih n _ _
      · have hstep : Fts.getLoop (n + 1) x y (b :: p) = some ((x + y * b) % 2 ^ 64, p) := by
          rw [Fts.getLoop, if_neg fun h => hb h.1]
        refine ⟨fun _ => ⟨b, List.mem_cons_self, hb⟩, fun _ => ⟨_, _, hstep, ?_⟩⟩
        rw [List.length_cons]
        omega

theorem length_lt_of_getLoop {p q : List ℕ} {v : ℕ} : ∀ {n x y : ℕ},
    Fts.getLoop n x y p = some (v, q) → q.length < p.length := by
  induction p with
  | nil => simp [Fts.getLoop]
  | cons b p ih =>
    intro n x y h
    rw [Fts.getLoop] at h
    rw [List.length_cons]
    split at h
    · exact (ih h).trans (Nat.lt_succ_self _)
    · obtain ⟨-, rfl⟩ := Prod.mk.inj (Option.some.inj h)
      exact Nat.lt_succ_self _

/-- A number reads back, from either end of it; what is read for a number is no longer than one can
be just when a byte ends it by then. -/
theorem varint_reads_iff (v : ℤ) (hlow : -2 ^ 63 ≤ v) (hhigh : v < 2 ^ 63) (p : List ℕ) :
    ((∀ rest, ∃ w, sqlite3Fts3GetVarint (sqlite3Fts3PutVarint (u64 v) ++ rest) = some (w, rest) ∧
        i64 w = v) ∧
      (sqlite3Fts3PutVarint (u64 v)).length = sqlite3Fts3VarintLen (u64 v) ∧
      sqlite3Fts3VarintLen (u64 v) ≤ FTS3_VARINT_MAX ∧
      ∀ pre rest, (pre = [] ∨ EndsLow pre) →
        ∃ w, fts3GetReverseVarint (pre ++ sqlite3Fts3PutVarint (u64 v) ++ rest)
            (pre ++ sqlite3Fts3PutVarint (u64 v)).length = some (w, pre.length) ∧ i64 w = v) ∧
    ((∃ w q, sqlite3Fts3GetVarint p = some (w, q) ∧ p.length ≤ q.length + FTS3_VARINT_MAX) ↔
      ∃ b ∈ p.take FTS3_VARINT_MAX, b &&& 0x80 ≠ 0x80) := by
  have hu := u64_lt v
  have hback : i64 (u64 v) = v := by
    have h := i64_add_u64_sub (x := 0) hlow hhigh
    rwa [sub_zero, zero_add] at h
  refine ⟨⟨fun rest => ⟨u64 v, Fts.getVarint_putVarint hu rest, hback⟩, varintLen_eq hu, ?_, ?_⟩, ?_⟩
  · rw [← varintLen_eq hu]
    exact length_putVarint_le hu
  · intro pre rest hpre
    exact ⟨u64 v, getReverseVarint rest hu hpre rfl, hback⟩
  · exact getLoop_le_iff p FTS3_VARINT_MAX 0 1

theorem varint_reads_iff_minus_one :
    ∃ w, sqlite3Fts3GetVarint (sqlite3Fts3PutVarint (u64 (-1)) ++ [7]) = some (w, [7]) ∧ i64 w = -1 :=
  (varint_reads_iff (-1) (by decide) (by decide) []).1.1 [7]

/-- Ten bytes with the high bit, and the one that is read after them. -/
theorem varint_reads_eleven :
    ¬∀ p, FTS3_VARINT_MAX < p.length → (∀ b ∈ p, b < 256) →
      ∃ w q, sqlite3Fts3GetVarint p = some (w, q) ∧ p.length ≤ q.length + FTS3_VARINT_MAX := by
  intro h
  obtain ⟨w, q, hget, hlen⟩ := h (List.replicate 10 0x80 ++ [0]) (by decide) (by decide)
  have heq : sqlite3Fts3GetVarint (List.replicate 10 0x80 ++ [0]) = some (0, []) := by decide
  rw [heq] at hget
  obtain ⟨-, rfl⟩ := Prod.mk.inj (Option.some.inj hget)
  exact absurd hlen (by decide)

/-! The stack. -/

/-- A level and a count as the caller has them. -/
def IsPair (e : ℤ × ℤ) : Prop := (0 ≤ e.1 ∧ e.1 < 2 ^ 63) ∧ 0 ≤ e.2 ∧ e.2 < 2 ^ 31

def hintBytes (l : List (ℤ × ℤ)) : List ℕ :=
  l.flatMap fun e => sqlite3Fts3PutVarint (u64 e.1) ++ sqlite3Fts3PutVarint (u64 e.2)

/-- The bytes in use are the entries, the last one on top. -/
structure HintHolds (l : List (ℤ × ℤ)) (b : Blob) : Prop where
  entries : ∀ e ∈ l, IsPair e
  bytes : ∃ stale, b.a = hintBytes l ++ stale
  used : b.n = (hintBytes l).length

/-- A blob after some pushes into one that is empty. -/
inductive Built : List (ℤ × ℤ) → Blob → Prop
  | empty (a : List ℕ) : Built [] { a, n := 0 }
  | push {l : List (ℤ × ℤ)} {b b' : Blob} {e : ℤ × ℤ} {fresh : Option (ℕ → ℕ)} (h : Built l b)
      (he : IsPair e) (hpush : fts3IncrmergeHintPush b e.1 e.2 fresh = some (b', .SQLITE_OK)) :
      Built (l ++ [e]) b'

variable {l : List (ℤ × ℤ)} {b b' : Blob} {e : ℤ × ℤ} {fresh : Option (ℕ → ℕ)}

theorem hintBytes_concat : hintBytes (l ++ [e]) =
    hintBytes l ++ sqlite3Fts3PutVarint (u64 e.1) ++ sqlite3Fts3PutVarint (u64 e.2) := by
  rw [hintBytes, List.flatMap_append, List.flatMap_singleton, hintBytes, List.append_assoc]

theorem endsLow_hintBytes : ∀ l, hintBytes l = [] ∨ EndsLow (hintBytes l) := by
  intro l
  cases l using List.reverseRecOn with
  | nil => exact .inl rfl
  | append_singleton l e =>
    rw [hintBytes_concat]
    exact .inr ((EndsLow.varint (u64_lt e.2)).append_left _)

theorem write_append (a₁ a₂ l : List ℕ) (h : l.length ≤ a₂.length) :
    Blob.write ⟨a₁ ++ a₂, a₁.length⟩ l = some ⟨(a₁ ++ l) ++ a₂.drop l.length, (a₁ ++ l).length⟩ := by
  have hroom : a₁.length + l.length ≤ (a₁ ++ a₂).length := by
    rw [List.length_append]
    omega
  simp only [Blob.write]
  rw [if_pos hroom, List.take_left, List.drop_append, List.length_append]
  simp

/-- The room for two numbers, when it is there or the allocation succeeds. -/
theorem grow_room (fresh : Option (ℕ → ℕ)) {nMin : ℕ} (h : (blobGrowBuffer b nMin fresh).2 = .SQLITE_OK) :
    ∃ more, (blobGrowBuffer b nMin fresh).1 = { b with a := b.a ++ more } ∧
      nMin ≤ (b.a ++ more).length := by
  unfold blobGrowBuffer at h ⊢
  by_cases hmin : nMin > b.a.length
  · rw [if_pos hmin] at h ⊢
    cases fresh with
    | none => cases h
    | some byte =>
      refine ⟨_, rfl, ?_⟩
      rw [List.length_append, List.length_map, List.length_range]
      omega
  · rw [if_neg hmin]
    exact ⟨[], by rw [List.append_nil], by rw [List.append_nil]; omega⟩

/-- A push is a write inside the buffer, behind the entries. -/
theorem HintHolds.push (h : HintHolds l b) (he : IsPair e) :
    ∃ r, fts3IncrmergeHintPush b e.1 e.2 fresh = some r ∧ (r.2 = .SQLITE_OK → HintHolds (l ++ [e]) r.1) := by
  obtain ⟨stale, hbytes⟩ := h.bytes
  rcases hgrow : blobGrowBuffer b (b.n + 2 * FTS3_VARINT_MAX) fresh with ⟨b₁, rc⟩
  rw [fts3IncrmergeHintPush, hgrow]
  by_cases hrc : rc = .SQLITE_OK
  · obtain ⟨more, hb₁, hroom⟩ := grow_room fresh (by rw [hgrow]; exact hrc)
    rw [hbytes, h.used, List.length_append, List.length_append, FTS3_VARINT_MAX] at hroom
    obtain rfl : b₁ = ⟨hintBytes l ++ (stale ++ more), (hintBytes l).length⟩ := by
      rw [hgrow] at hb₁
      refine hb₁.trans ?_
      rw [hbytes, h.used, List.append_assoc]
    have hlen1 := length_putVarint_le (u64_lt e.1)
    have hlen2 := length_putVarint_le (u64_lt e.2)
    have hwrite1 := write_append (hintBytes l) (stale ++ more)
      (sqlite3Fts3PutVarint (u64 e.1)) (by rw [List.length_append]; omega)
    have hwrite2 := write_append (hintBytes l ++ sqlite3Fts3PutVarint (u64 e.1))
      ((stale ++ more).drop (sqlite3Fts3PutVarint (u64 e.1)).length) (sqlite3Fts3PutVarint (u64 e.2))
      (by rw [List.length_drop, List.length_append]; omega)
    rw [← hintBytes_concat] at hwrite2
    refine ⟨_, by simp only [hrc, if_true, hwrite1, hwrite2, Option.bind_eq_bind, Option.bind_some]; rfl,
      fun _ => ⟨?_, ⟨_, rfl⟩, rfl⟩⟩
    intro x hx
    rcases List.mem_append.mp hx with hx | hx
    · exact h.entries x hx
    · exact (List.mem_singleton.mp hx) ▸ he
  · exact ⟨(b₁, rc), by simp only [hrc, if_false], fun h => absurd h hrc⟩

theorem Built.holds (h : Built l b) : HintHolds l b := by
  induction h with
  | empty a => exact ⟨by simp, ⟨a, rfl⟩, rfl⟩
  | push _ he hpush ih =>
    obtain ⟨r, hr, hholds⟩ := ih.push he
    rw [hpush] at hr
    obtain rfl := Option.some.inj hr
    exact hholds rfl

theorem hintBytes_small (hc : (u64 e.2) < 128) :
    hintBytes (l ++ [e]) = hintBytes l ++ sqlite3Fts3PutVarint (u64 e.1) ++ [u64 e.2] := by
  rw [hintBytes_concat, putVarint_small hc]

/-- A count of one byte: the loops stop at the start of the level. -/
theorem HintHolds.pop (h : HintHolds (l ++ [e]) b) (hc : e.2 < 128) :
    fts3IncrmergeHintPop b = some (.SQLITE_OK, e.1, e.2, { b with n := (hintBytes l).length }) := by
  obtain ⟨⟨hx, hx'⟩, hn, hn'⟩ := h.entries e (List.mem_append_right l List.mem_cons_self)
  obtain ⟨stale, hbytes⟩ := h.bytes
  have hsmall : u64 e.2 < 128 := by
    rw [u64]
    omega
  have hused := h.used
  rw [hintBytes_small hsmall] at hbytes hused
  have hpos := length_putVarint_pos (u64_lt e.1)
  have hpre := endsLow_hintBytes l
  have hfrom : b.n - 2 = (hintBytes l).length + ((sqlite3Fts3PutVarint (u64 e.1)).length - 1) := by
    rw [hused, List.length_append, List.length_append, List.length_singleton]
    omega
  have hback : ¬b.n < 2 := by
    rw [hused, List.length_append, List.length_append, List.length_singleton]
    omega
  have hloop1 := reverseLoop_varint ([u64 e.2] ++ stale) (u64_lt e.1) hpre
    (a := b.a) (by rw [hbytes]; simp only [List.append_assoc]) (Nat.sub_lt hpos one_pos)
  have hloop2 := reverseLoop_start (a := b.a) (sqlite3Fts3PutVarint (u64 e.1) ++ [u64 e.2] ++ stale) hpre
    (by rw [hbytes]; simp only [List.append_assoc]) (n := 0) (by simp)
  have hdrop : b.a.drop (hintBytes l).length =
      sqlite3Fts3PutVarint (u64 e.1) ++ (sqlite3Fts3PutVarint (u64 e.2) ++ stale) := by
    rw [hbytes, putVarint_small hsmall, List.append_assoc, List.append_assoc, List.drop_left]
  have hend : b.a.length - stale.length = b.n := by
    rw [hbytes, hused, List.length_append, Nat.add_sub_cancel]
  have hlevel : i64 (u64 e.1) = e.1 := by
    rw [cast_u64 hx (by omega), i64_of_fits (by omega) hx']
  have hcount : i32 (u64 e.2) = e.2 := by
    rw [cast_u64 hn (by omega), i32_of_fits (by omega) hn']
  rw [fts3IncrmergeHintPop, if_neg hback, hfrom, hloop1]
  simp only [Option.bind_eq_bind, Option.bind_some]
  rw [Nat.add_zero] at hloop2
  rw [hloop2, Option.bind_some, hdrop, Fts.getVarint_putVarint (u64_lt _), Option.bind_some,
    sqlite3Fts3GetVarint32, Fts.getVarint_putVarint (u64_lt _)]
  simp [hend, hlevel, hcount]

/-- A count of more bytes: both loops stop at its start, and the count is read as the level. -/
theorem HintHolds.not_pop (h : HintHolds (l ++ [e]) b) (hc : 128 ≤ e.2) {x n : ℤ} :
    fts3IncrmergeHintPop b ≠ some (.SQLITE_OK, x, n, b') := by
  obtain ⟨-, hn, hn'⟩ := h.entries e (List.mem_append_right l List.mem_cons_self)
  obtain ⟨stale, hbytes⟩ := h.bytes
  have hused := h.used
  rw [hintBytes_concat] at hbytes hused
  set pre := hintBytes l ++ sqlite3Fts3PutVarint (u64 e.1) with hpredef
  have hpre : pre = [] ∨ EndsLow pre := .inr ((EndsLow.varint (u64_lt e.1)).append_left _)
  have hlen : 2 ≤ (sqlite3Fts3PutVarint (u64 e.2)).length := by
    rw [putVarint_big (by rw [u64]; omega) (u64_lt e.2), List.length_cons]
    have := length_putVarint_pos (v := u64 e.2 / 128) (by have := u64_lt e.2; omega)
    omega
  have hfrom : b.n - 2 = pre.length + ((sqlite3Fts3PutVarint (u64 e.2)).length - 2) := by
    rw [hused, List.length_append]
    omega
  have hloop1 := reverseLoop_varint (a := b.a) stale (u64_lt e.2) hpre hbytes
    (n := (sqlite3Fts3PutVarint (u64 e.2)).length - 2) (by omega)
  have hloop2 := reverseLoop_start (a := b.a) (sqlite3Fts3PutVarint (u64 e.2) ++ stale) hpre
    (by rw [hbytes, List.append_assoc]) (n := 0) (by simp)
  have hdrop : b.a.drop pre.length = sqlite3Fts3PutVarint (u64 e.2) ++ stale := by
    rw [hbytes, List.append_assoc, List.drop_left]
  intro hpop
  have hback : ¬b.n < 2 := by
    rw [hused, List.length_append]
    omega
  rw [fts3IncrmergeHintPop, if_neg hback, hfrom, hloop1] at hpop
  simp only [Option.bind_eq_bind, Option.bind_some] at hpop
  rw [Nat.add_zero] at hloop2
  rw [hloop2, Option.bind_some, hdrop, Fts.getVarint_putVarint (u64_lt _), Option.bind_some] at hpop
  obtain ⟨⟨i, p⟩, hget32, hpop⟩ := Option.bind_eq_some_iff.mp hpop
  obtain ⟨⟨i', p'⟩, hget, hp⟩ := Option.bind_eq_some_iff.mp hget32
  obtain ⟨-, rfl⟩ := Prod.mk.inj (Option.some.inj hp)
  have hlt : p'.length < stale.length := length_lt_of_getLoop hget
  have hend : b.a.length - p'.length ≠ b.n := by
    rw [hbytes, hused, List.length_append]
    omega
  rw [if_pos hend] at hpop
  cases hpop

/-- What `n` pops give, each of them with the return code `SQLITE_OK`. -/
def popAll : ℕ → Blob → Option (List (ℤ × ℤ))
  | 0, _ => some []
  | n + 1, b => do
    let (rc, iAbsLevel, nInput, b) ← fts3IncrmergeHintPop b
    if rc = .SQLITE_OK then (popAll n b).map fun l => (iAbsLevel, nInput) :: l else none

theorem HintHolds.of_concat (h : HintHolds (l ++ [e]) b) :
    HintHolds l { b with n := (hintBytes l).length } := by
  obtain ⟨stale, hbytes⟩ := h.bytes
  rw [hintBytes_concat, List.append_assoc, List.append_assoc] at hbytes
  exact ⟨fun x hx => h.entries x (List.mem_append_left _ hx), ⟨_, hbytes⟩, rfl⟩

theorem popAll_iff (h : HintHolds l b) : popAll l.length b = some l.reverse ↔ ∀ e ∈ l, e.2 < 128 := by
  induction l using List.reverseRecOn generalizing b with
  | nil => simp [popAll]
  | append_singleton l e ih =>
    rw [List.length_append, List.length_singleton, popAll, List.reverse_append]
    by_cases hc : e.2 < 128
    · have hrest := ih h.of_concat
      rw [h.pop hc]
      simp only [Option.bind_eq_bind, Option.bind_some, if_true]
      simp [hc, hrest, or_imp, forall_and]
    · have hlast : ¬∀ x ∈ l ++ [e], x.2 < 128 :=
        fun hall => hc (hall e (List.mem_append_right l List.mem_cons_self))
      refine iff_of_false (fun hpop => ?_) hlast
      obtain ⟨⟨rc, x, c, b'⟩, hpop, hrest⟩ := Option.bind_eq_some_iff.mp hpop
      by_cases hrc : rc = .SQLITE_OK
      · exact h.not_pop (not_lt.mp hc) (hrc ▸ hpop)
      · simp only [if_neg hrc] at hrest
        cases hrest

/-- A pushed entry is popped just when its count takes one byte, and all entries are, in the reverse
order, just when each of their counts does. -/
theorem hintPop_push_iff (h : Built l b) (he : IsPair e)
    (hpush : fts3IncrmergeHintPush b e.1 e.2 fresh = some (b', .SQLITE_OK)) :
    ((∃ b'', fts3IncrmergeHintPop b' = some (.SQLITE_OK, e.1, e.2, b'') ∧ b''.n = b.n) ↔ e.2 < 128) ∧
    (popAll (l ++ [e]).length b' = some (l ++ [e]).reverse ↔ ∀ x ∈ l ++ [e], x.2 < 128) := by
  have hholds : HintHolds (l ++ [e]) b' := (h.push he hpush).holds
  refine ⟨⟨fun ⟨b'', hpop, _⟩ => ?_, fun hc => ⟨_, hholds.pop hc, h.holds.used.symm⟩⟩, popAll_iff hholds⟩
  by_contra hc
  exact hholds.not_pop (not_lt.mp hc) hpop

/-- Two entries are pushed, and popped in the reverse order. -/
theorem hintPop_push_iff_two :
    popAll 2 ⟨5 :: 3 :: 172 :: 2 :: 127 :: List.replicate 17 0, 5⟩ = some [(300, 127), (5, 3)] := by
  have hfirst : Built [(5, 3)] ⟨5 :: 3 :: List.replicate 18 0, 2⟩ :=
    @Built.push [] ⟨[], 0⟩ _ (5, 3) (some fun _ => 0) (.empty [])
      ⟨⟨by decide, by decide⟩, by decide, by decide⟩ (by decide +kernel)
  exact (@hintPop_push_iff _ _ ⟨5 :: 3 :: 172 :: 2 :: 127 :: List.replicate 17 0, 5⟩ (300, 127)
    (some fun _ => 0) hfirst ⟨⟨by decide, by decide⟩, by decide, by decide⟩
    (by decide +kernel)).2.mpr (by decide)

/-- A count of 200 after the level 5: the count is taken for a level. -/
theorem hintPop_push_large :
    ¬∀ (l : List (ℤ × ℤ)) (b b' : Blob) (e : ℤ × ℤ) (fresh : Option (ℕ → ℕ)), Built l b → IsPair e →
      fts3IncrmergeHintPush b e.1 e.2 fresh = some (b', .SQLITE_OK) →
      ∃ b'', fts3IncrmergeHintPop b' = some (.SQLITE_OK, e.1, e.2, b'') ∧ b''.n = b.n := by
  intro h
  obtain ⟨b'', hpop, -⟩ := h [] ⟨[], 0⟩ ⟨5 :: 200 :: 1 :: List.replicate 17 0, 3⟩ (5, 200) (some fun _ => 0)
    (.empty []) ⟨⟨by decide, by decide⟩, by decide, by decide⟩ (by decide +kernel)
  have heq : fts3IncrmergeHintPop ⟨5 :: 200 :: 1 :: List.replicate 17 0, 3⟩ =
      some (.SQLITE_CORRUPT_VTAB, 200, 0, ⟨5 :: 200 :: 1 :: List.replicate 17 0, 1⟩) := by decide +kernel
  rw [heq] at hpop
  cases hpop

end Sqlite.Doclist

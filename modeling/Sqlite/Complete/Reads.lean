import Sqlite.Complete.Tokens

/-! The bytes that `sqlite3GetToken` reads. The memory `m` begins at the token and ends with the zero
byte of the text; a read behind it is `none`. -/
namespace Sqlite.Complete

open Numeric (ch sqlite3Isspace sqlite3Isdigit)

/-- `for(; p(z[i]); i++){}`, in the memory from `z[i]` on. -/
def skipRead (p : UInt8 → Bool) : List UInt8 → ℕ → Option ℕ
  | [], _ => none
  | c :: m, i => if p c then skipRead p m (i + 1) else some i

/-- The loop over a C comment, from `z[i]` on. -/
def commentRead : UInt8 → List UInt8 → ℕ → Option (ℕ × UInt8)
  | _, [], _ => none
  | c, d :: m, i =>
    if c = ch '*' ∧ d = ch '/' then some (i, c)
    else if d = 0 then some (i, 0)
    else commentRead d m (i + 1)

/-- The loop over a quoted text, from `z[i]` on. -/
def quoteRead (delim : UInt8) : List UInt8 → ℕ → Option (ℕ × UInt8)
  | [], _ => none
  | c :: m, i =>
    if c = 0 then some (i, 0)
    else if c = delim then
      m[0]?.bind fun d => if d = delim then quoteRead delim (m.drop 1) (i + 2) else some (i, c)
    else quoteRead delim m (i + 1)
termination_by m => m.length
decreasing_by
  · rw [List.length_drop, List.length_cons]
    omega
  · exact Nat.lt_succ_self _

/-- The loop over the name of a variable, from `z[i]` on. -/
def variableLoopRead : List UInt8 → ℕ → ℕ → Option (ℕ × ℕ × Bool)
  | [], _, _ => none
  | c :: m, i, n =>
    if c = 0 then some (i, n, false)
    else if IdChar c then variableLoopRead m (i + 1) (n + 1)
    else if c = ch '(' ∧ n > 0 then do
      let j ← skipRead (fun c => c ≠ 0 ∧ ¬ sqlite3Isspace c ∧ c ≠ ch ')') m 0
      let d ← m[j]?
      if d = ch ')' then return (i + 1 + j + 1, n, false) else return (i + 1 + j, n, true)
    else if c = ch ':' then
      m[0]?.bind fun d =>
        if d = ch ':' then variableLoopRead (m.drop 1) (i + 2) n else some (i, n, false)
    else some (i, n, false)
termination_by m => m.length
decreasing_by
  · exact Nat.lt_succ_self _
  · rw [List.length_drop, List.length_cons]
    omega

def variableRead (m : List UInt8) : Option (ℕ × TK) := do
  let r ← variableLoopRead (m.drop 1) 1 0
  return (r.1, if r.2.1 = 0 ∨ r.2.2 then .TK_ILLEGAL else .TK_VARIABLE)

def fractionRead (m : List UInt8) (i : ℕ) : Option (ℕ × TK) := do
  let c ← m[i]?
  if c = ch '.' then
    let i ← skipRead sqlite3Isdigit (m.drop (i + 1)) (i + 1)
    return (i, .TK_FLOAT)
  else return (i, .TK_INTEGER)

def exponentRead (m : List UInt8) (r : ℕ × TK) : Option (ℕ × TK) := do
  let c ← m[r.1]?
  if c = ch 'e' ∨ c = ch 'E' then
    let d ← m[r.1 + 1]?
    let isExponent ← if sqlite3Isdigit d then some true
      else if d = ch '+' ∨ d = ch '-' then m[r.1 + 2]?.map sqlite3Isdigit else some false
    if isExponent then
      let i ← skipRead sqlite3Isdigit (m.drop (r.1 + 2)) (r.1 + 2)
      return (i, .TK_FLOAT)
    else return r
  else return r

def numberRead (m : List UInt8) : Option (ℕ × TK) := do
  let i ← skipRead sqlite3Isdigit m 0
  let r ← fractionRead m i
  let r ← exponentRead m r
  let c ← m[r.1]?
  let i ← skipRead IdChar (m.drop r.1) r.1
  return (i, if IdChar c then .TK_ILLEGAL else r.2)

def blobRead (m : List UInt8) : Option (ℕ × TK) := do
  let i ← skipRead sqlite3Isxdigit (m.drop 2) 2
  let c ← m[i]?
  let (i, tokenType) ← if c ≠ ch '\'' ∨ i % 2 ≠ 0 then
      (skipRead (fun c => c ≠ 0 ∧ c ≠ ch '\'') (m.drop i) i).map fun i => (i, TK.TK_ILLEGAL)
    else some (i, TK.TK_BLOB)
  let c ← m[i]?
  return (if c ≠ 0 then i + 1 else i, tokenType)

/-- The identifiers and the characters that begin no token. -/
def wordRead (keywordCode : List UInt8 → TK) (m : List UInt8) (c : UInt8) : Option (ℕ × TK) :=
  if IdChar c then do
    let i ← skipRead IdChar (m.drop 1) 1
    return (i, keywordCode (m.take i))
  else some (1, .TK_ILLEGAL)

def getTokenRead (keywordCode : List UInt8 → TK) (m : List UInt8) : Option (ℕ × TK) := do
  let c ← m[0]?
  if c = ch ' ' ∨ c = ch '\t' ∨ c = ch '\n' ∨ c = 0x0c ∨ c = ch '\r' then
    let i ← skipRead sqlite3Isspace (m.drop 1) 1
    return (i, .TK_SPACE)
  else if c = ch '-' then
    let d ← m[1]?
    if d = ch '-' then
      let i ← skipRead (fun c => c ≠ 0 ∧ c ≠ ch '\n') (m.drop 2) 2
      return (i, .TK_SPACE)
    else return (1, .TK_MINUS)
  else if c = ch '/' then
    let d ← m[1]?
    if d ≠ ch '*' then return (1, .TK_SLASH)
    else
      let e ← m[2]?
      if e = 0 then return (1, .TK_SLASH)
      else
        let r ← commentRead e (m.drop 3) 3
        return (if r.2 ≠ 0 then r.1 + 1 else r.1, .TK_SPACE)
  else if c = ch '`' ∨ c = ch '\'' ∨ c = ch '"' then
    let r ← quoteRead c (m.drop 1) 1
    if r.2 = ch '\'' then return (r.1 + 1, .TK_STRING)
    else if r.2 ≠ 0 then return (r.1 + 1, .TK_ID)
    else return (r.1, .TK_ILLEGAL)
  else if c = ch '.' then
    let d ← m[1]?
    if sqlite3Isdigit d then numberRead m else return (1, .TK_DOT)
  else if sqlite3Isdigit c then numberRead m
  else if c = ch '[' then
    let i ← skipRead (fun c => c ≠ 0 ∧ c ≠ ch ']') (m.drop 1) 1
    let d ← m[i]?
    if d = ch ']' then return (i + 1, .TK_ID) else return (i, .TK_ILLEGAL)
  else if c = ch '?' then
    let i ← skipRead sqlite3Isdigit (m.drop 1) 1
    return (i, .TK_VARIABLE)
  else if c = ch '#' then
    let i ← skipRead sqlite3Isdigit (m.drop 1) 1
    if i > 1 then return (i, .TK_REGISTER) else variableRead m
  else if c = ch '$' ∨ c = ch '@' ∨ c = ch ':' then variableRead m
  else if c = ch 'x' ∨ c = ch 'X' then
    let d ← m[1]?
    if d = ch '\'' then blobRead m else wordRead keywordCode m c
  else if c = ch '=' ∨ c = ch '<' ∨ c = ch '>' ∨ c = ch '!' ∨ c = ch '|' then
    let d ← m[1]?
    operator c d
  else
    match oneByte c with
    | some tokenType => return (1, tokenType)
    | none => wordRead keywordCode m c

variable {p : UInt8 → Bool} {z w : List UInt8} {i n : ℕ}

/-- The memory of a text. -/
def mem (z : List UInt8) : List UInt8 := z ++ [0]

theorem mem_get (hi : i ≤ z.length) : (mem z)[i]? = some (byteAt z i) := by
  rw [mem, byteAt, List.getD_eq_getElem?_getD]
  rcases hi.lt_or_eq with hlt | rfl
  · rw [List.getElem?_append_left hlt, List.getElem?_eq_getElem hlt, Option.getD_some]
  · rw [List.getElem?_append_right le_rfl, List.getElem?_eq_none le_rfl, Nat.sub_self]
    rfl

theorem mem_drop (hi : i ≤ z.length) : (mem z).drop i = mem (z.drop i) := by
  rw [mem, List.drop_append_of_le_length hi, mem]

theorem mem_cons (c : UInt8) (z : List UInt8) : mem (c :: z) = c :: mem z := rfl

theorem lt_of_byteAt (h : byteAt z i ≠ 0) : i < z.length := by
  by_contra hi
  rw [byteAt, List.getD_eq_getElem?_getD, List.getElem?_eq_none (not_lt.mp hi)] at h
  exact h rfl

/-! The loops read no more than the zero byte at the end. -/

theorem skipRead_mem (hp : p 0 = false) (w : List UInt8) (i : ℕ) :
    skipRead p (mem w) i = some (i + (w.takeWhile p).length) := by
  induction w generalizing i with
  | nil => simp [mem, skipRead, hp]
  | cons c w ih =>
    rw [mem_cons, skipRead]
    by_cases hc : p c
    · rw [if_pos hc, ih, List.takeWhile_cons_of_pos hc, List.length_cons]
      congr 1
      omega
    · rw [if_neg hc, List.takeWhile_cons_of_neg hc, List.length_nil, Nat.add_zero]

theorem skipRead_eq (hp : p 0 = false) (hi : i ≤ z.length) :
    skipRead p ((mem z).drop i) i = some (skipWhile p z i) := by
  rw [mem_drop hi, skipRead_mem hp, skipWhile]

theorem skipWhile_le (hi : i ≤ z.length) : skipWhile p z i ≤ z.length := by
  have hlen := (List.takeWhile_prefix (l := z.drop i) p).length_le
  rw [List.length_drop] at hlen
  rw [skipWhile]
  omega

theorem commentRead_eq (c : UInt8) (w : List UInt8) (i : ℕ) :
    commentRead c (mem w) i = some (commentLoop c w i) := by
  induction w generalizing c i with
  | nil =>
    have hend : ¬(c = ch '*' ∧ (0 : UInt8) = ch '/') := fun h => absurd h.2 (by decide)
    rw [mem, List.nil_append, commentRead, if_neg hend, if_pos rfl, commentLoop]
  | cons d w ih =>
    rw [mem_cons, commentRead, commentLoop, ih]
    split_ifs <;> rfl

theorem commentLoop_le (c : UInt8) (w : List UInt8) (i : ℕ) :
    (commentLoop c w i).1 ≤ i + w.length ∧
      ((commentLoop c w i).2 ≠ 0 → (commentLoop c w i).1 < i + w.length) := by
  induction w generalizing c i with
  | nil => exact ⟨le_rfl, fun h => absurd rfl h⟩
  | cons d w ih =>
    rw [commentLoop, List.length_cons]
    split_ifs
    · exact ⟨Nat.le_add_right i _, fun _ => by omega⟩
    · exact ⟨Nat.le_add_right i _, fun h => absurd rfl h⟩
    · have := ih d (i + 1)
      exact ⟨by omega, fun h => by have := this.2 h; omega⟩

theorem quoteRead_eq {delim : UInt8} (hdelim : delim ≠ 0) (w : List UInt8) (i : ℕ) :
    quoteRead delim (mem w) i = some (quoteLoop delim w i) := by
  induction w, i using quoteLoop.induct delim with
  | case1 i => rw [mem, List.nil_append, quoteRead, if_pos rfl, quoteLoop]
  | case2 z i => rw [mem_cons, quoteRead, if_pos rfl, quoteLoop, if_pos rfl]
  | case3 z i hd h0 ih =>
    have hz : 0 < z.length := lt_of_byteAt (hd ▸ hdelim)
    rw [mem_cons, quoteRead, if_neg h0, if_pos rfl, quoteLoop, if_neg h0, if_pos rfl, if_pos hd,
      mem_get (Nat.zero_le _), Option.bind_some, if_pos hd, mem_drop hz, ih]
  | case4 z i hd h0 =>
    rw [mem_cons, quoteRead, if_neg h0, if_pos rfl, quoteLoop, if_neg h0, if_pos rfl, if_neg hd,
      mem_get (Nat.zero_le _), Option.bind_some, if_neg hd]
  | case5 c z i h0 hc ih => rw [mem_cons, quoteRead, if_neg h0, if_neg hc, quoteLoop, if_neg h0,
    if_neg hc, ih]

theorem quoteLoop_le (delim : UInt8) (w : List UInt8) (i : ℕ) :
    (quoteLoop delim w i).1 ≤ i + w.length ∧
      ((quoteLoop delim w i).2 ≠ 0 → (quoteLoop delim w i).1 < i + w.length) := by
  induction w, i using quoteLoop.induct delim with
  | case1 i => exact ⟨by rw [quoteLoop]; rfl, fun h => absurd (by rw [quoteLoop]) h⟩
  | case2 z i =>
    rw [quoteLoop, if_pos rfl]
    exact ⟨Nat.le_add_right i _, fun h => absurd rfl h⟩
  | case3 z i hd h0 ih =>
    rw [quoteLoop, if_neg h0, if_pos rfl, if_pos hd, List.length_cons]
    rw [List.length_drop] at ih
    have hz : 0 < z.length := lt_of_byteAt (hd ▸ h0)
    exact ⟨by omega, fun h => by have := ih.2 h; omega⟩
  | case4 z i hd h0 =>
    rw [quoteLoop, if_neg h0, if_pos rfl, if_neg hd, List.length_cons]
    exact ⟨Nat.le_add_right i _, fun _ => by omega⟩
  | case5 c z i h0 hc ih =>
    rw [quoteLoop, if_neg h0, if_neg hc, List.length_cons]
    exact ⟨by omega, fun h => by have := ih.2 h; omega⟩

theorem variableLoopRead_eq (w : List UInt8) (i n : ℕ) :
    variableLoopRead (mem w) i n = some (variableLoop w i n) := by
  induction w, i, n using variableLoop.induct with
  | case1 i n => rw [mem, List.nil_append, variableLoopRead, if_pos rfl, variableLoop]
  | case2 z i n => rw [mem_cons, variableLoopRead, if_pos rfl, variableLoop, if_pos rfl]
  | case3 c z i n h0 hid ih =>
    rw [mem_cons, variableLoopRead, if_neg h0, if_pos hid, variableLoop, if_neg h0, if_pos hid, ih]
  | case4 c z i n h0 hid hp j hj =>
    have hskip : skipRead _ (mem z) 0 = some j := skipRead_eq (z := z) (by decide) (Nat.zero_le _)
    rw [mem_cons, variableLoopRead, if_neg h0, if_neg hid, if_pos hp, variableLoop, if_neg h0, if_neg hid,
      if_pos hp, hskip]
    simp only [Option.bind_eq_bind, Option.bind_some, mem_get (skipWhile_le (Nat.zero_le _)), j]
    rw [if_pos hj, if_pos hj]
    rfl
  | case5 c z i n h0 hid hp j hj =>
    have hskip : skipRead _ (mem z) 0 = some j := skipRead_eq (z := z) (by decide) (Nat.zero_le _)
    rw [mem_cons, variableLoopRead, if_neg h0, if_neg hid, if_pos hp, variableLoop, if_neg h0, if_neg hid,
      if_pos hp, hskip]
    simp only [Option.bind_eq_bind, Option.bind_some, mem_get (skipWhile_le (Nat.zero_le _)), j]
    rw [if_neg hj, if_neg hj]
    rfl
  | case6 c z i n h0 hid hp hd ih =>
    have hz : 0 < z.length := lt_of_byteAt (by rw [hd.2]; decide)
    rw [mem_cons, variableLoopRead, if_neg h0, if_neg hid, if_neg hp, if_pos hd.1, variableLoop, if_neg h0,
      if_neg hid, if_neg hp, if_pos hd, mem_get (Nat.zero_le _), Option.bind_some, if_pos hd.2,
      mem_drop hz, ih]
  | case7 c z i n h0 hid hp hd =>
    rw [mem_cons, variableLoopRead, if_neg h0, if_neg hid, if_neg hp, variableLoop, if_neg h0, if_neg hid,
      if_neg hp, if_neg hd, mem_get (Nat.zero_le _), Option.bind_some]
    by_cases hc : c = ch ':'
    · rw [if_pos hc, if_neg fun h => hd ⟨hc, h⟩]
    · rw [if_neg hc]

theorem variableLoop_le (w : List UInt8) (i n : ℕ) : (variableLoop w i n).1 ≤ i + w.length := by
  induction w, i, n using variableLoop.induct with
  | case1 i n => rw [variableLoop, List.length_nil, Nat.add_zero]
  | case2 z i n => rw [variableLoop, if_pos rfl]; exact Nat.le_add_right i _
  | case3 c z i n h0 hid ih =>
    rw [variableLoop, if_neg h0, if_pos hid, List.length_cons]
    omega
  | case4 c z i n h0 hid hp j hj =>
    have hlt : j < z.length := lt_of_byteAt (by rw [hj]; decide)
    rw [variableLoop, if_neg h0, if_neg hid, if_pos hp, if_pos hj, List.length_cons]
    show i + 1 + j + 1 ≤ _
    omega
  | case5 c z i n h0 hid hp j hj =>
    have hle : j ≤ z.length := skipWhile_le (Nat.zero_le _)
    rw [variableLoop, if_neg h0, if_neg hid, if_pos hp, if_neg hj, List.length_cons]
    show i + 1 + j ≤ _
    omega
  | case6 c z i n h0 hid hp hd ih =>
    have hz : 0 < z.length := lt_of_byteAt (by rw [hd.2]; decide)
    rw [variableLoop, if_neg h0, if_neg hid, if_neg hp, if_pos hd, List.length_cons]
    rw [List.length_drop] at ih
    omega
  | case7 c z i n h0 hid hp hd =>
    rw [variableLoop, if_neg h0, if_neg hid, if_neg hp, if_neg hd]
    exact Nat.le_add_right i _

/-! The tokens that take more than one loop. -/

theorem variableRead_eq (hz : z ≠ []) : variableRead (mem z) = some (variable_ z) := by
  have hlen : 1 ≤ z.length := List.length_pos_iff.mpr hz
  rw [variableRead, mem_drop hlen, variableLoopRead_eq]
  rfl

theorem fractionRead_eq (hi : i ≤ z.length) : fractionRead (mem z) i = some (fraction z i) ∧
    (fraction z i).1 ≤ z.length := by
  rw [fractionRead, mem_get hi, fraction]
  simp only [Option.bind_eq_bind, Option.bind_some]
  by_cases hdot : byteAt z i = ch '.'
  · have hlt : i < z.length := lt_of_byteAt (by rw [hdot]; decide)
    rw [if_pos hdot, if_pos hdot, skipRead_eq (by decide) hlt]
    exact ⟨rfl, skipWhile_le hlt⟩
  · rw [if_neg hdot, if_neg hdot]
    exact ⟨rfl, hi⟩

theorem isdigit_ne_zero {c : UInt8} (h : sqlite3Isdigit c) : c ≠ 0 := by
  rintro rfl
  exact absurd h (by decide)

theorem exponentRead_eq {r : ℕ × TK} (hr : r.1 ≤ z.length) :
    exponentRead (mem z) r = some (exponent z r) ∧ (exponent z r).1 ≤ z.length := by
  rw [exponentRead, mem_get hr, exponent]
  simp only [Option.bind_eq_bind, Option.bind_some]
  by_cases he : byteAt z r.1 = ch 'e' ∨ byteAt z r.1 = ch 'E'
  · have hlt : r.1 + 1 ≤ z.length :=
      lt_of_byteAt (by rcases he with he | he <;> rw [he] <;> decide)
    rw [if_pos he, mem_get hlt, Option.bind_some]
    by_cases hd : sqlite3Isdigit (byteAt z (r.1 + 1)) = true
    · have hlt2 : r.1 + 2 ≤ z.length := lt_of_byteAt (isdigit_ne_zero hd)
      have hskip := skipRead_eq (p := sqlite3Isdigit) (by decide) hlt2
      simp only [he, hd, true_or, and_self, if_true, Option.bind_some, hskip]
      exact ⟨rfl, skipWhile_le hlt2⟩
    · by_cases hsign : byteAt z (r.1 + 1) = ch '+' ∨ byteAt z (r.1 + 1) = ch '-'
      · have hlt2 : r.1 + 2 ≤ z.length :=
          lt_of_byteAt (by rcases hsign with h | h <;> rw [h] <;> decide)
        rw [if_neg hd, if_pos hsign, mem_get hlt2, Option.map_some, Option.bind_some]
        by_cases hd2 : sqlite3Isdigit (byteAt z (r.1 + 2)) = true
        · have hskip := skipRead_eq (p := sqlite3Isdigit) (by decide) hlt2
          simp only [he, hsign, hd2, and_self, or_true, if_true, hskip, Option.bind_some]
          exact ⟨rfl, skipWhile_le hlt2⟩
        · simp only [hd, hd2, Bool.false_eq_true, or_self, and_false, if_false]
          exact ⟨rfl, hr⟩
      · simp only [hd, hsign, Bool.false_eq_true, or_self, false_and, and_false, if_false]
        exact ⟨rfl, hr⟩
  · simp only [he, false_and, if_false]
    exact ⟨rfl, hr⟩

theorem numberRead_eq (z : List UInt8) : numberRead (mem z) = some (number z) ∧
    (number z).1 ≤ z.length := by
  have hi := skipWhile_le (p := sqlite3Isdigit) (Nat.zero_le z.length)
  obtain ⟨hfrac, hfracle⟩ := fractionRead_eq hi
  obtain ⟨hexp, hexple⟩ := exponentRead_eq hfracle
  have hskip := skipRead_eq (p := IdChar) (by decide) hexple
  have hdigits : skipRead sqlite3Isdigit (mem z) 0 = some (skipWhile sqlite3Isdigit z 0) :=
    skipRead_eq (by decide) (Nat.zero_le _)
  refine ⟨?_, skipWhile_le hexple⟩
  rw [numberRead, hdigits]
  simp only [Option.bind_eq_bind, Option.bind_some]
  rw [hfrac, Option.bind_some, hexp, Option.bind_some, mem_get hexple, Option.bind_some, hskip]
  rfl

theorem blobRead_eq (hlen : 2 ≤ z.length) : blobRead (mem z) = some (blob z) ∧
    (blob z).1 ≤ z.length := by
  have hi := skipWhile_le (p := sqlite3Isxdigit) hlen
  have hstep : ∀ {i : ℕ} {t : TK}, i ≤ z.length →
      (if byteAt z i ≠ 0 then i + 1 else i, t).1 ≤ z.length := by
    intro i t hi
    dsimp only
    split_ifs with hne
    · exact lt_of_byteAt hne
    · exact hi
  rw [blobRead, skipRead_eq (by decide) hlen, blob]
  simp only [Option.bind_eq_bind, Option.bind_some, mem_get hi]
  by_cases hbad : byteAt z (skipWhile sqlite3Isxdigit z 2) ≠ ch '\'' ∨
      skipWhile sqlite3Isxdigit z 2 % 2 ≠ 0
  · have hj := skipWhile_le (p := fun c => decide (c ≠ 0 ∧ c ≠ ch '\'')) hi
    rw [if_pos hbad, if_pos hbad, skipRead_eq (by decide) hi]
    simp only [Option.map_some, Option.bind_some, mem_get hj]
    exact ⟨rfl, hstep (t := .TK_ILLEGAL) hj⟩
  · rw [if_neg hbad, if_neg hbad]
    exact ⟨rfl, hstep (t := .TK_BLOB) hi⟩

variable {keywordCode : List UInt8 → TK}

theorem wordRead_eq (hz : z ≠ []) : wordRead keywordCode (mem z) (byteAt z 0) =
    some (if IdChar (byteAt z 0) then (skipWhile IdChar z 1, keywordCode (z.take (skipWhile IdChar z 1)))
      else (1, .TK_ILLEGAL)) := by
  have hlen : 1 ≤ z.length := List.length_pos_iff.mpr hz
  rw [wordRead]
  split_ifs
  · rw [skipRead_eq (by decide) hlen, Option.bind_eq_bind, Option.bind_some, mem,
      List.take_append_of_le_length (skipWhile_le hlen)]
    rfl
  · rfl

theorem operator_eq_none {c : UInt8}
    (h : ¬(c = ch '=' ∨ c = ch '<' ∨ c = ch '>' ∨ c = ch '!' ∨ c = ch '|')) (d : UInt8) :
    operator c d = none := by
  simp only [not_or] at h
  obtain ⟨h1, h2, h3, h4, h5⟩ := h
  rw [operator, if_neg h1, if_neg h2, if_neg h3, if_neg h4, if_neg h5]

theorem operator_eq_some {c : UInt8}
    (h : c = ch '=' ∨ c = ch '<' ∨ c = ch '>' ∨ c = ch '!' ∨ c = ch '|') (d : UInt8) :
    oneByte c = none ∧ ∃ r, operator c d = some r := by
  rcases h with rfl | rfl | rfl | rfl | rfl <;> exact ⟨by decide, _, rfl⟩

/-- Every byte that is read is one of the text or the zero byte behind it. -/
theorem getTokenRead_eq (hz : z ≠ []) :
    getTokenRead keywordCode (mem z) = some (sqlite3GetToken keywordCode z) := by
  have hlen : 1 ≤ z.length := List.length_pos_iff.mpr hz
  have h1 := mem_get (z := z) hlen
  rw [getTokenRead, mem_get (Nat.zero_le _)]
  simp only [Option.bind_eq_bind, Option.bind_some]
  unfold sqlite3GetToken
  extract_lets c
  by_cases hspace : c = ch ' ' ∨ c = ch '\t' ∨ c = ch '\n' ∨ c = 0x0c ∨ c = ch '\r'
  · rw [if_pos hspace, if_pos hspace, skipRead_eq (by decide) hlen]
    rfl
  rw [if_neg hspace, if_neg hspace]
  by_cases hminus : c = ch '-'
  · rw [if_pos hminus, if_pos hminus, h1, Option.bind_some]
    by_cases hnext : byteAt z 1 = ch '-'
    · have hlen2 : 2 ≤ z.length := lt_of_byteAt (by rw [hnext]; decide)
      rw [if_pos hnext, if_pos hnext, skipRead_eq (by decide) hlen2]
      rfl
    · rw [if_neg hnext, if_neg hnext]
      rfl
  rw [if_neg hminus, if_neg hminus]
  by_cases hslash : c = ch '/'
  · rw [if_pos hslash, if_pos hslash, h1, Option.bind_some]
    by_cases hnext : byteAt z 1 = ch '*'
    · have hlen2 : 2 ≤ z.length := lt_of_byteAt (by rw [hnext]; decide)
      rw [if_neg (not_not.mpr hnext), mem_get hlen2, Option.bind_some]
      by_cases hzero : byteAt z 2 = 0
      · rw [if_pos hzero, if_pos (.inr hzero)]
        rfl
      · rw [if_neg hzero, if_neg (not_or.mpr ⟨not_not.mpr hnext, hzero⟩), mem_drop (lt_of_byteAt hzero),
          commentRead_eq]
        rfl
    · rw [if_pos hnext, if_pos (.inl hnext)]
      rfl
  rw [if_neg hslash, if_neg hslash]
  by_cases hquote : c = ch '`' ∨ c = ch '\'' ∨ c = ch '"'
  · have hdelim : c ≠ 0 := by rcases hquote with h | h | h <;> rw [h] <;> decide
    rw [if_pos hquote, if_pos hquote, mem_drop hlen, quoteRead_eq hdelim,
      Option.bind_some]
    split_ifs <;> rfl
  rw [if_neg hquote, if_neg hquote]
  by_cases hdot : c = ch '.'
  · rw [if_pos hdot, if_pos hdot, h1, Option.bind_some, (numberRead_eq z).1]
    split_ifs <;> rfl
  rw [if_neg hdot, if_neg hdot]
  by_cases hdigit : sqlite3Isdigit c
  · rw [if_pos hdigit, if_pos hdigit, (numberRead_eq z).1]
  rw [if_neg hdigit, if_neg hdigit]
  by_cases hbracket : c = ch '['
  · rw [if_pos hbracket, if_pos hbracket, skipRead_eq (by decide) hlen,
      Option.bind_some, mem_get (skipWhile_le hlen), Option.bind_some]
    split_ifs <;> rfl
  rw [if_neg hbracket, if_neg hbracket]
  by_cases hquestion : c = ch '?'
  · rw [if_pos hquestion, if_pos hquestion, skipRead_eq (by decide) hlen]
    rfl
  rw [if_neg hquestion, if_neg hquestion]
  by_cases hhash : c = ch '#'
  · rw [if_pos hhash, if_pos hhash, skipRead_eq (by decide) hlen, Option.bind_some,
      variableRead_eq hz]
    split_ifs <;> rfl
  rw [if_neg hhash, if_neg hhash]
  by_cases hname : c = ch '$' ∨ c = ch '@' ∨ c = ch ':'
  · rw [if_pos hname, if_pos hname, variableRead_eq hz]
  rw [if_neg hname, if_neg hname]
  have hword : wordRead keywordCode (mem z) (byteAt z 0) = _ := wordRead_eq hz
  by_cases hx : c = ch 'x' ∨ c = ch 'X'
  · have hone : oneByte c = none := by rcases hx with h | h <;> rw [h] <;> decide
    have htwo : operator c (byteAt z 1) = none :=
      operator_eq_none (by rcases hx with h | h <;> rw [h] <;> decide) _
    rw [if_pos hx, h1, Option.bind_some]
    by_cases hnext : byteAt z 1 = ch '\''
    · rw [if_pos hnext, if_pos ⟨hx, hnext⟩, (blobRead_eq (lt_of_byteAt (by rw [hnext]; decide))).1]
    · rw [if_neg hnext, if_neg fun h => hnext h.2, hone, htwo]
      exact hword
  have hblob : ¬((c = ch 'x' ∨ c = ch 'X') ∧ byteAt z 1 = ch '\'') := fun h => hx h.1
  rw [if_neg hx, if_neg hblob]
  by_cases hop : c = ch '=' ∨ c = ch '<' ∨ c = ch '>' ∨ c = ch '!' ∨ c = ch '|'
  · obtain ⟨hone, r, hr⟩ := operator_eq_some hop (byteAt z 1)
    rw [if_pos hop, h1, Option.bind_some, hr, hone]
  · rw [if_neg hop, operator_eq_none hop]
    cases oneByte c with
    | some tokenType => rfl
    | none => exact hword

theorem blob_le (hlen : 2 ≤ z.length) : (blob z).1 ≤ z.length := (blobRead_eq hlen).2

theorem operator_le_two {c d : UInt8} {r : ℕ × TK} (h : operator c d = some r) : r.1 ≤ 2 := by
  unfold operator at h
  split at h
  · obtain rfl := Option.some.inj h
    dsimp only
    split <;> omega
  split at h
  · obtain rfl := Option.some.inj h
    split_ifs <;> exact Nat.le_of_ble_eq_true rfl
  split at h
  · obtain rfl := Option.some.inj h
    split_ifs <;> exact Nat.le_of_ble_eq_true rfl
  split at h
  · obtain rfl := Option.some.inj h
    exact le_rfl
  split at h
  · obtain rfl := Option.some.inj h
    split_ifs <;> exact Nat.le_of_ble_eq_true rfl
  · cases h

/-- At the end of the text every operator but `!` is one byte. -/
theorem operator_zero {c : UInt8} {r : ℕ × TK} (h : operator c 0 = some r) (hc : c ≠ ch '!') :
    r.1 = 1 := by
  unfold operator at h
  rw [if_neg hc] at h
  split at h
  · exact Option.some.inj h ▸ rfl
  split at h
  · exact Option.some.inj h ▸ rfl
  split at h
  · exact Option.some.inj h ▸ rfl
  split at h
  · exact Option.some.inj h ▸ rfl
  · cases h

/-- A token is no longer than the text, unless the text is a single `!`. -/
theorem Shape.le {r : ℕ × TK} (h : Shape keywordCode z r) (hz : byteAt z 0 ≠ 0) (hbang : z ≠ [ch '!']) :
    r.1 ≤ z.length := by
  have hlen : 1 ≤ z.length := lt_of_byteAt hz
  cases h with
  | space _ => exact skipWhile_le hlen
  | lineComment _ h => exact skipWhile_le (lt_of_byteAt (by rw [h]; decide))
  | minus _ _ => exact hlen
  | slash _ _ => exact hlen
  | comment _ _ h =>
    have hlen3 : 3 ≤ z.length := lt_of_byteAt h
    obtain ⟨hle, hlt⟩ := commentLoop_le (byteAt z 2) (z.drop 3) 3
    rw [List.length_drop] at hle hlt
    dsimp only
    split_ifs with hend
    · have := hlt hend
      omega
    · omega
  | quote _ =>
    obtain ⟨hle, hlt⟩ := quoteLoop_le (byteAt z 0) (z.drop 1) 1
    rw [List.length_drop] at hle hlt
    split_ifs with hend hend
    · have := hlt (by rw [hend]; decide)
      dsimp only
      omega
    · have := hlt hend
      dsimp only
      omega
    · dsimp only
      omega
  | dot _ => exact hlen
  | number _ => exact (numberRead_eq z).2
  | bracket _ =>
    split_ifs with hend
    · exact lt_of_byteAt (by rw [hend]; decide)
    · exact skipWhile_le hlen
  | question _ => exact skipWhile_le hlen
  | register _ => exact skipWhile_le hlen
  | name _ =>
    have hle := variableLoop_le (z.drop 1) 1 0
    rw [List.length_drop] at hle
    have heq : (variable_ z).1 = (variableLoop (z.drop 1) 1 0).1 := rfl
    omega
  | blob _ h => exact blob_le (lt_of_byteAt (by rw [h]; decide))
  | one _ => exact hlen
  | two h =>
    have htwo := operator_le_two h
    by_cases hend : z.length = 1
    · obtain ⟨c, rfl⟩ := List.length_eq_one_iff.mp hend
      exact (operator_zero h fun hc => hbang (congrArg (fun d => [d]) hc)).le
    · omega
  | word _ _ _ => exact skipWhile_le hlen
  | illegal => exact hlen

/-- The lengths of the tokens of a text, found by at most `n` calls from a pointer on. -/
def consume (keywordCode : List UInt8 → TK) : ℕ → List UInt8 → Option (List ℕ)
  | 0, _ => none
  | n + 1, m => do
    let c ← m[0]?
    if c = 0 then return []
    else
      let r ← getTokenRead keywordCode m
      let l ← consume keywordCode n (m.drop r.1)
      return r.1 :: l

/-- The rest of the text that some calls leave. -/
inductive Reached (keywordCode : List UInt8 → TK) : List UInt8 → List UInt8 → Prop
  | refl (z : List UInt8) : Reached keywordCode z z
  | step {z w : List UInt8} (hz : z ≠ [])
      (h : Reached keywordCode (z.drop (sqlite3GetToken keywordCode z).1) w) : Reached keywordCode z w

theorem getToken_bang : sqlite3GetToken keywordCode [ch '!'] = (2, .TK_ILLEGAL) := rfl

theorem consume_iff (hnul : 0 ∉ z) (hn : z.length < n) :
    (∃ l, consume keywordCode n (mem z) = some l ∧ l.sum = z.length) ↔
      ∀ w, Reached keywordCode z w → w ≠ [ch '!'] := by
  induction n generalizing z with
  | zero => exact absurd hn (Nat.not_lt_zero _)
  | succ n ih =>
    rw [consume, mem_get (Nat.zero_le _), Option.bind_eq_bind, Option.bind_some]
    cases z with
    | nil =>
      refine iff_of_true ⟨[], rfl, rfl⟩ fun w hw => ?_
      cases hw with
      | refl => exact List.cons_ne_nil _ _ |>.symm
      | step hz _ => exact absurd rfl hz
    | cons c z =>
      have hc : c ≠ 0 := fun h => hnul (h ▸ List.mem_cons_self)
      have hbyte : byteAt (c :: z) 0 = c := rfl
      have hshape := sqlite3GetToken_shape keywordCode (c :: z)
      rw [hbyte, if_neg hc, getTokenRead_eq (List.cons_ne_nil c z), Option.bind_eq_bind, Option.bind_some]
      by_cases hbang : c :: z = [ch '!']
      · refine iff_of_false ?_ fun h => h _ (.refl _) hbang
        rintro ⟨l, hl, -⟩
        obtain ⟨l', hl', -⟩ := Option.bind_eq_some_iff.mp hl
        rw [hbang, getToken_bang] at hl'
        cases n with
        | zero => cases hl'
        | succ n => cases hl'
      · have hle := hshape.le hc hbang
        have hpos := hshape.pos
        generalize hr : sqlite3GetToken keywordCode (c :: z) = r at hle hpos ⊢
        have hdrop : ∀ b ∈ (c :: z).drop r.1, b ∈ c :: z := fun b hb => List.mem_of_mem_drop hb
        have hrest := ih (z := (c :: z).drop r.1) (fun h => hnul (hdrop 0 h))
          (by rw [List.length_drop]; omega)
        have hstep : (∀ w, Reached keywordCode (c :: z) w → w ≠ [ch '!']) ↔
            ∀ w, Reached keywordCode ((c :: z).drop r.1) w → w ≠ [ch '!'] := by
          refine ⟨fun h w hw => h w (.step (List.cons_ne_nil c z) (by rwa [hr])), fun h w hw => ?_⟩
          cases hw with
          | refl => exact hbang
          | step _ hw => exact h w (by rwa [hr] at hw)
        rw [mem_drop hle, hstep, ← hrest, List.length_drop]
        constructor
        · rintro ⟨l, hl, hsum⟩
          obtain ⟨l', hl', hl⟩ := Option.bind_eq_some_iff.mp hl
          obtain rfl := Option.some.inj hl
          rw [List.sum_cons] at hsum
          exact ⟨l', hl', by omega⟩
        · rintro ⟨l, hl, hsum⟩
          exact ⟨r.1 :: l, by rw [hl]; rfl, by rw [List.sum_cons]; omega⟩

/-- The token of a text that is not empty lies in it, and so do the bytes read for it, just when the text
is not a single `!`; so repeated calls take the text to its end just when they leave no such rest. -/
theorem getToken_partitions_iff (keywordCode : List UInt8 → TK) (z : List UInt8) (hnul : 0 ∉ z) :
    (z ≠ [] → ((∃ r, getTokenRead keywordCode (z ++ [0]) = some r ∧ 1 ≤ r.1 ∧ r.1 ≤ z.length) ↔
      z ≠ [ch '!'])) ∧
    ((∃ l, consume keywordCode (z.length + 1) (z ++ [0]) = some l ∧ l.sum = z.length) ↔
      ∀ w, Reached keywordCode z w → w ≠ [ch '!']) := by
  refine ⟨fun hz => ?_, consume_iff hnul (Nat.lt_succ_self _)⟩
  have hshape := sqlite3GetToken_shape keywordCode z
  have hread : getTokenRead keywordCode (z ++ [0]) = _ := getTokenRead_eq hz
  constructor
  · rintro ⟨r, hr, -, hle⟩ rfl
    rw [hread, getToken_bang] at hr
    obtain rfl := Option.some.inj hr
    exact absurd hle (by decide)
  · intro hbang
    refine ⟨_, hread, hshape.pos, hshape.le ?_ hbang⟩
    obtain ⟨c, z, rfl⟩ := List.exists_cons_of_ne_nil hz
    exact fun h => hnul (h ▸ List.mem_cons_self)

theorem getToken_partitions_iff_word :
    (∃ l, consume (fun _ => .TK_ID) 4 ([ch 'a', ch '!', ch '='] ++ [0]) = some l ∧ l.sum = 3) ↔
      ∀ w, Reached (fun _ => .TK_ID) [ch 'a', ch '!', ch '='] w → w ≠ [ch '!'] :=
  (getToken_partitions_iff (fun _ => .TK_ID) [ch 'a', ch '!', ch '='] (by decide)).2

/-- The text `!`: a token of two bytes. -/
theorem getToken_partitions_bang : ¬∀ z : List UInt8, z ≠ [] → 0 ∉ z →
    ∃ r, getTokenRead (fun _ => .TK_ID) (z ++ [0]) = some r ∧ 1 ≤ r.1 ∧ r.1 ≤ z.length := by
  intro h
  obtain ⟨r, hr, -, hle⟩ := h [ch '!'] (by decide) (by decide)
  have hbang : getTokenRead (fun _ => .TK_ID) ([ch '!'] ++ [0]) = some (2, .TK_ILLEGAL) := rfl
  rw [hbang] at hr
  obtain rfl := Option.some.inj hr
  exact absurd hle (by decide)

end Sqlite.Complete

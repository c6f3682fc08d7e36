import Sqlite.Numeric.Text

/-! The tokens of an SQL text (`tokenize.c`). A text is the list of its bytes and ends at a zero byte
or with the list. -/
namespace Sqlite.Complete

open Numeric (ch sqlite3CtypeMap sqlite3Isspace sqlite3Isdigit)

/-- The codes of tokens. The keywords besides those of `sqlite3_complete` are numbers. -/
inductive TK where
  | TK_SPACE | TK_MINUS | TK_LP | TK_RP | TK_SEMI | TK_PLUS | TK_STAR | TK_SLASH | TK_REM | TK_EQ
  | TK_LE | TK_NE | TK_LSHIFT | TK_LT | TK_GE | TK_RSHIFT | TK_GT | TK_BITOR | TK_CONCAT | TK_COMMA
  | TK_BITAND | TK_BITNOT | TK_STRING | TK_ID | TK_ILLEGAL | TK_DOT | TK_INTEGER | TK_FLOAT
  | TK_VARIABLE | TK_REGISTER | TK_BLOB | TK_CREATE | TK_TEMP | TK_TRIGGER | TK_END | TK_EXPLAIN
  | keyword (n : ℕ)
  deriving DecidableEq

def IdChar (C : UInt8) : Bool := sqlite3CtypeMap.getD C.toNat 0 &&& 0x46 ≠ 0

def sqlite3Isxdigit (x : UInt8) : Bool := sqlite3CtypeMap.getD x.toNat 0 &&& 0x08 ≠ 0

/-- `z[i]`. -/
def byteAt (z : List UInt8) (i : ℕ) : UInt8 := z.getD i 0

/-- `for(; p(z[i]); i++){}`, for a condition that no zero byte meets. -/
def skipWhile (p : UInt8 → Bool) (z : List UInt8) (i : ℕ) : ℕ := i + ((z.drop i).takeWhile p).length

/-- The loop over a C comment, at `i` with `c` before it; `c` is 0 where the text ends first. -/
def commentLoop : UInt8 → List UInt8 → ℕ → ℕ × UInt8
  | _, [], i => (i, 0)
  | c, d :: z, i =>
    if c = ch '*' ∧ d = ch '/' then (i, c)
    else if d = 0 then (i, 0)
    else commentLoop d z (i + 1)

/-- The loop over a quoted text, in which two quotes are one. -/
def quoteLoop (delim : UInt8) : List UInt8 → ℕ → ℕ × UInt8
  | [], i => (i, 0)
  | c :: z, i =>
    if c = 0 then (i, 0)
    else if c = delim then
      if byteAt z 0 = delim then quoteLoop delim (z.drop 1) (i + 2) else (i, c)
    else quoteLoop delim z (i + 1)
termination_by z => z.length
decreasing_by
  · rw [List.length_drop, List.length_cons]
    omega
  · exact Nat.lt_succ_self _

/-- The loop over the name of a variable: the place behind it, the number of characters in it, and
whether a parenthesis stays open. -/
def variableLoop : List UInt8 → ℕ → ℕ → ℕ × ℕ × Bool
  | [], i, n => (i, n, false)
  | c :: z, i, n =>
    if c = 0 then (i, n, false)
    else if IdChar c then variableLoop z (i + 1) (n + 1)
    else if c = ch '(' ∧ n > 0 then
      let j := skipWhile (fun c => c ≠ 0 ∧ ¬ sqlite3Isspace c ∧ c ≠ ch ')') z 0
      if byteAt z j = ch ')' then (i + 1 + j + 1, n, false) else (i + 1 + j, n, true)
    else if c = ch ':' ∧ byteAt z 0 = ch ':' then variableLoop (z.drop 1) (i + 2) n
    else (i, n, false)
termination_by z => z.length
decreasing_by
  · exact Nat.lt_succ_self _
  · rw [List.length_drop, List.length_cons]
    omega

/-- A name behind `$`, `@`, `:` or `#`. -/
def variable_ (z : List UInt8) : ℕ × TK :=
  let r := variableLoop (z.drop 1) 1 0
  (r.1, if r.2.1 = 0 ∨ r.2.2 then .TK_ILLEGAL else .TK_VARIABLE)

/-- A point and digits behind the first ones. -/
def fraction (z : List UInt8) (i : ℕ) : ℕ × TK :=
  if byteAt z i = ch '.' then (skipWhile sqlite3Isdigit z (i + 1), .TK_FLOAT) else (i, .TK_INTEGER)

def exponent (z : List UInt8) (r : ℕ × TK) : ℕ × TK :=
  if (byteAt z r.1 = ch 'e' ∨ byteAt z r.1 = ch 'E') ∧ (sqlite3Isdigit (byteAt z (r.1 + 1)) ∨
      ((byteAt z (r.1 + 1) = ch '+' ∨ byteAt z (r.1 + 1) = ch '-') ∧
        sqlite3Isdigit (byteAt z (r.1 + 2)))) then
    (skipWhile sqlite3Isdigit z (r.1 + 2), .TK_FLOAT)
  else r

def number (z : List UInt8) : ℕ × TK :=
  let r := exponent z (fraction z (skipWhile sqlite3Isdigit z 0))
  (skipWhile IdChar z r.1, if IdChar (byteAt z r.1) then .TK_ILLEGAL else r.2)

/-- `x` and a quoted text. -/
def blob (z : List UInt8) : ℕ × TK :=
  let i := skipWhile sqlite3Isxdigit z 2
  let (i, tokenType) :=
    if byteAt z i ≠ ch '\'' ∨ i % 2 ≠ 0 then
      (skipWhile (fun c => c ≠ 0 ∧ c ≠ ch '\'') z i, TK.TK_ILLEGAL)
    else (i, TK.TK_BLOB)
  (if byteAt z i ≠ 0 then i + 1 else i, tokenType)

/-- The tokens that are one byte, whatever follows. -/
def oneByte (c : UInt8) : Option TK :=
  if c = ch '(' then some .TK_LP
  else if c = ch ')' then some .TK_RP
  else if c = ch ';' then some .TK_SEMI
  else if c = ch '+' then some .TK_PLUS
  else if c = ch '*' then some .TK_STAR
  else if c = ch '%' then some .TK_REM
  else if c = ch ',' then some .TK_COMMA
  else if c = ch '&' then some .TK_BITAND
  else if c = ch '~' then some .TK_BITNOT
  else none

/-- The operators that may be two bytes. -/
def operator (c d : UInt8) : Option (ℕ × TK) :=
  if c = ch '=' then some (if d = ch '=' then 2 else 1, .TK_EQ)
  else if c = ch '<' then
    some (if d = ch '=' then (2, .TK_LE) else if d = ch '>' then (2, .TK_NE)
      else if d = ch '<' then (2, .TK_LSHIFT) else (1, .TK_LT))
  else if c = ch '>' then
    some (if d = ch '=' then (2, .TK_GE) else if d = ch '>' then (2, .TK_RSHIFT) else (1, .TK_GT))
  else if c = ch '!' then some (2, if d = ch '=' then .TK_NE else .TK_ILLEGAL)
  else if c = ch '|' then some (if d = ch '|' then (2, .TK_CONCAT) else (1, .TK_BITOR))
  else none

/-- The length and the code of the token at the beginning of `z`. `keywordCode` is the generated
function that looks an identifier up. -/
def sqlite3GetToken (keywordCode : List UInt8 → TK) (z : List UInt8) : ℕ × TK :=
  let c := byteAt z 0
  if c = ch ' ' ∨ c = ch '\t' ∨ c = ch '\n' ∨ c = 0x0c ∨ c = ch '\r' then
    (skipWhile sqlite3Isspace z 1, .TK_SPACE)
  else if c = ch '-' then
    if byteAt z 1 = ch '-' then (skipWhile (fun c => c ≠ 0 ∧ c ≠ ch '\n') z 2, .TK_SPACE)
    else (1, .TK_MINUS)
  else if c = ch '/' then
    if byteAt z 1 ≠ ch '*' ∨ byteAt z 2 = 0 then (1, .TK_SLASH)
    else
      let r := commentLoop (byteAt z 2) (z.drop 3) 3
      (if r.2 ≠ 0 then r.1 + 1 else r.1, .TK_SPACE)
  else if c = ch '`' ∨ c = ch '\'' ∨ c = ch '"' then
    let r := quoteLoop c (z.drop 1) 1
    if r.2 = ch '\'' then (r.1 + 1, .TK_STRING)
    else if r.2 ≠ 0 then (r.1 + 1, .TK_ID)
    else (r.1, .TK_ILLEGAL)
  else if c = ch '.' then
    if sqlite3Isdigit (byteAt z 1) then number z else (1, .TK_DOT)
  else if sqlite3Isdigit c then number z
  else if c = ch '[' then
    let i := skipWhile (fun c => c ≠ 0 ∧ c ≠ ch ']') z 1
    if byteAt z i = ch ']' then (i + 1, .TK_ID) else (i, .TK_ILLEGAL)
  else if c = ch '?' then (skipWhile sqlite3Isdigit z 1, .TK_VARIABLE)
  else if c = ch '#' then
    let i := skipWhile sqlite3Isdigit z 1
    if i > 1 then (i, .TK_REGISTER) else variable_ z
  else if c = ch '$' ∨ c = ch '@' ∨ c = ch ':' then variable_ z
  else if (c = ch 'x' ∨ c = ch 'X') ∧ byteAt z 1 = ch '\'' then blob z
  else
    match oneByte c, operator c (byteAt z 1) with
    | some tokenType, _ => (1, tokenType)
    | none, some r => r
    | none, none =>
      if IdChar c then
        let i := skipWhile IdChar z 1
        (i, keywordCode (z.take i))
      else (1, .TK_ILLEGAL)

/-- The tokens by their first bytes. -/
inductive Shape (keywordCode : List UInt8 → TK) (z : List UInt8) : ℕ × TK → Prop
  | space : (byteAt z 0 = ch ' ' ∨ byteAt z 0 = ch '\t' ∨ byteAt z 0 = ch '\n' ∨ byteAt z 0 = 0x0c ∨
      byteAt z 0 = ch '\r') → Shape keywordCode z (skipWhile sqlite3Isspace z 1, .TK_SPACE)
  | lineComment : byteAt z 0 = ch '-' → byteAt z 1 = ch '-' →
      Shape keywordCode z (skipWhile (fun c => c ≠ 0 ∧ c ≠ ch '\n') z 2, .TK_SPACE)
  | minus : byteAt z 0 = ch '-' → byteAt z 1 ≠ ch '-' → Shape keywordCode z (1, .TK_MINUS)
  | slash : byteAt z 0 = ch '/' → (byteAt z 1 ≠ ch '*' ∨ byteAt z 2 = 0) →
      Shape keywordCode z (1, .TK_SLASH)
  | comment : byteAt z 0 = ch '/' → byteAt z 1 = ch '*' → byteAt z 2 ≠ 0 →
      Shape keywordCode z (if (commentLoop (byteAt z 2) (z.drop 3) 3).2 ≠ 0
        then (commentLoop (byteAt z 2) (z.drop 3) 3).1 + 1
        else (commentLoop (byteAt z 2) (z.drop 3) 3).1, .TK_SPACE)
  | quote : (byteAt z 0 = ch '`' ∨ byteAt z 0 = ch '\'' ∨ byteAt z 0 = ch '"') →
      Shape keywordCode z (if (quoteLoop (byteAt z 0) (z.drop 1) 1).2 = ch '\'' then
          ((quoteLoop (byteAt z 0) (z.drop 1) 1).1 + 1, .TK_STRING)
        else if (quoteLoop (byteAt z 0) (z.drop 1) 1).2 ≠ 0 then
          ((quoteLoop (byteAt z 0) (z.drop 1) 1).1 + 1, .TK_ID)
        else ((quoteLoop (byteAt z 0) (z.drop 1) 1).1, .TK_ILLEGAL))
  | dot : byteAt z 0 = ch '.' → Shape keywordCode z (1, .TK_DOT)
  | number : (sqlite3Isdigit (byteAt z 0) ∨ byteAt z 0 = ch '.' ∧ sqlite3Isdigit (byteAt z 1)) →
      Shape keywordCode z (number z)
  | bracket : byteAt z 0 = ch '[' →
      Shape keywordCode z (if byteAt z (skipWhile (fun c => c ≠ 0 ∧ c ≠ ch ']') z 1) = ch ']' then
          (skipWhile (fun c => c ≠ 0 ∧ c ≠ ch ']') z 1 + 1, .TK_ID)
        else (skipWhile (fun c => c ≠ 0 ∧ c ≠ ch ']') z 1, .TK_ILLEGAL))
  | question : byteAt z 0 = ch '?' → Shape keywordCode z (skipWhile sqlite3Isdigit z 1, .TK_VARIABLE)
  | register : byteAt z 0 = ch '#' →
      Shape keywordCode z (skipWhile sqlite3Isdigit z 1, .TK_REGISTER)
  | name : (byteAt z 0 = ch '#' ∨ byteAt z 0 = ch '$' ∨ byteAt z 0 = ch '@' ∨ byteAt z 0 = ch ':') →
      Shape keywordCode z (variable_ z)
  | blob : (byteAt z 0 = ch 'x' ∨ byteAt z 0 = ch 'X') → byteAt z 1 = ch '\'' →
      Shape keywordCode z (blob z)
  | one {tokenType : TK} : oneByte (byteAt z 0) = some tokenType → Shape keywordCode z (1, tokenType)
  | two {r : ℕ × TK} : operator (byteAt z 0) (byteAt z 1) = some r → Shape keywordCode z r
  | word : IdChar (byteAt z 0) → byteAt z 0 ≠ ch '$' → ¬ sqlite3Isdigit (byteAt z 0) →
      Shape keywordCode z (skipWhile IdChar z 1, keywordCode (z.take (skipWhile IdChar z 1)))
  | illegal : Shape keywordCode z (1, .TK_ILLEGAL)

theorem sqlite3GetToken_shape (keywordCode : List UInt8 → TK) (z : List UInt8) :
    Shape keywordCode z (sqlite3GetToken keywordCode z) := by
  unfold sqlite3GetToken
  extract_lets c
  by_cases hspace : c = ch ' ' ∨ c = ch '\t' ∨ c = ch '\n' ∨ c = 0x0c ∨ c = ch '\r'
  · rw [if_pos hspace]
    exact .space hspace
  rw [if_neg hspace]
  by_cases hminus : c = ch '-'
  · rw [if_pos hminus]
    by_cases hnext : byteAt z 1 = ch '-'
    · rw [if_pos hnext]
      exact .lineComment hminus hnext
    · rw [if_neg hnext]
      exact .minus hminus hnext
  rw [if_neg hminus]
  by_cases hslash : c = ch '/'
  · rw [if_pos hslash]
    by_cases hnext : byteAt z 1 ≠ ch '*' ∨ byteAt z 2 = 0
    · rw [if_pos hnext]
      exact .slash hslash hnext
    · rw [if_neg hnext]
      obtain ⟨hstar, hzero⟩ := not_or.mp hnext
      exact .comment hslash (not_not.mp hstar) hzero
  rw [if_neg hslash]
  by_cases hquote : c = ch '`' ∨ c = ch '\'' ∨ c = ch '"'
  · rw [if_pos hquote]
    exact .quote hquote
  rw [if_neg hquote]
  by_cases hdot : c = ch '.'
  · rw [if_pos hdot]
    by_cases hnext : sqlite3Isdigit (byteAt z 1)
    · rw [if_pos hnext]
      exact .number (.inr ⟨hdot, hnext⟩)
    · rw [if_neg hnext]
      exact .dot hdot
  rw [if_neg hdot]
  by_cases hdigit : sqlite3Isdigit c
  · rw [if_pos hdigit]
    exact .number (.inl hdigit)
  rw [if_neg hdigit]
  by_cases hbracket : c = ch '['
  · rw [if_pos hbracket]
    exact .bracket hbracket
  rw [if_neg hbracket]
  by_cases hquestion : c = ch '?'
  · rw [if_pos hquestion]
    exact .question hquestion
  rw [if_neg hquestion]
  by_cases hhash : c = ch '#'
  · rw [if_pos hhash]
    split
    · exact .register hhash
    · exact .name (.inl hhash)
  rw [if_neg hhash]
  by_cases hname : c = ch '$' ∨ c = ch '@' ∨ c = ch ':'
  · rw [if_pos hname]
    exact .name (.inr hname)
  rw [if_neg hname]
  by_cases hblob : (c = ch 'x' ∨ c = ch 'X') ∧ byteAt z 1 = ch '\''
  · rw [if_pos hblob]
    exact .blob hblob.1 hblob.2
  rw [if_neg hblob]
  split
  · rename_i hone
    exact .one hone
  · rename_i htwo
    exact .two htwo
  · by_cases hid : IdChar c
    · rw [if_pos hid]
      exact .word hid (fun h => hname (.inl h)) hdigit
    · rw [if_neg hid]
      exact .illegal

variable {p : UInt8 → Bool} {z : List UInt8} {i n : ℕ}

theorem le_skipWhile : i ≤ skipWhile p z i := Nat.le_add_right i _

theorem le_commentLoop (c : UInt8) (z : List UInt8) (i : ℕ) : i ≤ (commentLoop c z i).1 := by
  induction z generalizing c i with
  | nil => exact le_rfl
  | cons d z ih =>
    rw [commentLoop]
    split
    · exact le_rfl
    split
    · exact le_rfl
    · exact (Nat.le_succ i).trans (ih d (i + 1))

theorem le_quoteLoop (delim : UInt8) (z : List UInt8) (i : ℕ) : i ≤ (quoteLoop delim z i).1 := by
  induction z, i using quoteLoop.induct delim with
  | case1 i => rw [quoteLoop]
  | case2 z i => rw [quoteLoop, if_pos rfl]
  | case3 z i hd h0 ih =>
    rw [quoteLoop, if_neg h0, if_pos rfl, if_pos hd]
    omega
  | case4 z i hd h0 => rw [quoteLoop, if_neg h0, if_pos rfl, if_neg hd]
  | case5 c z i h0 hc ih =>
    rw [quoteLoop, if_neg h0, if_neg hc]
    omega

theorem le_variableLoop (z : List UInt8) (i n : ℕ) : i ≤ (variableLoop z i n).1 := by
  induction z, i, n using variableLoop.induct with
  | case1 i n => rw [variableLoop]
  | case2 z i n => rw [variableLoop, if_pos rfl]
  | case3 c z i n h0 hid ih =>
    rw [variableLoop, if_neg h0, if_pos hid]
    omega
  | case4 c z i n h0 hid hp j hj =>
    rw [variableLoop, if_neg h0, if_neg hid, if_pos hp, if_pos hj]
    show i ≤ i + 1 + j + 1
    omega
  | case5 c z i n h0 hid hp j hj =>
    rw [variableLoop, if_neg h0, if_neg hid, if_pos hp, if_neg hj]
    show i ≤ i + 1 + j
    omega
  | case6 c z i n h0 hid hp hd ih =>
    rw [variableLoop, if_neg h0, if_neg hid, if_neg hp, if_pos hd]
    omega
  | case7 c z i n h0 hid hp hd => rw [variableLoop, if_neg h0, if_neg hid, if_neg hp, if_neg hd]

theorem le_fraction (z : List UInt8) (i : ℕ) : i ≤ (fraction z i).1 := by
  unfold fraction
  split
  · exact (Nat.le_succ i).trans le_skipWhile
  · exact le_rfl

theorem le_exponent (z : List UInt8) (r : ℕ × TK) : r.1 ≤ (exponent z r).1 := by
  unfold exponent
  split
  · exact (Nat.le_add_right _ 2).trans le_skipWhile
  · exact le_rfl

theorem number_pos (h : sqlite3Isdigit (byteAt z 0) ∨ byteAt z 0 = ch '.') : 1 ≤ (number z).1 := by
  have hexp := le_exponent z (fraction z (skipWhile sqlite3Isdigit z 0))
  have hfrac := le_fraction z (skipWhile sqlite3Isdigit z 0)
  have hid : (exponent z (fraction z (skipWhile sqlite3Isdigit z 0))).1 ≤ (number z).1 := le_skipWhile
  suffices hone : 1 ≤ (fraction z (skipWhile sqlite3Isdigit z 0)).1 by omega
  cases z with
  | nil => rcases h with h | h <;> exact absurd h (by decide)
  | cons b z =>
    by_cases hd : sqlite3Isdigit b
    · have hrun : 1 ≤ skipWhile sqlite3Isdigit (b :: z) 0 := by simp [skipWhile, hd]
      omega
    · have hzero : skipWhile sqlite3Isdigit (b :: z) 0 = 0 := by simp [skipWhile, hd]
      have hdot : byteAt (b :: z) 0 = ch '.' := h.resolve_left hd
      rw [hzero, fraction, if_pos hdot]
      exact le_skipWhile

theorem blob_pos (z : List UInt8) : 1 ≤ (blob z).1 := by
  have hle : 2 ≤ skipWhile sqlite3Isxdigit z 2 := le_skipWhile
  have hquote : skipWhile sqlite3Isxdigit z 2 ≤
      skipWhile (fun c => decide (c ≠ 0 ∧ c ≠ ch '\'')) z (skipWhile sqlite3Isxdigit z 2) :=
    le_skipWhile
  unfold blob
  dsimp only
  split_ifs <;> omega

theorem operator_pos {c d : UInt8} {r : ℕ × TK} (h : operator c d = some r) : 1 ≤ r.1 := by
  unfold operator at h
  split at h
  · obtain rfl := Option.some.inj h
    dsimp only
    split <;> omega
  split at h
  · obtain rfl := Option.some.inj h
    split_ifs <;> exact Nat.le_of_ble_eq_true rfl
  split at h
  · obtain rfl := Option.some.inj h
    split_ifs <;> exact Nat.le_of_ble_eq_true rfl
  split at h
  · obtain rfl := Option.some.inj h
    exact Nat.le_of_ble_eq_true rfl
  split at h
  · obtain rfl := Option.some.inj h
    split_ifs <;> exact Nat.le_of_ble_eq_true rfl
  · cases h

theorem Shape.pos {keywordCode : List UInt8 → TK} {r : ℕ × TK} (h : Shape keywordCode z r) :
    1 ≤ r.1 := by
  cases h with
  | space _ => exact le_skipWhile
  | lineComment _ _ => exact (Nat.le_succ 1).trans le_skipWhile
  | minus _ _ => exact le_rfl
  | slash _ _ => exact le_rfl
  | comment _ _ _ =>
    have hle := le_commentLoop (byteAt z 2) (z.drop 3) 3
    split <;> dsimp only <;> omega
  | quote _ =>
    have hle := le_quoteLoop (byteAt z 0) (z.drop 1) 1
    split_ifs <;> dsimp only <;> omega
  | dot _ => exact le_rfl
  | number h => exact number_pos (h.imp id And.left)
  | bracket _ =>
    have hle : 1 ≤ skipWhile (fun c => decide (c ≠ 0 ∧ c ≠ ch ']')) z 1 := le_skipWhile
    split <;> dsimp only <;> omega
  | question _ => exact le_skipWhile
  | register _ => exact le_skipWhile
  | name _ => exact le_variableLoop _ 1 0
  | blob _ _ => exact blob_pos z
  | one _ => exact le_rfl
  | two h => exact operator_pos h
  | word _ _ _ => exact le_skipWhile
  | illegal => exact le_rfl

/-- A token of a text: its code, its bytes, and the text behind it. -/
structure Token where
  type : TK
  text : List UInt8
  rest : List UInt8
  deriving DecidableEq

/-- The tokens of a text, as `sqlite3RunParser` takes them. -/
def tokens (keywordCode : List UInt8 → TK) : List UInt8 → List Token
  | [] => []
  | b :: z =>
    if b = 0 then []
    else
      let r := sqlite3GetToken keywordCode (b :: z)
      ⟨r.2, (b :: z).take r.1, (b :: z).drop r.1⟩ :: tokens keywordCode ((b :: z).drop r.1)
termination_by z => z.length
decreasing_by
  have hpos := (sqlite3GetToken_shape keywordCode (b :: z)).pos
  rw [List.length_drop, List.length_cons]
  omega

end Sqlite.Complete

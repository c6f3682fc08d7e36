import Sqlite.Complete.Tokens
import Sqlite.HashTable.Find

/-! The test for a complete statement (`complete.c`). -/
namespace Sqlite.Complete

open Numeric (ch)
open HashTable (sqlite3StrNICmp)

section

inductive State where
  | INVALID | START | NORMAL | EXPLAIN | CREATE | TRIGGER | SEMI | END
  deriving DecidableEq

inductive Tk where
  | tkSEMI | tkWS | tkOTHER | tkEXPLAIN | tkCREATE | tkTEMP | tkTRIGGER | tkEND
  deriving DecidableEq

/-- A row of the table: the states after `tkSEMI`, `tkWS` and so on. -/
def transRow : State → List State
  | .INVALID => [.START, .INVALID, .NORMAL, .EXPLAIN, .CREATE, .NORMAL, .NORMAL, .NORMAL]
  | .START => [.START, .START, .NORMAL, .EXPLAIN, .CREATE, .NORMAL, .NORMAL, .NORMAL]
  | .NORMAL => [.START, .NORMAL, .NORMAL, .NORMAL, .NORMAL, .NORMAL, .NORMAL, .NORMAL]
  | .EXPLAIN => [.START, .EXPLAIN, .EXPLAIN, .NORMAL, .CREATE, .NORMAL, .NORMAL, .NORMAL]
  | .CREATE => [.START, .CREATE, .NORMAL, .NORMAL, .NORMAL, .CREATE, .TRIGGER, .NORMAL]
  | .TRIGGER => [.SEMI, .TRIGGER, .TRIGGER, .TRIGGER, .TRIGGER, .TRIGGER, .TRIGGER, .TRIGGER]
  | .SEMI => [.SEMI, .SEMI, .TRIGGER, .TRIGGER, .TRIGGER, .TRIGGER, .TRIGGER, .END]
  | .END => [.START, .END, .TRIGGER, .TRIGGER, .TRIGGER, .TRIGGER, .TRIGGER, .TRIGGER]

def Tk.index : Tk → ℕ
  | .tkSEMI => 0
  | .tkWS => 1
  | .tkOTHER => 2
  | .tkEXPLAIN => 3
  | .tkCREATE => 4
  | .tkTEMP => 5
  | .tkTRIGGER => 6
  | .tkEND => 7

def trans (state : State) (token : Tk) : State := (transRow state).getD token.index .INVALID

/-- An identifier of `nId` characters at the beginning of `zSql`. -/
def wordToken (zSql : List UInt8) (nId : ℕ) : Tk :=
  let c := byteAt zSql 0
  if c = ch 'c' ∨ c = ch 'C' then
    if nId = 6 ∧ sqlite3StrNICmp 6 zSql ("create".toList.map ch) = 0 then .tkCREATE else .tkOTHER
  else if c = ch 't' ∨ c = ch 'T' then
    if nId = 7 ∧ sqlite3StrNICmp 7 zSql ("trigger".toList.map ch) = 0 then .tkTRIGGER
    else if nId = 4 ∧ sqlite3StrNICmp 4 zSql ("temp".toList.map ch) = 0 then .tkTEMP
    else if nId = 9 ∧ sqlite3StrNICmp 9 zSql ("temporary".toList.map ch) = 0 then .tkTEMP
    else .tkOTHER
  else if c = ch 'e' ∨ c = ch 'E' then
    if nId = 3 ∧ sqlite3StrNICmp 3 zSql ("end".toList.map ch) = 0 then .tkEND
    else if nId = 7 ∧ sqlite3StrNICmp 7 zSql ("explain".toList.map ch) = 0 then .tkEXPLAIN
    else .tkOTHER
  else .tkOTHER

/-- The text behind a C comment, when it ends. -/
def skipComment : List UInt8 → Option (List UInt8)
  | [] => none
  | [_] => none
  | c :: d :: zSql =>
    if c = 0 then none
    else if c = ch '*' ∧ d = ch '/' then some zSql
    else skipComment (d :: zSql)

/-- The text behind the next `c`, when there is one. -/
def skipTo (c : UInt8) : List UInt8 → Option (List UInt8)
  | [] => none
  | d :: zSql => if d = 0 then none else if d = c then some zSql else skipTo c zSql

/-- One round of the loop: the answer 0, the answer by the state, or a token and the text behind. -/
inductive Round where
  | zero
  | byState
  | token (t : Tk) (zSql : List UInt8)

/-- A token that ends where a search does, or what the search says without an end. -/
def Round.upTo (r : Round) (t : Tk) : Option (List UInt8) → Round
  | none => r
  | some zSql => .token t zSql

def round (b : UInt8) (zSql : List UInt8) : Round :=
  if b = ch ';' then .token .tkSEMI zSql
  else if b = ch ' ' ∨ b = ch '\r' ∨ b = ch '\t' ∨ b = ch '\n' ∨ b = 0x0c then .token .tkWS zSql
  else if b = ch '/' then
    if byteAt zSql 0 ≠ ch '*' then .token .tkOTHER zSql
    else Round.zero.upTo .tkWS (skipComment (zSql.drop 1))
  else if b = ch '-' then
    if byteAt zSql 0 ≠ ch '-' then .token .tkOTHER zSql
    else Round.byState.upTo .tkWS (skipTo (ch '\n') zSql)
  else if b = ch '[' then Round.zero.upTo .tkOTHER (skipTo (ch ']') zSql)
  else if b = ch '`' ∨ b = ch '"' ∨ b = ch '\'' then Round.zero.upTo .tkOTHER (skipTo b zSql)
  else if IdChar b then
    let nId := skipWhile IdChar (b :: zSql) 1
    .token (wordToken (b :: zSql) nId) (zSql.drop (nId - 1))
  else .token .tkOTHER zSql

variable {b c : UInt8} {z zSql rest : List UInt8} {t : Tk}

theorem skipComment_length (h : skipComment zSql = some rest) : rest.length < zSql.length := by
  induction zSql using skipComment.induct with
  | case1 => cases h
  | case2 => cases h
  | case3 d zSql => simp [skipComment] at h
  | case4 c d zSql h0 h1 =>
    rw [skipComment, if_neg h0, if_pos h1] at h
    cases h
    simp only [List.length_cons]
    omega
  | case5 c d zSql h0 h1 ih =>
    rw [skipComment, if_neg h0, if_neg h1] at h
    exact (ih h).trans (Nat.lt_succ_self _)

theorem skipTo_length (h : skipTo c zSql = some rest) : rest.length < zSql.length := by
  induction zSql with
  | nil => cases h
  | cons d zSql ih =>
    rw [skipTo] at h
    split at h
    · cases h
    split at h
    · cases h
      exact Nat.lt_succ_self _
    · exact (ih h).trans (Nat.lt_succ_self _)

theorem Round.upTo_length {r : Round} {t' : Tk} {o : Option (List UInt8)} {n : ℕ}
    (hr : ∀ t rest, r ≠ .token t rest) (ho : ∀ rest, o = some rest → rest.length ≤ n)
    (h : r.upTo t' o = .token t rest) : rest.length ≤ n := by
  cases o with
  | none => exact absurd h (hr t rest)
  | some z =>
    cases h
    exact ho _ rfl

theorem round_length (h : round b zSql = .token t rest) : rest.length ≤ zSql.length := by
  unfold round at h
  split_ifs at h
  · cases h
    rfl
  · cases h
    rfl
  · cases h
    rfl
  · refine Round.upTo_length (fun _ _ h => by cases h) (fun rest ho => ?_) h
    have hlt := skipComment_length ho
    rw [List.length_drop] at hlt
    omega
  · cases h
    rfl
  · exact Round.upTo_length (fun _ _ h => by cases h) (fun rest ho => (skipTo_length ho).le) h
  · exact Round.upTo_length (fun _ _ h => by cases h) (fun rest ho => (skipTo_length ho).le) h
  · exact Round.upTo_length (fun _ _ h => by cases h) (fun rest ho => (skipTo_length ho).le) h
  · cases h
    rw [List.length_drop]
    exact Nat.sub_le _ _
  · cases h
    rfl

/-- The loop over the text. -/
def completeLoop : List UInt8 → State → Bool
  | [], state => decide (state = .START)
  | b :: zSql, state =>
    if b = 0 then decide (state = .START)
    else
      match _h : round b zSql with
      | .zero => false
      | .byState => decide (state = .START)
      | .token t rest => completeLoop rest (trans state t)
termination_by zSql => zSql.length
decreasing_by exact Nat.lt_succ_of_le (round_length _h)

def sqlite3_complete (zSql : List UInt8) : Bool := completeLoop zSql .INVALID

end

/-! The automaton on the tokens of a text, and what is known of the text. -/

open Numeric (ch sqlite3Isspace)
open HashTable (fold)

/-- The token of the automaton for a token of the text. -/
def tokenTk : TK → Tk
  | .TK_SPACE => .tkWS
  | .TK_SEMI => .tkSEMI
  | .TK_CREATE => .tkCREATE
  | .TK_TEMP => .tkTEMP
  | .TK_TRIGGER => .tkTRIGGER
  | .TK_END => .tkEND
  | .TK_EXPLAIN => .tkEXPLAIN
  | _ => .tkOTHER

/-- The state of the automaton after some tokens. -/
def automaton (ts : List Token) (state : State) : State :=
  ts.foldl (fun state t => trans state (tokenTk t.type)) state

/-- What the code relies on of the generated function: it gives a keyword its own code, in upper and
lower case, and never the code of a token that is not a word. -/
structure KeywordTable (keywordCode : List UInt8 → TK) : Prop where
  create : ∀ z, keywordCode z = .TK_CREATE ↔ fold z = "create".toList.map ch
  temp : ∀ z, keywordCode z = .TK_TEMP ↔
    fold z = "temp".toList.map ch ∨ fold z = "temporary".toList.map ch
  trigger : ∀ z, keywordCode z = .TK_TRIGGER ↔ fold z = "trigger".toList.map ch
  end_ : ∀ z, keywordCode z = .TK_END ↔ fold z = "end".toList.map ch
  explain : ∀ z, keywordCode z = .TK_EXPLAIN ↔ fold z = "explain".toList.map ch
  word : ∀ z, keywordCode z ∉ [.TK_SPACE, .TK_SEMI, .TK_ILLEGAL, .TK_VARIABLE, .TK_REGISTER]

/-- A table of these keywords and no others. -/
def sixKeywords (z : List UInt8) : TK :=
  if fold z = "create".toList.map ch then .TK_CREATE
  else if fold z = "temp".toList.map ch ∨ fold z = "temporary".toList.map ch then .TK_TEMP
  else if fold z = "trigger".toList.map ch then .TK_TRIGGER
  else if fold z = "end".toList.map ch then .TK_END
  else if fold z = "explain".toList.map ch then .TK_EXPLAIN
  else .TK_ID

theorem sixKeywords_table : KeywordTable sixKeywords := by
  constructor <;> intro z <;> unfold sixKeywords <;> generalize fold z = w <;>
    split_ifs with h1 h2 h3 h4 h5
  all_goals first
    | decide
    | subst h1; decide
    | rcases h2 with rfl | rfl <;> decide
    | subst h3; decide
    | subst h4; decide
    | subst h5; decide
    | exact iff_of_false (by decide) ‹_›

/-- A C comment that is not closed. -/
def Token.Unterminated (t : Token) : Prop :=
  t.type = .TK_SPACE ∧ [ch '/', ch '*'] <+: t.text ∧
    ¬ ∃ z, t.text = ch '/' :: ch '*' :: (z ++ [ch '*', ch '/'])

theorem Token.unterminated_iff (t : Token) : t.Unterminated ↔
    t.type = .TK_SPACE ∧ [ch '/', ch '*'] <+: t.text ∧
      t.text ≠ ch '/' :: ch '*' :: ((t.text.drop 2).take (t.text.length - 4) ++ [ch '*', ch '/']) := by
  refine and_congr_right fun _ => and_congr_right fun _ => not_congr ⟨?_, fun h => ⟨_, h⟩⟩
  rintro ⟨z, hz⟩
  simp [hz]

instance (t : Token) : Decidable t.Unterminated := decidable_of_iff' _ t.unterminated_iff

/-- White space with a vertical tab. -/
def Token.HasVT (t : Token) : Prop :=
  t.type = .TK_SPACE ∧ sqlite3Isspace (byteAt t.text 0) ∧ 0x0b ∈ t.text

instance (t : Token) : Decidable t.HasVT := inferInstanceAs (Decidable (_ ∧ _))

/-- The keywords that have a token of their own. -/
def keywords : List (List UInt8) :=
  ["create", "temp", "temporary", "trigger", "end", "explain"].map fun word => word.toList.map ch

/-- A text before `rest` that is no more than an other token, also to a reader who knows no
variables: no semicolon stands in it, what is quoted, in brackets or a comment is closed in it, and
after EXPLAIN none of its words is a keyword or goes on in `rest`. -/
inductive Plain (s : State) (rest : List UInt8) : List UInt8 → Prop
  | nil : Plain s rest []
  | word {w z : List UInt8} : w ≠ [] → (∀ y ∈ w, IdChar y) →
      (s = .EXPLAIN → fold w ∉ keywords ∧ ¬ IdChar (byteAt (z ++ rest) 0)) →
      Plain s rest z → Plain s rest (w ++ z)
  | quoted {c : UInt8} {w z : List UInt8} : c = ch '`' ∨ c = ch '\'' ∨ c = ch '"' → c ∉ w →
      Plain s rest z → Plain s rest (c :: w ++ c :: z)
  | bracketed {w z : List UInt8} : ch ']' ∉ w → Plain s rest z →
      Plain s rest (ch '[' :: w ++ ch ']' :: z)
  | comment {w z : List UInt8} : ¬ [ch '*', ch '/'] <:+: w ++ [ch '*'] → Plain s rest z →
      Plain s rest (ch '/' :: ch '*' :: w ++ ch '*' :: ch '/' :: z)
  | byte {c : UInt8} {z : List UInt8} : ¬ IdChar c → c ∉ ";[`'\"".toList.map ch →
      (c = ch '-' → byteAt (z ++ rest) 0 ≠ ch '-') → (c = ch '/' → byteAt (z ++ rest) 0 ≠ ch '*') →
      Plain s rest z → Plain s rest (c :: z)

/-- A token that the loop can read as the automaton does in the state `s`: a vertical tab in white
space stands where other tokens change nothing, and a variable is plain. -/
structure Token.Readable (t : Token) (s : State) : Prop where
  space : t.HasVT → trans s .tkOTHER = s
  plain : t.type = .TK_VARIABLE ∨ t.type = .TK_REGISTER → Plain s t.rest t.text

/-- Some tokens, each with the state of the automaton before it. -/
def withStates : List Token → State → List (Token × State)
  | [], _ => []
  | t :: ts, s => (t, s) :: withStates ts (trans s (tokenTk t.type))

end Sqlite.Complete

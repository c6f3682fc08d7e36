import Sqlite.HashTable.Model
import Sqlite.Utf.Codes

/-! What a pattern matches, over the characters of the pattern and of the string. -/
namespace Sqlite.Func


section

/-! The operators LIKE and GLOB (`func.c`). -/

open Utf
open HashTable (sqlite3UpperToLower)

structure compareInfo where
  matchAll : ℕ
  matchOne : ℕ
  matchSet : ℕ
  noCase : Bool

def globInfo : compareInfo := ⟨'*'.toNat, '?'.toNat, '['.toNat, false⟩

def likeInfoNorm : compareInfo := ⟨'%'.toNat, '_'.toNat, 0, true⟩

def likeInfoAlt : compareInfo := ⟨'%'.toNat, '_'.toNat, 0, false⟩

def GlogUpperToLower (A : ℕ) : ℕ := if A < 0x80 then (sqlite3UpperToLower (.ofNat A)).toNat else A

/-- What is compared of a character. -/
def compareInfo.fold (pInfo : compareInfo) (c : ℕ) : ℕ :=
  if pInfo.noCase then GlogUpperToLower c else c

/-- The loop behind a `matchAll`. What follows is a character and the pattern from it and behind it,
and what is left of the string, or nothing when the string is too short. No pattern goes on after a
zero, so the end of the pattern ends the loop. -/
def skipAll (pInfo : compareInfo) :
    List UInt8 → List UInt8 → Option (ℕ × List UInt8 × List UInt8 × List UInt8)
  | [], zString => some (0, [], [], zString)
  | b :: zPattern, zString =>
    let r := sqlite3Utf8Read (b :: zPattern)
    if r.1 = pInfo.matchAll ∨ r.1 = pInfo.matchOne then
      if r.1 = pInfo.matchOne then
        let r2 := sqlite3Utf8Read zString
        if r2.1 = 0 then none else skipAll pInfo r.2 r2.2
      else skipAll pInfo r.2 zString
    else some (r.1, b :: zPattern, r.2, zString)
termination_by zPattern => zPattern.length
decreasing_by all_goals exact Nat.lt_succ_of_le (sqlite3Utf8Read_length b zPattern)

/-- `while( *zString && patternCompare(...)==0 )`. -/
def findSet (compare : List UInt8 → Bool) : List UInt8 → Bool
  | [] => false
  | b :: zString =>
    if b = 0 then false
    else if compare (b :: zString) then true
    else findSet compare (SQLITE_SKIP_UTF8 (b :: zString))
termination_by zString => zString.length
decreasing_by exact Nat.lt_succ_of_le (SQLITE_SKIP_UTF8_length b zString)

/-- The loop over the places where `c` stands in the string; the loop inside it, which looks for the
next one, goes on in the same way. -/
def findChar (pInfo : compareInfo) (c : ℕ) (compare : List UInt8 → Bool) : List UInt8 → Bool
  | [] => false
  | b :: zString =>
    let r := sqlite3Utf8Read (b :: zString)
    if r.1 = 0 then false
    else if pInfo.fold r.1 ≠ pInfo.fold c then findChar pInfo c compare r.2
    else if compare r.2 then true
    else findChar pInfo c compare r.2
termination_by zString => zString.length
decreasing_by all_goals exact Nat.lt_succ_of_le (sqlite3Utf8Read_length b zString)

/-- The loop over the members of a set: whether `c` was seen and the pattern behind the set, or
nothing when the set does not end. -/
def setLoop (c : ℕ) : List UInt8 → ℕ → Bool → Option (Bool × List UInt8)
  | [], _, _ => none
  | b :: zPattern, prior_c, seen =>
    let r := sqlite3Utf8Read (b :: zPattern)
    if r.1 = 0 then none
    else if r.1 = ']'.toNat then some (seen, r.2)
    else if r.1 = '-'.toNat ∧ r.2.head? ≠ some (.ofNat ']'.toNat) ∧ ¬ AtEnd r.2 ∧ prior_c > 0 then
      let r2 := sqlite3Utf8Read r.2
      setLoop c r2.2 0 (seen || decide (prior_c ≤ c ∧ c ≤ r2.1))
    else setLoop c r.2 r.1 (seen || decide (c = r.1))
termination_by zPattern => zPattern.length
decreasing_by
  · exact Nat.lt_succ_of_le ((sqlite3Utf8Read_length_le _).trans (sqlite3Utf8Read_length b zPattern))
  · exact Nat.lt_succ_of_le (sqlite3Utf8Read_length b zPattern)

/-- The members of a set; a first `]` is one of them. -/
def setBody (c : ℕ) (zPattern : List UInt8) : Option (Bool × List UInt8) :=
  let r := sqlite3Utf8Read zPattern
  if r.1 = ']'.toNat then setLoop c r.2 0 (decide (c = ']'.toNat)) else setLoop c zPattern 0 false

/-- The branch for a set: the pattern and the string behind it when the character is in it. -/
def compareSet (zPattern zString : List UInt8) : Option (List UInt8 × List UInt8) :=
  let r := sqlite3Utf8Read zString
  if r.1 = 0 then none
  else
    let r2 := sqlite3Utf8Read zPattern
    let invert := decide (r2.1 = '^'.toNat)
    match setBody r.1 (if invert then r2.2 else zPattern) with
    | none => none
    | some (seen, zPattern) => if (seen ^^ invert) = false then none else some (zPattern, r.2)

theorem skipAll_length {pInfo : compareInfo} {zPattern zString z0 z2 zRest : List UInt8} {c : ℕ}
    (h : skipAll pInfo zPattern zString = some (c, z0, z2, zRest)) :
    z0.length ≤ zPattern.length ∧ z2.length ≤ zPattern.length := by
  induction zPattern, zString using skipAll.induct pInfo with
  | case1 zString =>
    rw [skipAll] at h
    cases h
    exact ⟨le_rfl, le_rfl⟩
  | case2 b zPattern zString r h1 h2 r2 h0 =>
    rw [skipAll, if_pos h1, if_pos h2, if_pos h0] at h
    cases h
  | case3 b zPattern zString r h1 h2 r2 h0 ih =>
    rw [skipAll, if_pos h1, if_pos h2, if_neg h0] at h
    have hle := sqlite3Utf8Read_length_le (b :: zPattern)
    exact ⟨(ih h).1.trans hle, (ih h).2.trans hle⟩
  | case4 b zPattern zString r h1 h2 ih =>
    rw [skipAll, if_pos h1, if_neg h2] at h
    have hle := sqlite3Utf8Read_length_le (b :: zPattern)
    exact ⟨(ih h).1.trans hle, (ih h).2.trans hle⟩
  | case5 b zPattern zString r h1 =>
    rw [skipAll, if_neg h1] at h
    cases h
    exact ⟨le_rfl, sqlite3Utf8Read_length_le _⟩

theorem setLoop_length {c prior_c : ℕ} {zPattern z : List UInt8} {seen seen' : Bool}
    (h : setLoop c zPattern prior_c seen = some (seen', z)) : z.length ≤ zPattern.length := by
  induction zPattern, prior_c, seen using setLoop.induct c with
  | case1 =>
    rw [setLoop] at h
    cases h
  | case2 b zPattern prior_c seen r h0 =>
    rw [setLoop, if_pos h0] at h
    cases h
  | case3 b zPattern prior_c seen r h0 hend =>
    rw [setLoop, if_neg h0, if_pos hend] at h
    cases h
    exact sqlite3Utf8Read_length_le _
  | case4 b zPattern prior_c seen r h0 hend hrange r2 ih =>
    rw [setLoop, if_neg h0, if_neg hend, if_pos hrange] at h
    exact (ih h).trans ((sqlite3Utf8Read_length_le _).trans (sqlite3Utf8Read_length_le _))
  | case5 b zPattern prior_c seen r h0 hend hrange ih =>
    rw [setLoop, if_neg h0, if_neg hend, if_neg hrange] at h
    exact (ih h).trans (sqlite3Utf8Read_length_le _)

theorem setBody_length {c : ℕ} {zPattern z : List UInt8} {seen : Bool}
    (h : setBody c zPattern = some (seen, z)) : z.length ≤ zPattern.length := by
  unfold setBody at h
  dsimp only at h
  split at h
  · exact (setLoop_length h).trans (sqlite3Utf8Read_length_le _)
  · exact setLoop_length h

theorem compareSet_length {zPattern zString z zRest : List UInt8}
    (h : compareSet zPattern zString = some (z, zRest)) : z.length ≤ zPattern.length := by
  unfold compareSet at h
  dsimp only at h
  split at h
  · cases h
  split at h
  · cases h
  rename_i hset
  split at h
  · cases h
  cases h
  apply (setBody_length hset).trans
  split
  · exact sqlite3Utf8Read_length_le _
  · rfl

/-- The loop of `patternCompare`, from any place in the pattern and the string on. -/
def compareLoop (pInfo : compareInfo) (esc : ℕ) : List UInt8 → List UInt8 → Bool → Bool
  | [], zString, _ => decide (AtEnd zString)
  | b :: zPattern, zString, prevEscape =>
    let r := sqlite3Utf8Read (b :: zPattern)
    if r.1 = 0 then decide (AtEnd zString)
    else if prevEscape = false ∧ r.1 = pInfo.matchAll then
      match _h : skipAll pInfo r.2 zString with
      | none => false
      | some (c, z0, z2, zString) =>
        if c = 0 then true
        else if c = esc then
          let r2 := sqlite3Utf8Read z2
          if r2.1 = 0 then false
          else findChar pInfo r2.1 (fun z => compareLoop pInfo esc r2.2 z false) zString
        else if c = pInfo.matchSet then
          findSet (fun z => compareLoop pInfo esc z0 z false) zString
        else findChar pInfo c (fun z => compareLoop pInfo esc z2 z false) zString
    else if prevEscape = false ∧ r.1 = pInfo.matchOne then
      let r2 := sqlite3Utf8Read zString
      if r2.1 = 0 then false else compareLoop pInfo esc r.2 r2.2 prevEscape
    else if r.1 = pInfo.matchSet then
      match _h : compareSet r.2 zString with
      | none => false
      | some (z, zString) => compareLoop pInfo esc z zString prevEscape
    else if esc = r.1 ∧ prevEscape = false then compareLoop pInfo esc r.2 zString true
    else
      let r2 := sqlite3Utf8Read zString
      if pInfo.fold r.1 ≠ pInfo.fold r2.1 then false else compareLoop pInfo esc r.2 r2.2 false
termination_by zPattern => zPattern.length
decreasing_by
  all_goals apply Nat.lt_succ_of_le
  · exact (sqlite3Utf8Read_length_le z2).trans
      ((skipAll_length _h).2.trans (sqlite3Utf8Read_length b zPattern))
  · exact (skipAll_length _h).1.trans (sqlite3Utf8Read_length b zPattern)
  · exact (skipAll_length _h).2.trans (sqlite3Utf8Read_length b zPattern)
  · exact sqlite3Utf8Read_length b zPattern
  · exact (compareSet_length _h).trans (sqlite3Utf8Read_length b zPattern)
  · exact sqlite3Utf8Read_length b zPattern
  · exact sqlite3Utf8Read_length b zPattern

def patternCompare (zPattern zString : List UInt8) (pInfo : compareInfo) (esc : ℕ) : Bool :=
  compareLoop pInfo esc zPattern zString false

end

inductive Member where
  | one (x : ℕ)
  | range (x y : ℕ)

/-- A range from `x` has `x`, also when it ends before. -/
def Member.Has : Member → ℕ → Prop
  | .one x, c => c = x
  | .range x y, c => c = x ∨ (x ≤ c ∧ c ≤ y)

/-- The members between the brackets. A `-` between two characters makes a range of them. -/
def members : List ℕ → List Member
  | x :: d :: y :: p =>
    if d = '-'.toNat then .range x y :: members p else .one x :: members (d :: y :: p)
  | x :: p => .one x :: members p
  | [] => []

/-- What stands between the brackets, behind a `^`. A first `]` is a member, and nothing else. -/
inductive Body : List ℕ → List Member → Prop
  | lead {p : List ℕ} : ']'.toNat ∉ p → Body (']'.toNat :: p) (.one ']'.toNat :: members p)
  | plain {p : List ℕ} : ']'.toNat ∉ p → p ≠ [] → Body p (members p)

/-- A set behind its `[`: whether it is inverted, its members, and the pattern behind it. -/
inductive IsSet : List ℕ → Bool → List Member → List ℕ → Prop
  | pos {p rest : List ℕ} {ms : List Member} : Body p ms → p.head? ≠ some '^'.toNat →
      IsSet (p ++ ']'.toNat :: rest) false ms rest
  | neg {p rest : List ℕ} {ms : List Member} : Body p ms →
      IsSet ('^'.toNat :: (p ++ ']'.toNat :: rest)) true ms rest

/-- A pattern matches a string. -/
inductive Matches (pInfo : compareInfo) (esc : ℕ) : List ℕ → List ℕ → Prop
  | nil : Matches pInfo esc [] []
  | all {x : ℕ} {p t s : List ℕ} : x = pInfo.matchAll → t <:+ s → Matches pInfo esc p t →
      Matches pInfo esc (x :: p) s
  | one {x c : ℕ} {p s : List ℕ} : x = pInfo.matchOne → Matches pInfo esc p s →
      Matches pInfo esc (x :: p) (c :: s)
  | set {x c : ℕ} {p rest s : List ℕ} {neg : Bool} {ms : List Member} : x = pInfo.matchSet →
      IsSet p neg ms rest → ((∃ m ∈ ms, m.Has c) ↔ neg = false) → Matches pInfo esc rest s →
      Matches pInfo esc (x :: p) (c :: s)
  | escape {x c d : ℕ} {p s : List ℕ} : x = esc → pInfo.fold c = pInfo.fold d →
      Matches pInfo esc p s → Matches pInfo esc (x :: c :: p) (d :: s)
  | self {c d : ℕ} {p s : List ℕ} :
      c ≠ pInfo.matchAll → c ≠ pInfo.matchOne → c ≠ pInfo.matchSet → c ≠ esc →
      pInfo.fold c = pInfo.fold d → Matches pInfo esc p s → Matches pInfo esc (c :: p) (d :: s)

/-- No escape character stands unpaired at the end. -/
def Paired (esc : ℕ) : List ℕ → Prop
  | [] => True
  | [c] => c ≠ esc
  | c :: d :: p => if c = esc then Paired esc p else Paired esc (d :: p)

/-- GLOB has sets and no escape character, LIKE an escape character, or none (0), and no sets. -/
inductive Operator : compareInfo → ℕ → Prop
  | glob : Operator globInfo 0
  | like (esc : ℕ) : esc ≠ '%'.toNat → esc ≠ '_'.toNat → Operator likeInfoNorm esc
  | caseSensitive (esc : ℕ) : esc ≠ '%'.toNat → esc ≠ '_'.toNat → Operator likeInfoAlt esc

/-- The characters with a meaning of their own are different. -/
structure Apart (pInfo : compareInfo) (esc : ℕ) : Prop where
  all : pInfo.matchAll ≠ 0
  one : pInfo.matchOne ≠ 0
  allOne : pInfo.matchAll ≠ pInfo.matchOne
  setAll : pInfo.matchSet ≠ pInfo.matchAll
  setOne : pInfo.matchSet ≠ pInfo.matchOne
  escAll : esc ≠ pInfo.matchAll
  escOne : esc ≠ pInfo.matchOne
  setEsc : pInfo.matchSet = 0 ∨ esc = 0

theorem Operator.apart {pInfo : compareInfo} {esc : ℕ} (h : Operator pInfo esc) :
    Apart pInfo esc := by
  cases h with
  | glob => constructor <;> decide
  | like esc h1 h2 => exact ⟨by decide, by decide, by decide, by decide, by decide, h1, h2, .inl rfl⟩
  | caseSensitive esc h1 h2 =>
    exact ⟨by decide, by decide, by decide, by decide, by decide, h1, h2, .inl rfl⟩

variable {pInfo : compareInfo} {esc x c : ℕ} {p s t : List ℕ}

theorem matches_nil : Matches pInfo esc [] s ↔ s = [] := by
  constructor
  · intro h
    cases h
    rfl
  · rintro rfl
    exact .nil

/-- What stands behind a `matchAll`. -/
def Star (pInfo : compareInfo) (esc : ℕ) (p s : List ℕ) : Prop := ∃ t, t <:+ s ∧ Matches pInfo esc p t

theorem matches_all (h : Apart pInfo esc) :
    Matches pInfo esc (pInfo.matchAll :: p) s ↔ Star pInfo esc p s := by
  constructor
  · intro hm
    cases hm with
    | all _ ht hm => exact ⟨_, ht, hm⟩
    | one hx => exact absurd hx h.allOne
    | set hx => exact absurd hx.symm h.setAll
    | escape hx => exact absurd hx.symm h.escAll
    | self hx => exact absurd rfl hx
  · rintro ⟨t, ht, hm⟩
    exact .all rfl ht hm

theorem matches_one (h : Apart pInfo esc) :
    Matches pInfo esc (pInfo.matchOne :: p) s ↔ ∃ c t, s = c :: t ∧ Matches pInfo esc p t := by
  constructor
  · intro hm
    cases hm with
    | all hx => exact absurd hx.symm h.allOne
    | one _ hm => exact ⟨_, _, rfl, hm⟩
    | set hx => exact absurd hx.symm h.setOne
    | escape hx => exact absurd hx.symm h.escOne
    | self _ hx => exact absurd rfl hx
  · rintro ⟨c, t, rfl, hm⟩
    exact .one rfl hm

theorem matches_set (h : Apart pInfo esc) (h0 : pInfo.matchSet ≠ 0) :
    Matches pInfo esc (pInfo.matchSet :: p) s ↔ ∃ c t neg ms rest, s = c :: t ∧
      IsSet p neg ms rest ∧ ((∃ m ∈ ms, m.Has c) ↔ neg = false) ∧ Matches pInfo esc rest t := by
  have hesc : esc ≠ pInfo.matchSet := by
    have hor := h.setEsc
    omega
  constructor
  · intro hm
    cases hm with
    | all hx => exact absurd hx h.setAll
    | one hx => exact absurd hx h.setOne
    | set _ hset hc hm => exact ⟨_, _, _, _, _, rfl, hset, hc, hm⟩
    | escape hx => exact absurd hx.symm hesc
    | self _ _ hx => exact absurd rfl hx
  · rintro ⟨c, t, neg, ms, rest, rfl, hset, hc, hm⟩
    exact .set rfl hset hc hm

theorem matches_escape (h : Apart pInfo esc) (h0 : esc ≠ 0) :
    Matches pInfo esc (esc :: p) s ↔ ∃ c q d t, p = c :: q ∧ s = d :: t ∧
      pInfo.fold c = pInfo.fold d ∧ Matches pInfo esc q t := by
  have hset : pInfo.matchSet ≠ esc := by
    have hor := h.setEsc
    omega
  constructor
  · intro hm
    cases hm with
    | all hx => exact absurd hx h.escAll
    | one hx => exact absurd hx h.escOne
    | set hx => exact absurd hx.symm hset
    | escape _ hc hm => exact ⟨_, _, _, _, rfl, rfl, hc, hm⟩
    | self _ _ _ hx => exact absurd rfl hx
  · rintro ⟨c, q, d, t, rfl, rfl, hc, hm⟩
    exact .escape rfl hc hm

theorem matches_self (h1 : c ≠ pInfo.matchAll) (h2 : c ≠ pInfo.matchOne) (h3 : c ≠ pInfo.matchSet)
    (h4 : c ≠ esc) : Matches pInfo esc (c :: p) s ↔ ∃ d t, s = d :: t ∧
      pInfo.fold c = pInfo.fold d ∧ Matches pInfo esc p t := by
  constructor
  · intro hm
    cases hm with
    | all hx => exact absurd hx h1
    | one hx => exact absurd hx h2
    | set hx => exact absurd hx h3
    | escape hx => exact absurd hx h4
    | self _ _ _ _ hc hm => exact ⟨_, _, rfl, hc, hm⟩
  · rintro ⟨d, t, rfl, hc, hm⟩
    exact .self h1 h2 h3 h4 hc hm

theorem star_all (h : Apart pInfo esc) :
    Star pInfo esc (pInfo.matchAll :: p) s ↔ Star pInfo esc p s := by
  constructor
  · rintro ⟨t, ht, hm⟩
    obtain ⟨u, hu, hm⟩ := (matches_all h).mp hm
    exact ⟨u, hu.trans ht, hm⟩
  · rintro ⟨t, ht, hm⟩
    exact ⟨t, ht, (matches_all h).mpr ⟨t, List.suffix_rfl, hm⟩⟩

theorem star_one (h : Apart pInfo esc) :
    Star pInfo esc (pInfo.matchOne :: p) s ↔ ∃ c t, s = c :: t ∧ Star pInfo esc p t := by
  constructor
  · rintro ⟨t, ⟨w, hw⟩, hm⟩
    obtain ⟨c, t', rfl, hm'⟩ := (matches_one h).mp hm
    cases w with
    | nil => exact ⟨c, t', hw.symm, t', List.suffix_rfl, hm'⟩
    | cons d w => exact ⟨d, w ++ c :: t', hw.symm, t', ⟨w ++ [c], by simp⟩, hm'⟩
  · rintro ⟨c, t, rfl, u, ⟨w, rfl⟩, hm⟩
    obtain hnil | ⟨w', d, hd⟩ := List.eq_nil_or_concat' (c :: w)
    · cases hnil
    refine ⟨d :: u, ⟨w', ?_⟩, (matches_one h).mpr ⟨d, u, rfl, hm⟩⟩
    rw [← List.cons_append, hd, List.append_assoc, List.singleton_append]

/-! Sets. -/

theorem Body.ne_nil {ms : List Member} (h : Body p ms) : p ≠ [] := by
  cases h with
  | lead _ => exact List.cons_ne_nil _ _
  | plain _ hne => exact hne

/-- The members from a place on, with what the loop knows there: the character before, or 0. -/
def From (c prior : ℕ) : List ℕ → Prop
  | d :: y :: p =>
    if d = '-'.toNat ∧ prior > 0 then (prior ≤ c ∧ c ≤ y) ∨ ∃ m ∈ members p, m.Has c
    else ∃ m ∈ members (d :: y :: p), m.Has c
  | p => ∃ m ∈ members p, m.Has c

theorem from_zero : From c 0 p ↔ ∃ m ∈ members p, m.Has c := by
  unfold From
  split
  · rw [if_neg (by omega)]
  · rfl

theorem from_cons (hx : 0 < x) : From c 0 (x :: p) ↔ c = x ∨ From c x p := by
  rw [from_zero]
  cases p with
  | nil => simp [members, From, Member.Has]
  | cons d p =>
  cases p with
  | nil => simp [members, From, Member.Has]
  | cons y p =>
    by_cases hd : d = '-'.toNat
    · rw [members, if_pos hd, From, if_pos ⟨hd, hx⟩, List.exists_mem_cons_iff, Member.Has, or_assoc]
    · rw [members, if_neg hd, From, if_neg fun h => hd h.1, List.exists_mem_cons_iff, Member.Has]

/-- Outside of a range the character before does not count. -/
theorem from_plain {prior : ℕ} (h : x = '-'.toNat → prior > 0 → p = []) :
    From c prior (x :: p) ↔ From c 0 (x :: p) := by
  rw [from_zero]
  cases p with
  | nil => rfl
  | cons y p => rw [From, if_neg fun hx => List.cons_ne_nil y p (h hx.1 hx.2)]

end Sqlite.Func

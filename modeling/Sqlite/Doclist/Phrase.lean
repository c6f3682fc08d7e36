import Sqlite.Doclist.OrMerge

/-! The positions of a phrase from those of two parts of it (`fts3PoslistPhraseMerge`), and the doclist of
a phrase from those of two parts (`fts3DoclistPhraseMerge`), which is written over the right-hand input. -/
namespace Sqlite.Doclist

open Fts (sqlite3Fts3PutVarint sqlite3Fts3GetVarint)

/-- The output: the buffer that is written, and the offset of the next byte. `top` is the end of the
highest write so far, and `late` tells of one that ended past the next byte of the right-hand list. -/
structure Out where
  a : List ℕ
  p : ℕ := 0
  top : ℕ := 0
  late : Bool := false

/-- Bytes are written, with the right-hand list read up to offset `p2`. -/
def Out.put (o : Out) (p2 : ℕ) (w : List ℕ) : Out where
  a := o.a.take o.p ++ w ++ o.a.drop (o.p + w.length)
  p := o.p + w.length
  top := max o.top (o.p + w.length)
  late := o.late || decide (p2 < o.p + w.length)

/-- The bytes of the right-hand list from offset `p2` on. It is in a buffer of its own, or else (`none`) in
the one that is written. -/
def Out.right (o : Out) (src : Option (List ℕ)) (p2 : ℕ) : List ℕ := (src.getD o.a).drop p2

variable (src : Option (List ℕ))

/-- The next position of a column, after `i`; `none` at the end of the column. -/
def phraseNext (p : List ℕ) (i : ℤ) : Option (Option (List ℕ × ℤ)) := do
  let b ← p.head?
  if b &&& 0xFE = 0 then return none
  else
    let (p, i) ← fts3GetDeltaVarint p i
    return some (p, i64 (i - 2))

/-- The loop over the positions of a column of both lists. `saved` tells that a position was written
(`pSave==0`). Each round reads a number, so the bytes left bound the rounds. -/
def phraseLoop (nToken : ℤ) (isSaveLeft isExact : Bool) : ℕ → Out → List ℕ → ℕ → ℤ → ℤ → ℤ → Bool →
    Option (Out × List ℕ × ℕ × Bool)
  | 0, _, _, _, _, _, _, _ => none
  | n + 1, o, p1, p2, iPos1, iPos2, iPrev, saved =>
    let hit := iPos2 = iPos1 + nToken ∨
      (isExact = false ∧ iPos2 > iPos1 ∧ iPos2 ≤ iPos1 + nToken)
    let iSave := if isSaveLeft then iPos1 else iPos2
    let o' := if hit then o.put p2 (fts3PutDeltaVarint iPrev (iSave + 2)) else o
    let iPrev' := if hit then iSave else iPrev
    let saved' := if hit then true else saved
    if (isSaveLeft = false ∧ iPos2 ≤ iPos1 + nToken) ∨ iPos2 ≤ iPos1 then do
      let r := o'.right src p2
      match ← phraseNext r iPos2 with
      | none => return (o', p1, p2, saved')
      | some (q, iPos2) =>
        phraseLoop nToken isSaveLeft isExact n o' p1 (p2 + (r.length - q.length)) iPos1 iPos2 iPrev' saved'
    else do
      match ← phraseNext p1 iPos1 with
      | none => return (o', p1, p2, saved')
      | some (p1, iPos1) =>
        phraseLoop nToken isSaveLeft isExact n o' p1 p2 iPos1 iPos2 iPrev' saved'

/-- The number of a column, after the byte before it. -/
def columnNumber (p : List ℕ) : Option (ℤ × List ℕ) := do
  let (iCol, p) ← sqlite3Fts3GetVarint (p.drop 1)
  return (i32 iCol, p)

/-- A column that both lists have. -/
def phraseColumn (nToken : ℤ) (isSaveLeft isExact : Bool) (o : Out) (p1 : List ℕ) (p2 : ℕ) (iCol : ℤ) :
    Option (Out × List ℕ × ℕ) := do
  let o' := if iCol ≠ 0 then (o.put p2 [POS_COLUMN]).put p2 (sqlite3Fts3PutVarint (u64 iCol)) else o
  let (p1, iPos1) ← fts3GetDeltaVarint p1 0
  let r := o'.right src p2
  let (q, iPos2) ← fts3GetDeltaVarint r 0
  let p2 := p2 + (r.length - q.length)
  let (o', p1, p2, saved) ← phraseLoop src nToken isSaveLeft isExact (p1.length + q.length + 1) o' p1 p2
    (i64 (iPos1 - 2)) (i64 (iPos2 - 2)) 0 false
  let o' := if saved then o' else { o' with p := o.p }
  let (_, p1) ← fts3ColumnlistCopy p1
  let (n, _) ← fts3ColumnlistCopy (o'.right src p2)
  return (o', p1, p2 + n.length)

/-- The loop over the columns. -/
def phraseColumns (nToken : ℤ) (isSaveLeft isExact : Bool) : ℕ → Out → List ℕ → ℕ → ℤ → ℤ →
    Option (Out × List ℕ × ℕ)
  | 0, _, _, _, _, _ => none
  | n + 1, o, p1, p2, iCol1, iCol2 =>
    if iCol1 = iCol2 then do
      let (o, p1, p2) ← phraseColumn src nToken isSaveLeft isExact o p1 p2 iCol1
      let r := o.right src p2
      let b1 ← p1.head?
      let b2 ← r.head?
      if b1 = 0 ∨ b2 = 0 then return (o, p1, p2)
      else
        let (iCol1, p1) ← columnNumber p1
        let (iCol2, q) ← columnNumber r
        phraseColumns nToken isSaveLeft isExact n o p1 (p2 + (r.length - q.length)) iCol1 iCol2
    else if iCol1 < iCol2 then do
      let (_, p1) ← fts3ColumnlistCopy p1
      let b ← p1.head?
      if b = 0 then return (o, p1, p2)
      else
        let (iCol1, p1) ← columnNumber p1
        phraseColumns nToken isSaveLeft isExact n o p1 p2 iCol1 iCol2
    else do
      let (m, r) ← fts3ColumnlistCopy (o.right src p2)
      let b ← r.head?
      if b = 0 then return (o, p1, p2 + m.length)
      else
        let (iCol2, q) ← columnNumber r
        phraseColumns nToken isSaveLeft isExact n o p1 (p2 + m.length + (r.length - q.length)) iCol1 iCol2

/-- The column that a position list starts with. -/
def firstColumn (p : List ℕ) : Option (ℤ × List ℕ) := do
  let b ← p.head?
  if b = POS_COLUMN then columnNumber p else return (0, p)

/-- What is returned, the output, and the two lists after their position lists. -/
def fts3PoslistPhraseMerge (nToken : ℤ) (isSaveLeft isExact : Bool) (pp : Out) (p1 : List ℕ) (p2 : ℕ) :
    Option (Bool × Out × List ℕ × ℕ) := do
  let r := pp.right src p2
  let (iCol1, p1) ← firstColumn p1
  let (iCol2, q) ← firstColumn r
  let (o, p1, p2) ← phraseColumns src nToken isSaveLeft isExact (p1.length + r.length + 1) pp p1
    (p2 + (r.length - q.length)) iCol1 iCol2
  let (n, _) ← fts3PoslistCopy (o.right src p2)
  let (_, p1) ← fts3PoslistCopy p1
  let p2 := p2 + n.length
  if o.p = pp.p then return (false, o, p1, p2)
  else return (true, o.put p2 [POS_END], p1, p2)

/-- The docid at offset `p2` of the right-hand doclist, of `nRight` bytes. -/
def readRow (bDescDoclist : Bool) (nRight : ℕ) (o : Out) (p2 : ℕ) (i2 : ℤ) : Option (Option ℕ × ℤ) := do
  let r := if nRight ≤ p2 then [] else o.right none p2
  let (q, i2) ← fts3GetDeltaVarint3 bDescDoclist r i2
  return (q.map fun q => p2 + (r.length - q.length), i2)

/-- The loop of `fts3DoclistPhraseMerge`. -/
def phraseRows (bDescDoclist : Bool) (nDist : ℤ) (nRight : ℕ) : ℕ → Out → Option (List ℕ) → Option ℕ →
    ℤ → ℤ → ℤ → Bool → Option Out
  | 0, _, _, _, _, _, _, _ => none
  | n + 1, o, some p1, some p2, i1, i2, iPrev, bFirstOut =>
    let iDiff := DOCID_CMP bDescDoclist i1 i2
    if iDiff = 0 then do
      let o' := o.put p2 (fts3PutDeltaVarint3 bDescDoclist iPrev bFirstOut i1)
      let (res, o', p1, p2) ← fts3PoslistPhraseMerge none nDist false true o' p1 p2
      let o' := if res then o' else { o' with p := o.p }
      let iPrev := if res then i1 else iPrev
      let bFirstOut := if res then true else bFirstOut
      let (p1, i1) ← fts3GetDeltaVarint3 bDescDoclist p1 i1
      let (p2, i2) ← readRow bDescDoclist nRight o' p2 i2
      phraseRows bDescDoclist nDist nRight n o' p1 p2 i1 i2 iPrev bFirstOut
    else if iDiff < 0 then do
      let (_, p1) ← fts3PoslistCopy p1
      let (p1, i1) ← fts3GetDeltaVarint3 bDescDoclist p1 i1
      phraseRows bDescDoclist nDist nRight n o p1 (some p2) i1 i2 iPrev bFirstOut
    else do
      let (m, _) ← fts3PoslistCopy (o.right none p2)
      let (p2, i2) ← readRow bDescDoclist nRight o (p2 + m.length) i2
      phraseRows bDescDoclist nDist nRight n o (some p1) p2 i1 i2 iPrev bFirstOut
  | _ + 1, o, _, _, _, _, _, _ => some o

/-- The buffer of the right-hand doclist afterwards; its first `p` bytes are the result. -/
def fts3DoclistPhraseMerge (bDescDoclist : Bool) (nDist : ℤ) (aLeft aRight : List ℕ) : Option Out := do
  let (p1, i1) ← fts3GetDeltaVarint3 false aLeft 0
  let (q2, i2) ← fts3GetDeltaVarint3 false aRight 0
  phraseRows bDescDoclist nDist aRight.length (aLeft.length + aRight.length + 1) { a := aRight } p1
    (q2.map fun q => aRight.length - q.length) i1 i2 0 false

/-! The merge of two position lists, where each write stays behind the bytes still to be read. -/

variable {src}

/-- `out` has been written, and `R` is still to be read. -/
structure Out.At (o : Out) (src : Option (List ℕ)) (p2 : ℕ) (out R : List ℕ) : Prop where
  written : ∃ g, o.a = out ++ g
  pos : o.p = out.length
  top : o.p ≤ o.top
  inside : o.top ≤ o.a.length
  right : o.right src p2 = R
  size : p2 + R.length = (src.getD o.a).length

/-- There is room for `k` bytes ahead of the next byte to be read, if that is in the same buffer. -/
def Out.Room (o : Out) (src : Option (List ℕ)) (p2 k : ℕ) : Prop := src = none → o.p + k ≤ p2

/-- From `o` to `o'`: what is written and still to be read then. No write was late, and the writes stay
below `N` just when `fit N` holds. -/
structure Out.Step (o o' : Out) (src : Option (List ℕ)) (p2 : ℕ) (out R : List ℕ) (fit : ℕ → Prop) :
    Prop where
  state : o'.At src p2 out R
  room : o'.Room src p2 0
  late : src = none → o'.late = o.late
  size : (src.getD o'.a).length = (src.getD o.a).length
  top : ∀ N, o'.top ≤ N ↔ o.top ≤ N ∧ fit N

variable {o o' : Out} {p2 : ℕ} {out R w r : List ℕ}

/-- What a loop over one column leaves: positions that were not needed. -/
def Rest (t p : List ℕ) : Prop := ∃ x l, p = posBytes x l ++ t ∧ ∀ q ∈ l, q < 2 ^ 31

/-- The size of an output that is written in place. -/
theorem Out.At.put_size (h : o.At src p2 out R) (hroom : o.Room src p2 w.length) :
    (src.getD (o.put p2 w).a).length = (src.getD o.a).length := by
  have hsize := h.size
  cases src with
  | some s => rfl
  | none =>
    have hle := hroom rfl
    simp only [Option.getD_none, Out.put, List.length_append, List.length_take, List.length_drop] at hsize ⊢
    omega

theorem Out.At.put (h : o.At src p2 out R) (hroom : o.Room src p2 w.length) :
    (o.put p2 w).At src p2 (out ++ w) R := by
  obtain ⟨g, hg⟩ := h.written
  have htake : o.a.take o.p = out := by rw [hg, h.pos, List.take_left]
  refine ⟨⟨o.a.drop (o.p + w.length), by rw [Out.put, htake]⟩, ?_, Nat.le_max_right _ _, ?_, ?_, ?_⟩
  · simp only [Out.put, h.pos, List.length_append]
  · have hinside := h.inside
    have hpos := h.pos
    simp only [Out.put, htake, List.length_append, List.length_drop]
    omega
  · rw [← h.right]
    cases src with
    | some s => rfl
    | none =>
      have hle := hroom rfl
      simp only [Out.right, Option.getD_none, Out.put, htake]
      have hlen : (out ++ w).length = o.p + w.length := by rw [List.length_append, h.pos]
      rw [List.drop_append, List.drop_eq_nil_of_le (by omega), List.nil_append, List.drop_drop, hlen]
      congr 1
      omega
  · rw [h.put_size hroom, h.size]

/-- The output is set back to where it was. -/
theorem Out.At.back (h : o'.At src p2 (out ++ w) R) {q : ℕ} (hq : q = out.length) :
    Out.At { o' with p := q } src p2 out R := by
  obtain ⟨g, hg⟩ := h.written
  have hpos := h.pos
  have htop := h.top
  rw [List.length_append] at hpos
  exact ⟨⟨w ++ g, by rw [hg, List.append_assoc]⟩, hq, by change q ≤ o'.top; omega, h.inside, h.right,
    h.size⟩

/-- Some bytes are read. -/
theorem Out.At.read (h : o.At src p2 out (r ++ R)) : o.At src (p2 + r.length) out R := by
  refine ⟨h.written, h.pos, h.top, h.inside, ?_, ?_⟩
  · have hright := h.right
    rw [Out.right] at hright ⊢
    rw [← List.drop_drop, hright, List.drop_left]
  · rw [← h.size, List.length_append, Nat.add_assoc]

theorem Out.Room.mono {k k' : ℕ} (h : o.Room src p2 k) (hk : k' ≤ k) : o.Room src p2 k' := by
  intro hsrc
  have := h hsrc
  omega

theorem Out.Step.refl (h : o.At src p2 out R) (hroom : o.Room src p2 0) :
    o.Step o src p2 out R fun _ => True :=
  ⟨h, hroom, fun _ => rfl, rfl, fun N => by simp⟩

theorem Out.put_late (hroom : o.p + w.length ≤ p2) : (o.put p2 w).late = o.late := by
  have h : ¬p2 < o.p + w.length := by omega
  rw [Out.put, decide_eq_false h, Bool.or_false]

theorem Out.put_top (N : ℕ) : (o.put p2 w).top ≤ N ↔ o.top ≤ N ∧ o.p + w.length ≤ N := by
  rw [Out.put]
  exact Nat.max_le

variable {n prev : ℕ} {l1 l2 t1 t2 : List ℕ}

/-- The positions of the right-hand list that are `n` after one of the left-hand list. -/
def hits (n : ℕ) (l1 l2 : List ℕ) : List ℕ := l2.filter fun q => ∃ x ∈ l1, x + n = q

theorem mem_hits {q : ℕ} : q ∈ hits n l1 l2 ↔ q ∈ l2 ∧ ∃ x ∈ l1, x + n = q := by
  simp [hits]

theorem phraseNext_nil {t : List ℕ} (ht : Ends t) (a : ℕ) (i : ℤ) :
    phraseNext (posBytes a [] ++ t) i = some none := by
  obtain ⟨b, s, rfl, hb⟩ := ht
  have : b = 0 ∨ b = 1 := by omega
  rcases this with rfl | rfl <;> rfl

theorem phraseNext_cons {a c : ℕ} (hac : a ≤ c) (hc : c < 2 ^ 31) (t : List ℕ) :
    phraseNext (posBytes a (c :: r) ++ t) a = some (some (posBytes c r ++ t, (c : ℤ))) := by
  obtain ⟨b, s, hb, hhead⟩ := putVarint_head (v := c - a + 2) (by omega)
  have hcont : b &&& 0xFE ≠ 0 := by
    rcases hhead with ⟨rfl, hlt⟩ | ⟨h1, h2⟩
    · have := (low_bits (c - a + 2) hlt).2.2.2.2 (by omega)
      rwa [Nat.or_zero, Nat.and_comm] at this
    · have := (high_bits b h2 h1).2.2.1
      rwa [Nat.or_zero, Nat.and_comm] at this
  have hhead' : (posBytes a (c :: r) ++ t).head? = some b := by
    rw [posBytes, hb]
    rfl
  have hval : i64 ((a : ℤ) + ((c - a + 2 : ℕ) : ℤ) - 2) = c := by
    rw [i64_of_fits (by omega) (by omega)]
    omega
  rw [phraseNext, hhead']
  simp only [Option.bind_eq_bind, Option.bind_some, hcont, if_false]
  rw [getDelta_pos (by omega) (by omega) hc hac, Option.bind_some, hval]
  rfl

/-- Numbers read one after the other leave room for their sum. -/
theorem length_put_step {a b c : ℕ} (hab : a ≤ b) (hbc : b ≤ c) (hc : c < 2 ^ 31) :
    (sqlite3Fts3PutVarint (c - a + 2)).length ≤
      (sqlite3Fts3PutVarint (b - a + 2)).length + (sqlite3Fts3PutVarint (c - b + 2)).length := by
  have h1 := length_putVarint_mono (v := c - a + 2) (w := b - a + 2 + (c - b + 2)) (by omega) (by omega)
  have h2 := length_putVarint_add (v := b - a + 2) (w := c - b + 2) (by omega)
  omega

theorem hits_cons_right {b : ℕ} (l1 l2 : List ℕ) : hits n l1 (b :: l2) =
    (if ∃ x ∈ l1, x + n = b then [b] else []) ++ hits n l1 l2 := by
  rw [hits, hits, List.filter_cons]
  by_cases h : ∃ x ∈ l1, x + n = b
  · rw [if_pos (decide_eq_true h), if_pos h]
    rfl
  · rw [if_neg (by simpa using h), if_neg h]
    rfl

/-- A position of the left-hand list that comes too early for what is left of the right-hand one. -/
theorem hits_cons_left {a : ℕ} (h : ∀ q ∈ l2, a + n < q) : hits n (a :: l1) l2 = hits n l1 l2 := by
  refine List.filter_congr fun q hq => ?_
  have hne : a + n ≠ q := (h q hq).ne
  simp [hne]

theorem hits_nil : hits n [] l2 = [] := by simp [hits]

/-- The bytes that the positions take are written as a whole: below `N`, if there are any. -/
def FitPos (k prev : ℕ) (l : List ℕ) (N : ℕ) : Prop := l ≠ [] → k + (posBytes prev l).length ≤ N

theorem Out.Step.of_put (h : o.At src p2 out R) (hroom : o.Room src p2 w.length) :
    o.Step (o.put p2 w) src p2 (out ++ w) R fun N => o.p + w.length ≤ N :=
  ⟨h.put hroom, hroom, fun hsrc => Out.put_late (hroom hsrc), h.put_size hroom, fun N => Out.put_top N⟩

theorem Out.Step.trans {o1 o2 : Out} {p2' : ℕ} {out1 out2 R1 R2 : List ℕ} {fit1 fit2 : ℕ → Prop}
    (h1 : o.Step o1 src p2 out1 R1 fit1) (h2 : o1.Step o2 src p2' out2 R2 fit2) :
    o.Step o2 src p2' out2 R2 fun N => fit1 N ∧ fit2 N :=
  ⟨h2.state, h2.room, fun hsrc => (h2.late hsrc).trans (h1.late hsrc), h2.size.trans h1.size, fun N => by
    rw [h2.top, h1.top, and_assoc]⟩

theorem Out.Step.congr {fit fit' : ℕ → Prop} (h : o.Step o' src p2 out R fit)
    (hfit : ∀ N, fit N ↔ fit' N) : o.Step o' src p2 out R fit' :=
  ⟨h.state, h.room, h.late, h.size, fun N => by rw [h.top, hfit]⟩

theorem fitPos_cons {b : ℕ} {l : List ℕ} {k N : ℕ} :
    (k + (sqlite3Fts3PutVarint (b - prev + 2)).length ≤ N ∧
      FitPos (k + (sqlite3Fts3PutVarint (b - prev + 2)).length) b l N) ↔ FitPos k prev (b :: l) N := by
  rw [FitPos, FitPos, posBytes, List.length_append]
  cases l with
  | nil => simp [posBytes]
  | cons c l =>
    simp only [ne_eq, reduceCtorEq, not_false_eq_true, forall_const]
    omega

/-- The rest of a round, when it is the turn of the right-hand list. -/
def readRight (src : Option (List ℕ)) (n : ℤ) (m : ℕ) (o : Out) (p1 : List ℕ) (p2 : ℕ)
    (iPos1 iPos2 iPrev : ℤ) (saved : Bool) : Option (Out × List ℕ × ℕ × Bool) :=
  (phraseNext (o.right src p2) iPos2).bind fun x => x.elim (some (o, p1, p2, saved)) fun y =>
    phraseLoop src n false true m o p1 (p2 + ((o.right src p2).length - y.1.length)) iPos1 y.2 iPrev saved

/-- A round, with the positions and the distance as natural numbers. -/
theorem phraseLoop_succ {m a b : ℕ} (hprev : prev ≤ b) (hb : b < 2 ^ 31) (p1 : List ℕ) (saved : Bool) :
    phraseLoop src n false true (m + 1) o p1 p2 a b prev saved =
      if b = a + n then
        readRight src n m (o.put p2 (sqlite3Fts3PutVarint (b - prev + 2))) p1 p2 a b b true
      else if b < a + n then readRight src n m o p1 p2 a b prev saved
      else (phraseNext p1 a).bind fun x => x.elim (some (o, p1, p2, saved)) fun y =>
        phraseLoop src n false true m o y.1 p2 y.2 b prev saved := by
  have hhit : ((b : ℤ) = (a : ℤ) + (n : ℤ) ∨
      (true = false ∧ (b : ℤ) > a ∧ (b : ℤ) ≤ (a : ℤ) + (n : ℤ))) ↔ b = a + n := by
    simp only [Bool.true_eq_false, false_and, or_false]
    omega
  have hadv : ((True ∧ (b : ℤ) ≤ (a : ℤ) + (n : ℤ)) ∨ (b : ℤ) ≤ a) ↔ b ≤ a + n := by
    simp only [true_and]
    omega
  have hput : fts3PutDeltaVarint prev ((b : ℤ) + 2) = sqlite3Fts3PutVarint (b - prev + 2) :=
    (putDelta_pos hprev hb rfl).1
  rw [phraseLoop]
  simp only [hhit, Bool.false_eq_true, if_false, hput, Option.bind_eq_bind]
  rcases Nat.lt_trichotomy b (a + n) with hlow | heq | hhigh
  · rw [if_pos (hadv.mpr hlow.le), if_neg hlow.ne, if_pos hlow, readRight]
    simp only [if_neg hlow.ne]
    refine congrArg (Option.bind _) (funext fun x => ?_)
    cases x <;> rfl
  · rw [if_pos (hadv.mpr heq.le), if_pos heq, readRight]
    simp only [if_pos heq]
    refine congrArg (Option.bind _) (funext fun x => ?_)
    cases x <;> rfl
  · rw [if_neg (hadv.not.mpr hhigh.not_ge), if_neg hhigh.ne', if_neg hhigh.not_gt]
    simp only [if_neg hhigh.ne']
    refine congrArg (Option.bind _) (funext fun x => ?_)
    cases x <;> rfl

theorem phraseLoop_hits (ht1 : Ends t1) (ht2 : Ends t2) {m a b : ℕ} {r1 r2 : List ℕ} (saved : Bool)
    (hat : o.At src p2 out (posBytes b r2 ++ t2)) (h1 : (a :: r1).Pairwise (· < ·))
    (h2 : (b :: r2).Pairwise (· < ·)) (hlt1 : ∀ x ∈ a :: r1, x < 2 ^ 31)
    (hlt2 : ∀ x ∈ b :: r2, x < 2 ^ 31) (hprev : prev ≤ b)
    (hroom : o.Room src p2 (sqlite3Fts3PutVarint (b - prev + 2)).length)
    (hm : r1.length + r2.length < m) :
    ∃ o' p1' p2' R', phraseLoop src n false true m o (posBytes a r1 ++ t1) p2 a b prev saved =
        some (o', p1', p2', saved || !(hits n (a :: r1) (b :: r2)).isEmpty) ∧
      Rest t1 p1' ∧ Rest t2 R' ∧
      o.Step o' src p2' (out ++ posBytes prev (hits n (a :: r1) (b :: r2))) R'
        (FitPos o.p prev (hits n (a :: r1) (b :: r2))) := by
  induction m generalizing o p2 out prev a b r1 r2 saved with
  | zero => omega
  | succ m ih =>
    have hb := hlt2 b List.mem_cons_self
    obtain ⟨hlt, h2'⟩ := List.pairwise_cons.mp h2
    have hlt2' : ∀ x ∈ r2, x < 2 ^ 31 := fun x hx => hlt2 x (List.mem_cons_of_mem b hx)
    have hlt1' : ∀ x ∈ r1, x < 2 ^ 31 := fun x hx => hlt1 x (List.mem_cons_of_mem a hx)
    have hrest1 : Rest t1 (posBytes a r1 ++ t1) := ⟨a, r1, rfl, hlt1'⟩
    have hstop : ∀ {o : Out} {p2 : ℕ} {out : List ℕ} {prev : ℕ}, o.At src p2 out (posBytes b r2 ++ t2) →
        o.Room src p2 0 → Rest t2 (posBytes b r2 ++ t2) ∧
          o.Step o src p2 (out ++ posBytes prev []) (posBytes b r2 ++ t2) (FitPos o.p prev []) := by
      intro o p2 out prev hat hroom
      rw [posBytes, List.append_nil]
      exact ⟨⟨b, r2, rfl, hlt2'⟩, (Out.Step.refl hat hroom).congr fun N => by simp [FitPos]⟩
    -- The rest of a round that reads the next position of the right-hand list.
    have hright : ∀ {o : Out} {out : List ℕ} {prev : ℕ} {saved : Bool},
        o.At src p2 out (posBytes b r2 ++ t2) → prev ≤ b → o.Room src p2 0 →
        (∀ c, b < c → c < 2 ^ 31 → o.Room src (p2 + (sqlite3Fts3PutVarint (c - b + 2)).length)
          (sqlite3Fts3PutVarint (c - prev + 2)).length) →
        ∃ o' p1' p2' R', readRight src n m o (posBytes a r1 ++ t1) p2 a b prev saved =
            some (o', p1', p2', saved || !(hits n (a :: r1) r2).isEmpty) ∧
          Rest t1 p1' ∧ Rest t2 R' ∧ o.Step o' src p2' (out ++ posBytes prev (hits n (a :: r1) r2)) R'
            (FitPos o.p prev (hits n (a :: r1) r2)) := by
      intro o out prev saved hat hprev hroom hnext
      rw [readRight, hat.right]
      cases r2 with
      | nil =>
        rw [phraseNext_nil ht2]
        obtain ⟨hrest2, hstep⟩ := hstop hat hroom
        exact ⟨o, _, p2, _, by simp [hits], hrest1, hrest2, hstep⟩
      | cons c r2 =>
        have hbc := hlt c List.mem_cons_self
        have hc := hlt2' c List.mem_cons_self
        rw [phraseNext_cons hbc.le hc]
        have hlen : (posBytes b (c :: r2) ++ t2).length - (posBytes c r2 ++ t2).length =
            (sqlite3Fts3PutVarint (c - b + 2)).length := by
          rw [posBytes, List.append_assoc, List.length_append]
          omega
        simp only [Option.bind_some, Option.elim_some, hlen]
        rw [posBytes, List.append_assoc] at hat
        exact ih _ hat.read h1 h2' hlt1 hlt2' (by omega) (hnext c hbc hc)
          (by simp only [List.length_cons] at hm; omega)
    rw [phraseLoop_succ hprev hb]
    rcases Nat.lt_trichotomy b (a + n) with hlow | heq | hhigh
    · -- The right-hand position comes too early.
      have hno : ¬∃ x ∈ a :: r1, x + n = b := by
        rintro ⟨x, hx, rfl⟩
        rcases List.mem_cons.mp hx with rfl | hx
        · omega
        · have := (List.pairwise_cons.mp h1).1 x hx
          omega
      rw [hits_cons_right, if_neg hno, List.nil_append, if_neg hlow.ne, if_pos hlow]
      refine hright hat hprev (hroom.mono (Nat.zero_le _)) fun c hbc hc hsrc => ?_
      have := hroom hsrc
      have := length_put_step hprev hbc.le hc
      omega
    · have hyes : ∃ x ∈ a :: r1, x + n = b := ⟨a, List.mem_cons_self, heq.symm⟩
      rw [hits_cons_right, if_pos hyes, List.singleton_append, if_pos heq]
      have hroom' : (o.put p2 (sqlite3Fts3PutVarint (b - prev + 2))).Room src p2 0 := hroom
      obtain ⟨o', p1', p2', R', hrun, hr1, hr2, hstep⟩ := @hright _ _ _ true (hat.put hroom) le_rfl
        hroom' fun c _ _ hsrc => by have := hroom' hsrc; omega
      refine ⟨o', p1', p2', R', by rw [hrun]; simp, hr1, hr2, ?_⟩
      rw [posBytes, ← List.append_assoc]
      exact ((Out.Step.of_put hat hroom).trans hstep).congr fun N => fitPos_cons
    · -- The left-hand position comes too early.
      have hall : ∀ q ∈ b :: r2, a + n < q := by
        intro q hq
        rcases List.mem_cons.mp hq with rfl | hq
        · exact hhigh
        · exact hhigh.trans (hlt q hq)
      rw [hits_cons_left hall, if_neg hhigh.ne', if_neg hhigh.not_gt]
      cases r1 with
      | nil =>
        rw [phraseNext_nil ht1, hits_nil]
        obtain ⟨hrest2, hstep⟩ := hstop hat (hroom.mono (Nat.zero_le _))
        exact ⟨o, _, p2, _, by simp, hrest1, hrest2, hstep⟩
      | cons c r1 =>
        have hac := (List.pairwise_cons.mp h1).1 c List.mem_cons_self
        have hc := hlt1' c List.mem_cons_self
        rw [phraseNext_cons hac.le hc]
        exact ih _ hat (List.pairwise_cons.mp h1).2 h2 hlt1' hlt2 hprev hroom
          (by simp only [List.length_cons] at hm; omega)

/-- What is written for a column of both lists. -/
def columnOut (c : ℕ) (m : List ℕ) : List ℕ := if m = [] then [] else columnBytes (c, m)

/-- The writes for a column stay below `N`. The header is written even when no position is. -/
def FitCol (k c : ℕ) (m : List ℕ) (N : ℕ) : Prop :=
  k + (headerBytes c).length ≤ N ∧ (m ≠ [] → k + (columnBytes (c, m)).length ≤ N)

theorem Out.Step.header {c : ℕ} (hc : c < 2 ^ 31) (h : o.At src p2 out R)
    (hroom : o.Room src p2 (headerBytes c).length) :
    o.Step (if (c : ℤ) ≠ 0 then (o.put p2 [POS_COLUMN]).put p2 (sqlite3Fts3PutVarint (u64 c)) else o)
      src p2 (out ++ headerBytes c) R fun N => o.p + (headerBytes c).length ≤ N := by
  rw [u64_cast c (by omega)]
  by_cases h0 : c = 0
  · subst h0
    have htop := h.top
    simp only [Nat.cast_zero, ne_eq, not_true_eq_false, if_false, headerBytes, if_true, List.append_nil,
      List.length_nil, Nat.add_zero] at hroom ⊢
    exact ⟨h, hroom, fun _ => rfl, rfl, fun N => by omega⟩
  · have hcast : (c : ℤ) ≠ 0 := by omega
    simp only [hcast, ne_eq, not_false_eq_true, if_true, headerBytes, h0, if_false,
      List.length_cons] at hroom ⊢
    have h1 := Out.Step.of_put (w := [POS_COLUMN]) h (hroom.mono (Nat.le_add_left 1 _))
    have h2 := Out.Step.of_put (w := sqlite3Fts3PutVarint c) h1.state fun hsrc => by
      have := hroom hsrc
      simp only [Out.put, List.length_singleton]
      omega
    rw [List.append_assoc, List.singleton_append] at h2
    refine (h1.trans h2).congr fun N => ?_
    simp only [Out.put, List.length_singleton]
    omega

theorem phraseColumn_hits (ht1 : Ends t1) (ht2 : Ends t2) {c : ℕ} {la lb : List ℕ} (hc : c < 2 ^ 31)
    (hat : o.At src p2 out (posBytes 0 lb ++ t2)) (h1 : la.Pairwise (· < ·)) (h2 : lb.Pairwise (· < ·))
    (hlt1 : ∀ x ∈ la, x < 2 ^ 31) (hlt2 : ∀ x ∈ lb, x < 2 ^ 31) (hne1 : la ≠ []) (hne2 : lb ≠ [])
    (hroom : o.Room src p2 (headerBytes c).length) :
    ∃ o' p2', phraseColumn src n false true o (posBytes 0 la ++ t1) p2 c = some (o', t1, p2') ∧
      o.Step o' src p2' (out ++ columnOut c (hits n la lb)) t2 (FitCol o.p c (hits n la lb)) := by
  obtain ⟨a, ra, rfl⟩ := List.exists_cons_of_ne_nil hne1
  obtain ⟨b, rb, rfl⟩ := List.exists_cons_of_ne_nil hne2
  have ha := hlt1 a List.mem_cons_self
  have hb := hlt2 b List.mem_cons_self
  have hhead := Out.Step.header hc hat hroom
  have hread : ∀ {x : ℕ} {l t : List ℕ}, x < 2 ^ 31 →
      fts3GetDeltaVarint (posBytes 0 (x :: l) ++ t) 0 = some (posBytes x l ++ t, (x : ℤ) + 2) := by
    intro x l t hx
    rw [getDelta_pos le_rfl (by decide) hx (Nat.zero_le x)]
    congr 2
    omega
  have hval : ∀ {x : ℕ}, x < 2 ^ 31 → i64 ((x : ℤ) + 2 - 2) = x := by
    intro x hx
    rw [i64_of_fits (by omega) (by omega)]
    omega
  rw [phraseColumn]
  generalize (if (c : ℤ) ≠ 0 then (o.put p2 [POS_COLUMN]).put p2 (sqlite3Fts3PutVarint (u64 c)) else o) = o1
    at hhead ⊢
  have hat1 := hhead.state
  have hlen : (posBytes 0 (b :: rb) ++ t2).length - (posBytes b rb ++ t2).length =
      (sqlite3Fts3PutVarint (b - 0 + 2)).length := by
    rw [posBytes, List.append_assoc, List.length_append]
    omega
  simp only [hread ha, hat1.right, hread hb, Option.bind_eq_bind, Option.bind_some, hval ha, hval hb, hlen]
  rw [posBytes, List.append_assoc] at hat1
  have hlen1 := length_le_posBytes a ra fun x hx => hlt1 x (List.mem_cons_of_mem a hx)
  have hlen2 := length_le_posBytes b rb fun x hx => hlt2 x (List.mem_cons_of_mem b hx)
  obtain ⟨o2, p1', p2', R', hrun, ⟨x1, l1, rfl, hl1⟩, ⟨x2, l2, rfl, hl2⟩, hstep⟩ :=
    phraseLoop_hits (n := n)
      (m := (posBytes a ra ++ t1).length + (posBytes b rb ++ t2).length + 1) ht1 ht2 false hat1.read h1 h2
      hlt1 hlt2 (Nat.zero_le b) (fun hsrc => by
        have := hroom hsrc
        have := hat1.pos
        have := hat.pos
        rw [List.length_append] at *
        omega) (by simp only [List.length_append]; omega)
  have hzero : ((0 : ℕ) : ℤ) = 0 := rfl
  rw [hzero] at hrun
  rw [hrun]
  simp only [Bool.false_or, Option.bind_some]
  have hsaved : o.Step (if (!(hits n (a :: ra) (b :: rb)).isEmpty) = true then o2 else { o2 with p := o.p })
      src p2' (out ++ columnOut c (hits n (a :: ra) (b :: rb))) (posBytes x2 l2 ++ t2)
      (FitCol o.p c (hits n (a :: ra) (b :: rb))) := by
    have hall := hhead.trans hstep
    have hp : o1.p = o.p + (headerBytes c).length := by
      rw [hat1.pos, hat.pos, List.length_append]
    by_cases hnil : hits n (a :: ra) (b :: rb) = []
    · rw [hnil] at hall ⊢
      rw [posBytes, List.append_nil] at hall
      rw [columnOut, if_pos rfl, List.append_nil]
      refine ⟨hall.state.back hat.pos, fun hsrc => ?_, hall.late, hall.size, fun N => ?_⟩
      · have := hall.room hsrc
        have := hall.state.pos
        have := hat.pos
        rw [List.length_append] at *
        change o.p ≤ p2'
        omega
      · refine (hall.top N).trans ?_
        simp [FitPos, FitCol]
    · have hsome : (!(hits n (a :: ra) (b :: rb)).isEmpty) = true := by simpa using hnil
      rw [if_pos hsome, columnOut, if_neg hnil, columnBytes, ← List.append_assoc]
      refine hall.congr fun N => ?_
      simp only [FitPos, FitCol, columnBytes, List.length_append, hp, Nat.add_assoc]
  generalize (if (!(hits n (a :: ra) (b :: rb)).isEmpty) = true then o2 else { o2 with p := o.p }) = o3
    at hsaved ⊢
  obtain ⟨e1, s1, rfl, he1⟩ := id ht1
  obtain ⟨e2, s2, rfl, he2⟩ := id ht2
  rw [columnlistCopy hl1 he1]
  simp only [Option.bind_some, hsaved.state.right, columnlistCopy hl2 he2]
  exact ⟨o3, _, rfl, hsaved.state.read, fun hsrc => (hsaved.room hsrc).trans (Nat.le_add_right _ _),
    hsaved.late, hsaved.size, hsaved.top⟩

end Sqlite.Doclist

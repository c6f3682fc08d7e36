import Mathlib.Logic.Function.Basic
import Sqlite.BtreeCursor.Run
import Sqlite.BtreeCursor.Sound

/-! What every call keeps of a cursor, wherever the call before has left it. -/
namespace Sqlite.BtreeCursor

open CursorState

section

/-! What may be done with a cursor, its own writes included. -/

variable {K : Type}

def SQLITE_ERROR : ℤ := 1

def insertCell (p : MemPage K) (i : ℕ) (cell : Cell K) : MemPage K :=
  { p with cells := p.cells.insertIdx i cell }

def dropCell (p : MemPage K) (i : ℕ) : MemPage K := { p with cells := p.cells.eraseIdx i }

def BtShared.put (t : BtShared K) (pgno : ℕ) (p : MemPage K) : BtShared K :=
  ⟨Function.update t.page pgno (some p)⟩

/-- The new cell instead of the one at the cursor, or beside it: `loc` says on which side of the key
the cursor is. -/
def placeCell (p : MemPage K) (c : BtCursor K) (key : K) (loc : ℤ) :
    Except Failure (MemPage K × BtCursor K) :=
  if loc = 0 then do
    let oldCell ← findCell p c.idx
    return (insertCell (dropCell p c.idx) c.idx ⟨if p.leaf then 0 else oldCell.leftChild, key⟩, c)
  else if p.leaf = false then throw .undefined
  else
    let c := if loc < 0 ∧ p.nCell > 0 then c.setIdx (c.idx + 1) else c
    return (insertCell p c.idx ⟨0, key⟩, c)

section
variable [LinearOrder K]

def btreeMoveto (t : BtShared K) (c : BtCursor K) (key : K) (bias : Bool) :
    Except Failure (ℤ × BtCursor K) :=
  sqlite3BtreeMovetoUnpacked t c (if c.intKey then .rowid key else .record (keyCompare key)) bias

/-- The place of the key, and `loc`. -/
def seekPlace (t : BtShared K) (c : BtCursor K) (key : K) (appendBias : Bool) (seekResult : ℤ) :
    Except Failure (ℤ × BtCursor K) :=
  if seekResult = 0 then btreeMoveto t c key appendBias else return (seekResult, c)

/-- When the cell does not fit in its page, `balanced` holds the tree and the stack that `balance`
leaves. -/
def sqlite3BtreeInsert (t : BtShared K) (c : BtCursor K) (key : K) (appendBias : Bool)
    (seekResult : ℤ) (balanced : Option (BtShared K × List (ℕ × ℕ))) :
    Except Failure (BtShared K × BtCursor K) :=
  if c.eState = CURSOR_FAULT then throw (.code c.skipNext)
  else do
    let (loc, c) ← seekPlace t c key appendBias seekResult
    if c.eState = CURSOR_VALID ∨ (c.eState = CURSOR_INVALID ∧ loc ≠ 0) then
      match c.stack with
      | [] => throw .undefined
      | (pgno, _) :: _ => do
        let pPage ← getAndInitPage t pgno
        let (pPage, c) ← placeCell pPage c key loc
        match balanced with
        | none => return (t.put pgno pPage, c.forget)
        | some (t', stack) => return (t', { c.forget with eState := CURSOR_INVALID, stack := stack })
    else throw .undefined

/-- `t'` is the tree without the entry. -/
def sqlite3BtreeDelete (t : BtShared K) (c : BtCursor K) (t' : BtShared K) :
    Except Failure (BtCursor K) := do
  let pPage ← c.page t
  if c.idx ≥ pPage.nCell ∨ c.eState ≠ CURSOR_VALID then throw (.code SQLITE_ERROR)
  else if pPage.leaf then moveToRoot t' c
  else do
    let (_, c) ← sqlite3BtreePrevious t 2 c
    moveToRoot t' c

/-- A cursor and its tree, of height `depth`. `sought` is the result of a search, while nothing has
moved the cursor since. -/
structure Editor (K : Type) where
  t : BtShared K
  depth : ℕ
  cur : BtCursor K
  sought : Option ℤ

inductive Edit (K : Type)
  | call (call : Call K)
  | clear
  /-- `balanced` also holds the height of the tree. -/
  | insert (key : K) (appendBias : Bool) (seekResult : ℤ)
      (balanced : Option (BtShared K × ℕ × List (ℕ × ℕ)))
  | delete (t' : BtShared K) (depth' : ℕ)

def soughtAfter (sought res : Option ℤ) : Call K → Option ℤ
  | .moveto _ _ => res
  | .hasMoved | .data | .keySize => sought
  | _ => none

def edit (s : Editor K) : Edit K → Except Failure (Editor K)
  | .call call => do
    let (res, s') ← step ⟨s.t, s.depth, s.cur, none⟩ call
    return ⟨s'.t, s'.depth, s'.cur, soughtAfter s.sought res call⟩
  | .clear => return { s with cur := sqlite3BtreeClearCursor s.cur, sought := none }
  | .insert key appendBias seekResult balanced => do
    let (t, c) ← sqlite3BtreeInsert s.t s.cur key appendBias seekResult
      (balanced.map fun b => (b.1, b.2.2))
    return ⟨t, (balanced.map fun b => b.2.1).getD s.depth, c, none⟩
  | .delete t' depth' => do
    let c ← sqlite3BtreeDelete s.t s.cur t'
    return ⟨t', depth', c, none⟩

/-- A deletion may leave a cursor at an interior cell of a table. -/
def OnEntry (t : BtShared K) (c : BtCursor K) : Prop :=
  c.eState = CURSOR_VALID → ∀ pgno i parents, c.stack = (pgno, i) :: parents →
    (pageAt t pgno).intKey = true → (pageAt t pgno).leaf = true

/-- What the callers see to: they read and delete entries only, and hand the result of a search on
to the insertion that follows it. -/
def Legal (root : ℕ) (intKey : Bool) (s : Editor K) : Edit K → Prop
  | .call call => Allowed root intKey call ∧ (call = .data ∨ call = .keySize → OnEntry s.t s.cur)
  | .clear => True
  | .insert _ _ seekResult _ => seekResult ≠ 0 → s.sought = some seekResult
  | .delete _ _ => OnEntry s.t s.cur

/-- The states that a cursor gets to while its tree is well-formed. -/
inductive History (root : ℕ) (intKey : Bool) (s₀ : Editor K) : Editor K → Prop
  | start : History root intKey s₀ s₀
  | step {s s' : Editor K} {e : Edit K} : History root intKey s₀ s → Legal root intKey s e →
      edit s e = pure s' → WellFormed s'.t root intKey s'.depth → History root intKey s₀ s'

end

end

variable {K : Type} [LinearOrder K] {t : BtShared K} {root depth h n : ℕ} {intKey : Bool}
  {c c' : BtCursor K} {pre post : List K} {x : K}

/-- A cursor at an interior cell of a table, of which it remembers nothing. -/
structure Parked (t : BtShared K) (root depth : ℕ) (c : BtCursor K) : Prop where
  parsed : c.parsed = false
  validNKey : c.validNKey = false
  atLast : c.atLast = false
  place : ∃ h pgno i parents pre post, Above t root depth (h + 1) pgno parents pre post ∧
    i < (pageAt t pgno).nCell ∧ (pageAt t pgno).intKey = true ∧ c.stack = (pgno, i) :: parents

def Sits (t : BtShared K) (root depth : ℕ) (c : BtCursor K) : Prop :=
  (∃ pre x post, Placed t root depth c pre x post) ∨ Parked t root depth c

structure Sane (root : ℕ) (intKey : Bool) (t : BtShared K) (depth : ℕ) (c : BtCursor K) : Prop where
  tree : WellFormed t root intKey depth
  pgnoRoot : c.pgnoRoot = root
  kind : c.intKey = intKey
  stack : root = 0 → c.stack = []
  valid : c.eState = CURSOR_VALID → Sits t root depth c
  saved : c.eState = CURSOR_REQUIRESEEK → ∃ k, c.savedKey = some k

/-- A cursor that is at an entry, or past all of them. -/
def Settled (root : ℕ) (t : BtShared K) (depth : ℕ) (c : BtCursor K) : Prop :=
  (c.eState = CURSOR_INVALID ∧ (root = 0 → c.stack = [])) ∨
    (c.eState = CURSOR_VALID ∧ ∃ pre x post, Placed t root depth c pre x post)

theorem Placed.root_ne_zero (hw : WellFormed t root intKey depth)
    (hp : Placed t root depth c pre x post) : root ≠ 0 := hp.1.root_ne_zero hw

theorem Parked.root_ne_zero (hw : WellFormed t root intKey depth) (hp : Parked t root depth c) :
    root ≠ 0 := by
  obtain ⟨h, pgno, i, parents, pre, post, ha, -⟩ := hp.place
  exact (ha.facts hw).1

theorem Sits.root_ne_zero (hw : WellFormed t root intKey depth) (hs : Sits t root depth c) :
    root ≠ 0 := by
  rcases hs with ⟨pre, x, post, hp⟩ | hp
  · exact hp.root_ne_zero hw
  · exact hp.root_ne_zero hw

omit [LinearOrder K] in
/-- A parked cursor gives no result without a search. -/
theorem Sits.placed (hs : Sits t root depth c) (hflag : c.validNKey = true ∨ c.atLast = true) :
    ∃ pre x post, Placed t root depth c pre x post := by
  rcases hs with hp | hp
  · exact hp
  · simp [hp.validNKey, hp.atLast] at hflag

theorem Sane.sits (hs : Sane root intKey t depth c) (hroot : c'.pgnoRoot = c.pgnoRoot)
    (hkind : c'.intKey = c.intKey) (hv : c'.eState = CURSOR_VALID) (hsits : Sits t root depth c') :
    Sane root intKey t depth c' :=
  ⟨hs.tree, hroot.trans hs.pgnoRoot, hkind.trans hs.kind,
    fun h0 => absurd h0 (hsits.root_ne_zero hs.tree), fun _ => hsits, fun h => by simp [hv] at h⟩

theorem Sane.invalid (hs : Sane root intKey t depth c) (hroot : c'.pgnoRoot = c.pgnoRoot)
    (hkind : c'.intKey = c.intKey) (hv : c'.eState = CURSOR_INVALID)
    (hstack : root = 0 → c'.stack = []) : Sane root intKey t depth c' :=
  ⟨hs.tree, hroot.trans hs.pgnoRoot, hkind.trans hs.kind, hstack, fun h => by simp [hv] at h,
    fun h => by simp [hv] at h⟩

theorem Sane.settled (hs : Sane root intKey t depth c) (hroot : c'.pgnoRoot = c.pgnoRoot)
    (hkind : c'.intKey = c.intKey) (hset : Settled root t depth c') :
    Sane root intKey t depth c' := by
  rcases hset with ⟨hv, hstack⟩ | ⟨hv, hp⟩
  · exact hs.invalid hroot hkind hv hstack
  · exact hs.sits hroot hkind hv (.inl hp)

/-- What a search comes to in a sane state. -/
theorem Sane.moveto (hs : Sane root intKey t depth c) (hf : c.eState ≠ CURSOR_FAULT)
    (key : SearchKey K) (bias : Bool) :
    ∃ res c', sqlite3BtreeMovetoUnpacked t c key bias = pure (res, c') ∧ Kept c c' ∧
      ((allEntries t root depth = [] ∧ res = -1 ∧ c'.eState = CURSOR_INVALID ∧
          (root = 0 → c'.stack = [])) ∨
        (c'.eState = CURSOR_VALID ∧ ∃ pre x post, Placed t root depth c' pre x post ∧
          res = key.compare x ∧ (0 < res → c'.atLast = false) ∧
          ∀ g, Compares t root depth key.compare g → Follows g → (intKey = true → Sharp g) →
            (0 < g x → ∀ y ∈ pre, g y < 0) ∧ (g x < 0 → ∀ y ∈ post, 0 < g y))) :=
  moveto_eq hs.tree hs.pgnoRoot hs.kind hs.stack hf (fun hv hflag => (hs.valid hv).placed hflag)
    key bias

omit [LinearOrder K] in
/-- Only what is remembered of the cell and the place count. -/
theorem Sits.congr (hs : Sits t root depth c) (hstack : c'.stack = c.stack)
    (hparsed : c'.parsed = c.parsed) (hvalid : c'.validNKey = c.validNKey) (hkey : c'.nKey = c.nKey)
    (hlast : c'.atLast = true → c.atLast = true) : Sits t root depth c' := by
  rcases hs with ⟨pre, x, post, hat, hcell, hend⟩ | hp
  · refine .inl ⟨pre, x, post, hstack ▸ hat, ?_, fun h => hend (hlast h)⟩
    rw [hparsed, hvalid, hkey]
    exact hcell
  · refine .inr ⟨hparsed.trans hp.parsed, hvalid.trans hp.validNKey, ?_, ?_⟩
    · rw [← Bool.not_eq_true]
      intro h
      simpa [hp.atLast] using hlast h
    · rw [hstack]
      exact hp.place

theorem Sane.restored (hs : Sane root intKey t depth c) (hf : c.eState ≠ CURSOR_FAULT) :
    ∃ c', restoreCursorPosition t c = pure c' ∧ Sane root intKey t depth c' ∧
      (c'.eState = CURSOR_VALID ∨ c'.eState = CURSOR_INVALID) ∧
      (c.eState = CURSOR_REQUIRESEEK → Settled root t depth c') ∧
      (c.eState ≠ CURSOR_REQUIRESEEK → c' = c) := by
  by_cases hseek : c.eState = CURSOR_REQUIRESEEK
  · obtain ⟨k, hsaved⟩ := hs.saved hseek
    let c₀ : BtCursor K := { c with eState := CURSOR_INVALID }
    have hs₀ : Sane root intKey t depth c₀ := hs.invalid rfl rfl rfl hs.stack
    obtain ⟨res, c₁, hmove, hkept, hcase⟩ := hs₀.moveto (by simp [c₀])
      (if c.intKey then .rowid k else .record (keyCompare k)) false
    let c' : BtCursor K := { c₁ with skipNext := res, savedKey := none }
    have hset : Settled root t depth c' := by
      rcases hcase with ⟨-, -, hv, hstack⟩ | ⟨hv, pre, x, post, hp, -⟩
      · exact .inl ⟨hv, hstack⟩
      · exact .inr ⟨hv, pre, x, post, hp⟩
    refine ⟨c', ?_, hs.settled hkept.pgnoRoot hkept.intKey hset, ?_, fun _ => hset,
      fun h => absurd hseek h⟩
    · rw [restoreCursorPosition, if_pos (.inl hseek), btreeRestoreCursorPosition, if_neg hf]
      simp only [c₀, hsaved] at hmove ⊢
      rw [hmove, pure_bind]
    · rcases hset with ⟨hv, -⟩ | ⟨hv, -⟩
      · exact .inr hv
      · exact .inl hv
  · refine ⟨c, by simp [restoreCursorPosition, hseek, hf], hs, ?_, fun h => absurd h hseek,
      fun _ => rfl⟩
    cases hv : c.eState <;> simp_all

theorem Sane.next_restored (hs : Sane root intKey t depth c)
    (hstate : c.eState = CURSOR_VALID ∨ c.eState = CURSOR_INVALID) :
    ∃ res c', sqlite3BtreeNext t 2 c = pure (res, c') ∧ Sane root intKey t depth c' := by
  have hstable := restoreCursorPosition_stable (t := t) hstate
  rcases hstate with hv | hv
  · have hsits := hs.valid hv
    have hne := hsits.root_ne_zero hs.tree
    by_cases hskip : c.skipNext > 0
    · refine ⟨0, { c with skipNext := 0 }, ?_,
        hs.sits rfl rfl hv (hsits.congr rfl rfl rfl rfl id)⟩
      rw [sqlite3BtreeNext, hstable, pure_bind, if_neg (by simp [hv]), if_pos hskip]
    · have hskip' : c.skipNext ≤ 0 := by omega
      rcases hsits with ⟨pre, x, post, hp⟩ | hp
      · rcases next_eq (n := 0) hs.tree hp.1 rfl hv hskip' with ⟨-, stack, hnext⟩ |
          ⟨y, rest, stack, rfl, hnext, hat⟩
        · exact ⟨_, _, hnext, hs.invalid rfl rfl rfl fun h0 => absurd h0 hne⟩
        · refine ⟨_, _, hnext, hs.sits rfl rfl hv (.inl ⟨_, y, rest, hat, ?_, fun hlast => ?_⟩)⟩
          · simp [BtCursor.forget]
          · simpa using hp.2.2 hlast
      · obtain ⟨h, pgno, i, parents, pre, post, ha, hi, -, hstack⟩ := hp.place
        obtain ⟨stack, y, rest, hnext, hat, -⟩ := next_interior (n := 1) hs.tree ha hi hstack hv hskip'
        refine ⟨_, _, hnext, hs.sits rfl rfl hv (.inl ⟨_, y, rest, hat, ?_, fun hlast => ?_⟩)⟩
        · simp [BtCursor.forget]
        · simp [BtCursor.forget, hp.atLast] at hlast
  · refine ⟨1, c, ?_, hs⟩
    rw [sqlite3BtreeNext, hstable, pure_bind, if_pos hv]

theorem Sane.previous_restored (hs : Sane root intKey t depth c)
    (hstate : c.eState = CURSOR_VALID ∨ c.eState = CURSOR_INVALID) :
    ∃ res c', sqlite3BtreePrevious t 2 c = pure (res, c') ∧ Sane root intKey t depth c' ∧
      c'.eState ≠ CURSOR_FAULT := by
  have hstable := restoreCursorPosition_stable (t := t) hstate
  rcases hstate with hv | hv
  · have hsits := hs.valid hv
    have hne := hsits.root_ne_zero hs.tree
    by_cases hskip : c.skipNext < 0
    · refine ⟨0, { c with atLast := false, skipNext := 0 }, ?_,
        hs.sits rfl rfl hv (hsits.congr rfl rfl rfl rfl (by simp)), by simp [hv]⟩
      rw [sqlite3BtreePrevious, hstable, pure_bind]
      simp [hv, hskip]
    · have hskip' : 0 ≤ c.skipNext := by omega
      rcases hsits with ⟨pre, x, post, hp⟩ | hp
      · rcases previous_eq (n := 0) hs.tree hp.1 rfl hv hskip' with ⟨-, stack, hprev⟩ |
          ⟨y, rest, stack, -, hprev, hat⟩
        · exact ⟨_, _, hprev, hs.invalid rfl rfl rfl fun h0 => absurd h0 hne, by simp⟩
        · refine ⟨_, _, hprev, hs.sits rfl rfl hv (.inl ⟨rest, y, _, hat, ?_, ?_⟩), ?_⟩
          · simp [BtCursor.forget]
          · simp
          · simp [BtCursor.forget, hv]
      · obtain ⟨h, pgno, i, parents, pre, post, ha, hi, -, hstack⟩ := hp.place
        obtain ⟨stack, y, rest, hprev, hat, -⟩ :=
          previous_interior (n := 1) hs.tree ha hi hstack hv hskip'
        refine ⟨_, _, hprev, hs.sits rfl rfl hv (.inl ⟨rest, y, _, hat, ?_, ?_⟩), ?_⟩
        · simp [BtCursor.forget]
        · simp
        · simp [BtCursor.forget, hv]
  · refine ⟨1, { c with atLast := false }, ?_, hs.invalid rfl rfl hv hs.stack, by simp [hv]⟩
    rw [sqlite3BtreePrevious, hstable, pure_bind]
    simp [hv]

theorem Sits.on_entry (hw : WellFormed t root intKey depth) (hs : Sits t root depth c)
    (hv : c.eState = CURSOR_VALID) (hon : OnEntry t c) :
    ∃ pre x post, Placed t root depth c pre x post := by
  rcases hs with hp | hp
  · exact hp
  · obtain ⟨h, pgno, i, parents, pre, post, ha, -, hkind, hstack⟩ := hp.place
    obtain ⟨-, htree, -, -⟩ := ha.facts hw
    have hleaf : (pageAt t pgno).leaf = false := by simpa using htree.page.2.2.1
    simp [hon hv pgno i parents hstack hkind] at hleaf

theorem Placed.leaf_of_table (hw : WellFormed t root intKey depth)
    (hp : Placed t root depth c pre x post) {pgno i : ℕ} {parents : List (ℕ × ℕ)}
    (hstack : c.stack = (pgno, i) :: parents) (hkind : (pageAt t pgno).intKey = true) :
    (pageAt t pgno).leaf = true := by
  have hat := hp.1
  rw [hstack] at hat
  cases hat with
  | leaf hup hkeys =>
    obtain ⟨-, htree, -, -⟩ := hup.facts hw
    simpa using htree.page.2.2.1
  | interior hup hidx hx => simp [hkind] at hidx

/-- Reading the cell of an entry leaves the cursor at it. -/
theorem Placed.read (hw : WellFormed t root intKey depth) (hp : Placed t root depth c pre x post) :
    ∃ c', getCellInfo t c = pure c' ∧ Kept c c' ∧ c'.eState = c.eState ∧ c'.atLast = c.atLast ∧
      Placed t root depth c' pre x post := by
  obtain ⟨parsed, validNKey, hget⟩ := getCellInfo_eq hw hp
  exact ⟨_, hget, ⟨rfl, rfl, rfl⟩, rfl, rfl, hp.1, fun _ => rfl, hp.2.2⟩

/-- Any cell has a key to save. -/
theorem Sits.key (hw : WellFormed t root intKey depth) (hs : Sits t root depth c) :
    ∃ c' k, getCellInfo t c = pure c' ∧ Kept c c' ∧ c'.nKey = some k := by
  rcases hs with ⟨pre, x, post, hp⟩ | hp
  · obtain ⟨parsed, validNKey, hget⟩ := getCellInfo_eq hw hp
    exact ⟨_, x, hget, ⟨rfl, rfl, rfl⟩, rfl⟩
  · obtain ⟨h, pgno, i, parents, pre, post, ha, hi, -, hstack⟩ := hp.place
    obtain ⟨cell, hcell, -, -⟩ := findCell_eq hi
    have hidx : c.idx = i := by simp [BtCursor.idx, hstack]
    refine ⟨{ c with parsed := true, validNKey := true, nKey := some cell.key }, cell.key, ?_,
      ⟨rfl, rfl, rfl⟩, rfl⟩
    rw [BtreeCursor.getCellInfo, if_neg (by simp [hp.parsed]), ha.page hw hstack, pure_bind, hidx,
      hcell, pure_bind]

/-- Before another cursor writes, this one is told to seek again. -/
theorem Sane.write (hs : Sane root intKey t depth c) {t' : BtShared K} {depth' : ℕ}
    (hw : WellFormed t' root intKey depth') :
    ∃ c', saveAllCursors t c = pure c' ∧ Sane root intKey t' depth' c' := by
  by_cases hv : c.eState = CURSOR_VALID
  · obtain ⟨c₁, k, hget, hkept, hkey⟩ := (hs.valid hv).key hs.tree
    let c' : BtCursor K := { c₁ with savedKey := c₁.nKey, stack := [], eState := CURSOR_REQUIRESEEK }
    refine ⟨c', ?_, hw, hkept.pgnoRoot.trans hs.pgnoRoot, hkept.intKey.trans hs.kind, fun _ => rfl,
      by simp [c'], fun _ => ⟨k, hkey⟩⟩
    rw [saveAllCursors, if_pos hv]
    simp only [saveCursorPosition, sqlite3BtreeKeySize, hv]
    rw [hget, pure_bind]
  · exact ⟨c, by rw [saveAllCursors, if_neg hv], hw, hs.pgnoRoot, hs.kind, hs.stack,
      fun h => absurd h hv, hs.saved⟩

/-- What holds of a cursor in every state of a history. -/
structure Upheld (root : ℕ) (intKey : Bool) (s : Editor K) : Prop where
  sane : Sane root intKey s.t s.depth s.cur
  sought : ∀ r, s.sought = some r →
    Settled root s.t s.depth s.cur ∧ (0 < r → s.cur.atLast = false)

variable {s : Editor K} {s' : Client K} {res : Option ℤ}

theorem Upheld.moved (hs : Sane root intKey t depth c) : Upheld root intKey ⟨t, depth, c, none⟩ :=
  ⟨hs, fun r h => by simp at h⟩

/-- The result of a search is not kept once the cursor has to seek again. -/
theorem Upheld.restored (hu : Upheld root intKey s) (hf : s.cur.eState ≠ CURSOR_FAULT) :
    ∃ c', restoreCursorPosition s.t s.cur = pure c' ∧
      Upheld root intKey ⟨s.t, s.depth, c', s.sought⟩ ∧
      (c'.eState = CURSOR_VALID ∨ c'.eState = CURSOR_INVALID) ∧
      (OnEntry s.t s.cur → OnEntry s.t c') := by
  obtain ⟨c', hrestore, hs, hstate, hset, hsame⟩ := hu.sane.restored hf
  by_cases hseek : s.cur.eState = CURSOR_REQUIRESEEK
  · refine ⟨c', hrestore, ⟨hs, fun r hr => ?_⟩, hstate, fun _ hv pgno i parents hstack hkind => ?_⟩
    · obtain ⟨⟨hv, -⟩ | ⟨hv, -⟩, -⟩ := hu.sought r hr <;> simp [hv] at hseek
    · rcases hset hseek with ⟨hv', -⟩ | ⟨-, pre, x, post, hp⟩
      · simp [hv'] at hv
      · exact hp.leaf_of_table hs.tree hstack hkind
  · obtain rfl := hsame hseek
    exact ⟨s.cur, hrestore, hu, hstate, id⟩

/-- Reading an entry does not move a cursor. -/
theorem Upheld.read (hu : Upheld root intKey s) (hv : s.cur.eState = CURSOR_VALID)
    (hon : OnEntry s.t s.cur) : ∃ c', getCellInfo s.t s.cur = pure c' ∧
      Upheld root intKey ⟨s.t, s.depth, c', s.sought⟩ := by
  have hs := hu.sane
  obtain ⟨pre, x, post, hp⟩ := (hs.valid hv).on_entry hs.tree hv hon
  obtain ⟨c', hget, hkept, hstate, hlast, hp'⟩ := hp.read hs.tree
  have hset : Settled root s.t s.depth c' := .inr ⟨hstate.trans hv, pre, x, post, hp'⟩
  exact ⟨c', hget, hs.settled hkept.pgnoRoot hkept.intKey hset,
    fun r hr => ⟨hset, fun h => hlast.trans ((hu.sought r hr).2 h)⟩⟩

theorem Upheld.call (hu : Upheld root intKey s) (call : Call K) (hallowed : Allowed root intKey call)
    (hread : call = .data ∨ call = .keySize → OnEntry s.t s.cur)
    (hstep : BtreeCursor.step ⟨s.t, s.depth, s.cur, none⟩ call = pure (res, s')) :
    Upheld root intKey ⟨s'.t, s'.depth, s'.cur, soughtAfter s.sought res call⟩ := by
  have hs := hu.sane
  cases call with
  | moveto key bias =>
    have hf : s.cur.eState ≠ CURSOR_FAULT := not_fault hstep (by simp) (by simp)
    obtain ⟨r, c', hmove, hkept, hcase⟩ := hs.moveto hf key bias
    rw [BtreeCursor.step, hmove, pure_bind] at hstep
    cases hstep
    rcases hcase with ⟨-, hr, hv, hstack⟩ | ⟨hv, pre, x, post, hp, -, hlast, -⟩
    · refine ⟨hs.settled hkept.pgnoRoot hkept.intKey (.inl ⟨hv, hstack⟩), fun r' hr' => ?_⟩
      obtain rfl : r = r' := Option.some.inj hr'
      exact ⟨.inl ⟨hv, hstack⟩, fun h => by omega⟩
    · have hset : Settled root s.t s.depth c' := .inr ⟨hv, pre, x, post, hp⟩
      refine ⟨hs.settled hkept.pgnoRoot hkept.intKey hset, fun r' hr' => ?_⟩
      obtain rfl : r = r' := Option.some.inj hr'
      exact ⟨hset, hlast⟩
  | first =>
    have hf : s.cur.eState ≠ CURSOR_FAULT := not_fault hstep (by simp) (by simp)
    obtain ⟨r, c', hmove, hkept, hcase⟩ := first_eq hs.tree hs.pgnoRoot hs.kind hs.stack hf
    rw [BtreeCursor.step, hmove, pure_bind] at hstep
    cases hstep
    refine .moved (hs.settled hkept.pgnoRoot hkept.intKey ?_)
    rcases hcase with ⟨-, -, hv, hstack⟩ | ⟨-, hv, x, post, hp⟩
    · exact .inl ⟨hv, hstack⟩
    · exact .inr ⟨hv, [], x, post, hp⟩
  | last =>
    have hf : s.cur.eState ≠ CURSOR_FAULT := not_fault hstep (by simp) (by simp)
    obtain ⟨r, c', hmove, hkept, hcase⟩ := last_eq hs.tree hs.pgnoRoot hs.kind hs.stack hf
      fun hv hflag => (hs.valid hv).placed hflag
    rw [BtreeCursor.step, hmove, pure_bind] at hstep
    cases hstep
    refine .moved (hs.settled hkept.pgnoRoot hkept.intKey ?_)
    rcases hcase with ⟨-, -, hv, hstack⟩ | ⟨-, hv, pre, x, hp⟩
    · exact .inl ⟨hv, hstack⟩
    · exact .inr ⟨hv, pre, x, [], hp⟩
  | next =>
    have hf : s.cur.eState ≠ CURSOR_FAULT := not_fault hstep (by simp) (by simp)
    obtain ⟨c₁, hrestore, hs₁, hstate, -⟩ := hs.restored hf
    obtain ⟨r, c', hnext, hs'⟩ := hs₁.next_restored hstate
    have hsame : sqlite3BtreeNext s.t 2 s.cur = sqlite3BtreeNext s.t 2 c₁ := by
      rw [sqlite3BtreeNext, sqlite3BtreeNext, hrestore, restoreCursorPosition_stable hstate]
    rw [BtreeCursor.step, hsame, hnext, pure_bind] at hstep
    cases hstep
    exact .moved hs'
  | previous =>
    have hf : s.cur.eState ≠ CURSOR_FAULT := not_fault hstep (by simp) (by simp)
    obtain ⟨c₁, hrestore, hs₁, hstate, -⟩ := hs.restored hf
    obtain ⟨r, c', hprev, hs', -⟩ := hs₁.previous_restored hstate
    have hsame : sqlite3BtreePrevious s.t 2 s.cur = sqlite3BtreePrevious s.t 2 c₁ := by
      rw [sqlite3BtreePrevious, sqlite3BtreePrevious, hrestore, restoreCursorPosition_stable hstate]
    rw [BtreeCursor.step, hsame, hprev, pure_bind] at hstep
    cases hstep
    exact .moved hs'
  | hasMoved =>
    obtain ⟨c₁, hrestore, hu₁, -⟩ := hu.restored (not_fault hstep (by simp) (by simp))
    rw [BtreeCursor.step, sqlite3BtreeCursorHasMoved, hrestore, pure_bind, pure_bind] at hstep
    cases hstep
    exact hu₁
  | data =>
    obtain ⟨c₁, hrestore, hu₁, hstate, hon⟩ := hu.restored (not_fault hstep (by simp) (by simp))
    rw [BtreeCursor.step, sqlite3BtreeData, hrestore, pure_bind] at hstep
    rcases hstate with hv | hv
    · obtain ⟨c₂, hget, hu₂⟩ := hu₁.read hv (hon (hread (.inl rfl)))
      rw [if_pos hv, hget, pure_bind] at hstep
      cases hstep
      exact hu₂
    · rw [if_neg (by simp [hv])] at hstep
      cases hstep
  | keySize =>
    cases hv : s.cur.eState with
    | CURSOR_INVALID =>
      simp only [BtreeCursor.step, sqlite3BtreeKeySize, hv] at hstep
      cases hstep
      exact hu
    | CURSOR_VALID =>
      obtain ⟨c₂, hget, hu₂⟩ := hu.read hv (hread (.inr rfl))
      simp only [BtreeCursor.step, sqlite3BtreeKeySize, hv] at hstep
      rw [hget, pure_bind] at hstep
      cases hstep
      exact hu₂
    | CURSOR_REQUIRESEEK =>
      simp only [BtreeCursor.step, sqlite3BtreeKeySize, hv] at hstep
      cases hstep
    | CURSOR_FAULT =>
      simp only [BtreeCursor.step, sqlite3BtreeKeySize, hv] at hstep
      cases hstep
  | write t' depth' =>
    obtain ⟨c', hsave, hs'⟩ := hs.write hallowed
    rw [BtreeCursor.step, hsave, pure_bind] at hstep
    cases hstep
    exact .moved hs'
  | trip errCode =>
    cases hstep
    exact .moved ⟨hs.tree, hs.pgnoRoot, hs.kind, fun _ => rfl, by simp [sqlite3BtreeTripAllCursors],
      by simp [sqlite3BtreeTripAllCursors]⟩

end Sqlite.BtreeCursor

import Sqlite.BtreeCursor.Search

/-! Runs of a cursor, between which other cursors write to its tree. -/
namespace Sqlite.BtreeCursor

open CursorState

variable {K : Type} [LinearOrder K]

/-- The least of some keys after `k`. -/
def IsSucc (l : List K) (k : K) : Option K → Prop
  | none => ∀ y ∈ l, ¬ k < y
  | some x => x ∈ l ∧ k < x ∧ ∀ y ∈ l, k < y → x ≤ y

/-- The greatest of some keys before `k`. -/
def IsPred (l : List K) (k : K) : Option K → Prop
  | none => ∀ y ∈ l, ¬ y < k
  | some x => x ∈ l ∧ x < k ∧ ∀ y ∈ l, y < k → y ≤ x

/-- The entry that a cursor points at. -/
def entryOf (t : BtShared K) (c : BtCursor K) : Option K :=
  match c.stack with
  | (pgno, i) :: _ => if c.eState = CURSOR_VALID then (keysOf (pageAt t pgno))[i]? else none
  | [] => none

/-- A cursor and the tree, of height `depth`. `pos` is the entry at which the last call that moved
the cursor left it, which others may have deleted since. -/
structure Client (K : Type) where
  t : BtShared K
  depth : ℕ
  cur : BtCursor K
  pos : Option K

inductive Call (K : Type)
  | moveto (key : SearchKey K) (biasRight : Bool)
  | first
  | last
  | next
  | previous
  | hasMoved
  | data
  | keySize
  /-- Another cursor inserts or deletes, so that the tree is another one. -/
  | write (t' : BtShared K) (depth' : ℕ)
  | trip (errCode : ℤ)

def Client.moved (s : Client K) (c : BtCursor K) : Client K := ⟨s.t, s.depth, c, entryOf s.t c⟩

def Client.kept (s : Client K) (c : BtCursor K) : Client K := ⟨s.t, s.depth, c, s.pos⟩

/-- A call, with what it sets `*pRes` to. -/
def step (s : Client K) : Call K → Except Failure (Option ℤ × Client K)
  | .moveto key biasRight => do
    let (res, c) ← sqlite3BtreeMovetoUnpacked s.t s.cur key biasRight
    return (some res, s.moved c)
  | .first => do
    let (res, c) ← sqlite3BtreeFirst s.t s.cur
    return (some res, s.moved c)
  | .last => do
    let (res, c) ← sqlite3BtreeLast s.t s.cur
    return (res, s.moved c)
  | .next => do
    let (res, c) ← sqlite3BtreeNext s.t 2 s.cur
    return (some res, s.moved c)
  | .previous => do
    let (res, c) ← sqlite3BtreePrevious s.t 2 s.cur
    return (some res, s.moved c)
  | .hasMoved => do
    let (_, c) ← sqlite3BtreeCursorHasMoved s.t s.cur
    return (none, s.kept c)
  | .data => do
    let c ← sqlite3BtreeData s.t s.cur
    return (none, s.kept c)
  | .keySize => do
    let c ← sqlite3BtreeKeySize s.t s.cur
    return (none, s.kept c)
  | .write t' depth' => do
    let c ← saveAllCursors s.t s.cur
    return (none, ⟨t', depth', c, s.pos⟩)
  | .trip errCode => return (none, ⟨s.t, s.depth, sqlite3BtreeTripAllCursors s.cur errCode, none⟩)

/-- What the callers see to: keys are of the kind of the tree, and trees are well-formed. -/
def Allowed (root : ℕ) (intKey : Bool) : Call K → Prop
  | .moveto (.rowid _) _ => intKey = true
  | .moveto (.record _) _ => intKey = false
  | .write t' depth' => WellFormed t' root intKey depth'
  | .trip errCode => errCode ≠ 0
  | _ => True

/-- `skipNext` is 0 at each call that positions the cursor, and when another cursor writes. -/
def Meets (s : Client K) : Call K → Prop
  | .moveto _ _ | .first | .last | .write _ _ => s.cur.eState ≠ CURSOR_FAULT → s.cur.skipNext = 0
  | _ => True

def openCursor (t : BtShared K) (root : ℕ) (intKey : Bool) (depth : ℕ) : Client K :=
  ⟨t, depth, btreeCursor root intKey, none⟩

/-- The states that a cursor gets to by calls that meet the condition. -/
inductive Run (root : ℕ) (intKey : Bool) (s₀ : Client K) : Client K → Prop
  | start : Run root intKey s₀ s₀
  | step {s s' : Client K} {call : Call K} {res : Option ℤ} : Run root intKey s₀ s →
      Allowed root intKey call → Meets s call → step s call = pure (res, s') →
      Run root intKey s₀ s'

/-- Whether `skipNext` says how the entry of a cursor lies to the key it stands for. -/
def Stands (skipNext : ℤ) (pos : Option K) (pre : List K) (x : K) (post : List K) : Prop :=
  (skipNext = 0 ∧ pos = some x) ∨
  (0 < skipNext ∧ ∃ k, pos = some k ∧ k < x ∧ ∀ y ∈ pre, y < k) ∨
  (skipNext < 0 ∧ ∃ k, pos = some k ∧ x < k ∧ ∀ y ∈ post, k < y)

/-- A valid cursor at an entry, with what it remembers of it. -/
def Placed (t : BtShared K) (root depth : ℕ) (c : BtCursor K) (pre : List K) (x : K)
    (post : List K) : Prop :=
  At t root depth c.stack pre x post ∧
    (c.parsed = true ∨ c.validNKey = true → c.nKey = some x) ∧ (c.atLast = true → post = [])

structure Good (root : ℕ) (intKey : Bool) (s : Client K) : Prop where
  tree : WellFormed s.t root intKey s.depth
  pgnoRoot : s.cur.pgnoRoot = root
  kind : s.cur.intKey = intKey
  stack : root = 0 → s.cur.stack = []
  valid : s.cur.eState = CURSOR_VALID → ∃ pre x post,
    Placed s.t root s.depth s.cur pre x post ∧ Stands s.cur.skipNext s.pos pre x post
  saved : s.cur.eState = CURSOR_REQUIRESEEK →
    s.cur.stack = [] ∧ ∃ k, s.cur.savedKey = some k ∧ s.pos = some k
  invalid : s.cur.eState = CURSOR_INVALID →
    s.pos = none ∨ (s.cur.skipNext ≠ 0 ∧ allEntries s.t root s.depth = [])

variable {t : BtShared K} {root depth : ℕ} {intKey : Bool} {s s' : Client K} {c c' : BtCursor K}
  {pre post : List K} {x k : K}

theorem good_open (hw : WellFormed t root intKey depth) :
    Good root intKey (openCursor t root intKey depth) :=
  ⟨hw, rfl, rfl, fun _ => rfl, by simp [openCursor, btreeCursor], by simp [openCursor, btreeCursor],
    fun _ => .inl rfl⟩

omit [LinearOrder K] in
theorem At.entryOf {stack : List (ℕ × ℕ)} (hat : At t root depth stack pre x post)
    (hc : c.stack = stack) (hv : c.eState = CURSOR_VALID) : entryOf t c = some x := by
  cases hat with
  | leaf hup hkeys => simp [BtreeCursor.entryOf, hc, hv, hkeys]
  | interior hup hidx hx => simp [BtreeCursor.entryOf, hc, hv, hx]

omit [LinearOrder K] in
theorem entryOf_invalid (hv : c.eState = CURSOR_INVALID) : entryOf t c = none := by
  rw [entryOf]
  split <;> simp [hv]

/-- The fields that a call which only positions the cursor keeps. -/
structure Kept (c c' : BtCursor K) : Prop where
  pgnoRoot : c'.pgnoRoot = c.pgnoRoot
  intKey : c'.intKey = c.intKey
  skipNext : c'.skipNext = c.skipNext

/-- `moveToRoot` finds that there are no entries, or takes the cursor to a page that has all. -/
theorem moveToRoot_eq (hw : WellFormed t root intKey depth) (hroot : c.pgnoRoot = root)
    (hkind : c.intKey = intKey) (hstack : root = 0 → c.stack = [])
    (hf : c.eState ≠ CURSOR_FAULT) : ∃ c', moveToRoot t c = pure c' ∧ Kept c c' ∧
      ((allEntries t root depth = [] ∧ c'.eState = CURSOR_INVALID ∧ (root = 0 → c'.stack = [])) ∨
        ∃ h pgno parents, Above t root depth h pgno parents [] [] ∧ 0 < (pageAt t pgno).nCell ∧
          entries t h pgno = allEntries t root depth ∧ c'.stack = (pgno, 0) :: parents ∧
          c'.forget = c' ∧ c'.eState = CURSOR_VALID ∧ c'.atLast = false) := by
  rw [moveToRoot, if_neg hf]
  generalize hc₀ : (if c.eState = CURSOR_REQUIRESEEK then sqlite3BtreeClearCursor c else c) = c₀
  have hkept : Kept c c₀ ∧ c₀.stack = c.stack := by
    rw [← hc₀]
    split <;> exact ⟨⟨rfl, rfl, rfl⟩, rfl⟩
  obtain ⟨hkept, hstack₀⟩ := hkept
  obtain rfl : c₀.pgnoRoot = root := hkept.pgnoRoot.trans hroot
  obtain rfl : c₀.intKey = intKey := hkept.intKey.trans hkind
  by_cases hzero : c₀.pgnoRoot = 0
  · have hempty : c₀.stack = [] := hstack₀.trans (hstack hzero)
    rw [if_pos ⟨hempty, hzero⟩]
    exact ⟨_, rfl, ⟨hkept.pgnoRoot, hkept.intKey, hkept.skipNext⟩,
      .inl ⟨if_pos hzero, rfl, fun _ => hempty⟩⟩
  · have htree := hw.tree hzero
    have hpage : getAndInitPage t c₀.pgnoRoot = pure (pageAt t c₀.pgnoRoot) :=
      (Above.root hzero).getPage hw
    let c₁ : BtCursor K := { c₀.forget with stack := [(c₀.pgnoRoot, 0)], atLast := false }
    have hall : allEntries t c₀.pgnoRoot depth = entries t depth c₀.pgnoRoot := if_neg hzero
    have hup : Above t c₀.pgnoRoot depth depth c₀.pgnoRoot [] [] [] := .root hzero
    rw [if_neg fun hboth => hzero hboth.2, hpage, pure_bind, if_neg (by simp [htree.page.2.1])]
    by_cases hsingle : (pageAt t c₀.pgnoRoot).nCell = 0 ∧ (pageAt t c₀.pgnoRoot).leaf = false
    · -- page 1 may stand above a single page
      obtain ⟨h, rfl⟩ : ∃ h, depth = h + 1 := by
        cases depth with
        | zero => simpa [hsingle.2] using htree.page.2.2.1
        | succ h => exact ⟨h, rfl⟩
      have hright : (pageAt t c₀.pgnoRoot).rightChild = childPgno (pageAt t c₀.pgnoRoot) 0 := by
        rw [← childPgno_nCell, hsingle.1]
      have hbehind : behind (entries t h) (pageAt t c₀.pgnoRoot) 0 = [] := by
        rw [← hsingle.1, behind_nCell]
      have hchild := hup.child (Nat.zero_le _)
      rw [hbehind] at hchild
      obtain ⟨-, -, -, heq⟩ := hchild.facts hw
      have hone : c₀.forget.pgnoRoot = 1 := hw.single hzero hsingle.1 hsingle.2
      simp only
      rw [if_pos hsingle, if_pos hone, hright]
      refine ⟨_, moveToChild_eq (c := { c₁ with eState := CURSOR_VALID }) hw hup (Nat.zero_le _) rfl,
        ⟨hkept.pgnoRoot, hkept.intKey, hkept.skipNext⟩,
        .inr ⟨h, _, _, hchild, (htree.child (Nat.zero_le _)).2, ?_, rfl, rfl, rfl, rfl⟩⟩
      rw [hall, heq]
      simp [before]
    · rw [if_neg hsingle]
      by_cases hpos : (pageAt t c₀.pgnoRoot).nCell > 0
      · rw [if_pos hpos]
        exact ⟨_, rfl, ⟨hkept.pgnoRoot, hkept.intKey, hkept.skipNext⟩,
          .inr ⟨depth, _, [], hup, hpos, hall.symm, rfl, rfl, rfl, rfl⟩⟩
      · rw [if_neg hpos]
        refine ⟨_, rfl, ⟨hkept.pgnoRoot, hkept.intKey, hkept.skipNext⟩, .inl ⟨?_, rfl, fun h0 => absurd h0 hzero⟩⟩
        have hnil : keysOf (pageAt t c₀.pgnoRoot) = [] := by
          rw [← List.length_eq_zero_iff, keysOf_length]
          omega
        have hleaf : (pageAt t c₀.pgnoRoot).leaf = true := by
          by_contra hne
          exact hsingle ⟨by omega, by simpa using hne⟩
        have hdepth : depth = 0 := by simpa [hleaf] using htree.page.2.2.1
        rw [hall, hdepth, entries, hnil]

end Sqlite.BtreeCursor

import Mathlib.Algebra.Order.Ring.Int
import Mathlib.Data.Finset.Max

/-! `OP_NewRowid`, and the rowid that each cursor of a table keeps for it (`cachedRowid`). A table is the set
of its rowids. -/
namespace Sqlite.Rowid

def MAX_ROWID : ℤ := 0x7fffffffffffffff

/-- A cursor of a program. The fields `pgnoRoot` and `cachedRowid` are those of its `pCursor`. -/
structure VdbeCursor where
  pgnoRoot : ℕ
  cachedRowid : ℤ
  useRandomRowid : Bool
  deriving DecidableEq

/-- The table at each root page of a file, and the cursors that are open. -/
structure State where
  rows : ℕ → Finset ℤ
  cursor : ℕ → Option VdbeCursor

def sqlite3BtreeSetCachedRowid (s : State) (pgnoRoot : ℕ) (iRowid : ℤ) : State :=
  { s with cursor := fun p => (s.cursor p).map fun c =>
      if c.pgnoRoot = pgnoRoot then { c with cachedRowid := iRowid } else c }

def State.setCursor (s : State) (p1 : ℕ) (c : Option VdbeCursor) : State :=
  { s with cursor := fun p => if p = p1 then c else s.cursor p }

def State.setRows (s : State) (pgnoRoot : ℕ) (rows : Finset ℤ) : State :=
  { s with rows := fun p => if p = pgnoRoot then rows else s.rows p }

/-- What the opcode meets: the result codes of `sqlite3BtreeLast` and of the searches, `lastRowid`, and the
words from `sqlite3_randomness`. -/
structure Env where
  rcLast : ℤ
  rcMoveto : ℕ → ℤ
  lastRowid : ℤ
  randomness : ℕ → ℤ

def SQLITE_OK : ℤ := 0

/-- Why the opcode fails: `SQLITE_FULL`, a result code of the b-tree, or an assert. -/
inductive Failure
  | full
  | code (rc : ℤ)
  | assert
  deriving DecidableEq

/-- The rowid of the first attempt, and of the one after `cnt` collisions. -/
def randomRowid (env : Env) : ℕ → ℤ
  | 0 => env.lastRowid % 2 ^ 62 + 1
  | cnt + 1 => (if cnt + 1 < 5 then env.randomness cnt % 2 ^ 24 else env.randomness cnt % 2 ^ 62) + 1

/-- The random attempts. The first argument counts those that are left. -/
def randomLoop (rows : Finset ℤ) (env : Env) : ℕ → ℕ → Except Failure ℤ
  | 0, _ => .error .full
  | n + 1, cnt =>
    if env.rcMoveto cnt ≠ SQLITE_OK then .error (.code (env.rcMoveto cnt))
    else if randomRowid env cnt ∈ rows then randomLoop rows env n (cnt + 1)
    else .ok (randomRowid env cnt)

/-- The rowid after the largest one, and whether there is none. -/
def nextRowid (rows : Finset ℤ) (c : VdbeCursor) (env : Env) : Except Failure (ℤ × Bool) :=
  if c.cachedRowid ≠ 0 then .ok (c.cachedRowid, false)
  else if env.rcLast ≠ SQLITE_OK then .error (.code env.rcLast)
  else if h : rows.Nonempty then
    if rows.max' h ≥ MAX_ROWID then .ok (rows.max' h, true) else .ok (rows.max' h + 1, false)
  else .ok (1, false)

/-- The part for register P3, which is left out for P3=0. -/
def autoincrement (pMem : Option ℤ) (v : ℤ) (useRandomRowid : Bool) : Except Failure (ℤ × Option ℤ) :=
  match pMem with
  | none => .ok (v, none)
  | some i =>
    if i = MAX_ROWID ∨ useRandomRowid = true then .error .full
    else
      let v := if v < i + 1 then i + 1 else v
      .ok (v, some v)

/-- The random attempts, which are not for AUTOINCREMENT tables. -/
def randomPart (rows : Finset ℤ) (pMem : Option ℤ) (env : Env) : Except Failure ℤ :=
  if pMem ≠ none then .error .assert else randomLoop rows env 100 0

/-- The state afterwards, the register P3, and the new rowid. -/
def opNewRowid (s : State) (p1 : ℕ) (pC : VdbeCursor) (pMem : Option ℤ) (env : Env) :
    State × Option ℤ × Except Failure ℤ :=
  let rows := s.rows pC.pgnoRoot
  if pC.useRandomRowid then (s, pMem, randomPart rows pMem env)
  else
    match nextRowid rows pC env with
    | .error e => (s, pMem, .error e)
    | .ok (v, useRandomRowid) =>
      let s := s.setCursor p1 (some { pC with useRandomRowid := useRandomRowid })
      match autoincrement pMem v useRandomRowid with
      | .error e => (s, pMem, .error e)
      | .ok (v, pMem) =>
        let s := sqlite3BtreeSetCachedRowid s pC.pgnoRoot (if v < MAX_ROWID then v + 1 else 0)
        (s, pMem, if useRandomRowid then randomPart rows pMem env else .ok v)

def opInsert (s : State) (pC : VdbeCursor) (iKey : ℤ) : State :=
  (sqlite3BtreeSetCachedRowid s pC.pgnoRoot 0).setRows pC.pgnoRoot (insert iKey (s.rows pC.pgnoRoot))

/-- The cursor is at the row `iKey`. -/
def opDelete (s : State) (pC : VdbeCursor) (iKey : ℤ) : State :=
  (sqlite3BtreeSetCachedRowid s pC.pgnoRoot 0).setRows pC.pgnoRoot ((s.rows pC.pgnoRoot).erase iKey)

inductive Call
  | openWrite (p1 pgnoRoot : ℕ)
  | close (p1 : ℕ)
  | newRowid (p1 : ℕ) (pMem : Option ℤ) (env : Env)
  | insert (p1 : ℕ) (iKey : ℤ)
  | delete (p1 : ℕ) (iKey : ℤ)
  | clear (pgnoRoot : ℕ)

/-- A failure ends the program, and its cursors are closed. -/
def afterNewRowid (p1 : ℕ) (r : State × Option ℤ × Except Failure ℤ) : State :=
  match r.2.2 with
  | .ok _ => r.1
  | .error _ => r.1.setCursor p1 none

def step (s : State) : Call → State
  | .openWrite p1 pgnoRoot => s.setCursor p1 (some ⟨pgnoRoot, 0, false⟩)
  | .close p1 => s.setCursor p1 none
  | .newRowid p1 pMem env => (s.cursor p1).elim s fun pC => afterNewRowid p1 (opNewRowid s p1 pC pMem env)
  | .insert p1 iKey => (s.cursor p1).elim s fun pC => opInsert s pC iKey
  | .delete p1 iKey => (s.cursor p1).elim s fun pC => opDelete s pC iKey
  | .clear pgnoRoot => s.setRows pgnoRoot ∅

/-- 64 bits. -/
def IsI64 (v : ℤ) : Prop := -2 ^ 63 ≤ v ∧ v ≤ MAX_ROWID

instance (v : ℤ) : Decidable (IsI64 v) := inferInstanceAs (Decidable (_ ∧ _))

/-- Keys and registers have 64 bits, and P3 is given for the AUTOINCREMENT tables, which `autoinc` tells. -/
def Allowed (autoinc : ℕ → Bool) (s : State) : Call → Prop
  | .newRowid p1 pMem _ => (∀ i, pMem = some i → IsI64 i) ∧
    ∀ pC, s.cursor p1 = some pC → pMem.isSome = autoinc pC.pgnoRoot
  | .insert _ iKey => IsI64 iKey
  | _ => True

/-- The states that any calls lead to. -/
inductive Run (autoinc : ℕ → Bool) (s₀ : State) : State → Prop
  | start : Run autoinc s₀ s₀
  | step {s : State} (call : Call) (h : Run autoinc s₀ s) (hallowed : Allowed autoinc s call) :
      Run autoinc s₀ (step s call)

/-- A file before any cursor is open. -/
def IsFile (s : State) : Prop := (∀ p, s.cursor p = none) ∧ ∀ p, ∀ x ∈ s.rows p, IsI64 x

variable {rows : Finset ℤ} {c pC : VdbeCursor} {env : Env} {v i : ℤ} {b : Bool} {pMem pMem' : Option ℤ}
  {e : Failure} {n cnt p1 : ℕ} {s s₀ : State} {autoinc : ℕ → Bool}

theorem randomRowid_isI64 (env : Env) (cnt : ℕ) : IsI64 (randomRowid env cnt) := by
  cases cnt with
  | zero =>
    simp only [randomRowid, IsI64, MAX_ROWID]
    omega
  | succ cnt =>
    simp only [randomRowid, IsI64, MAX_ROWID]
    split <;> omega

theorem randomLoop_ok (h : randomLoop rows env n cnt = .ok v) : v ∉ rows ∧ IsI64 v := by
  induction n generalizing cnt with
  | zero => exact absurd h (by simp [randomLoop])
  | succ n ih =>
    rw [randomLoop] at h
    split_ifs at h with hrc hmem
    · exact ih h
    · obtain rfl := Except.ok.inj h
      exact ⟨hmem, randomRowid_isI64 env cnt⟩

/-- All attempts that are left fail. -/
theorem randomLoop_full (h : randomLoop rows env n cnt = .error .full) :
    ∀ k, cnt ≤ k → k < cnt + n → randomRowid env k ∈ rows := by
  induction n generalizing cnt with
  | zero =>
    intro k hle hlt
    omega
  | succ n ih =>
    rw [randomLoop] at h
    split_ifs at h with hrc hmem
    · exact absurd h (by simp)
    · intro k hle hlt
      rcases Nat.eq_or_lt_of_le hle with rfl | hlt'
      · exact hmem
      · exact ih h k hlt' (by omega)

theorem randomLoop_error (h : randomLoop rows env n cnt = .error e) :
    e = .full ∨ ∃ k, e = .code (env.rcMoveto k) ∧ env.rcMoveto k ≠ SQLITE_OK := by
  induction n generalizing cnt with
  | zero => exact .inl (Except.error.inj h).symm
  | succ n ih =>
    rw [randomLoop] at h
    split_ifs at h with hrc hmem
    · exact .inr ⟨cnt, (Except.error.inj h).symm, hrc⟩
    · exact ih h

/-- What a cursor keeps is above all rows. -/
def IsCached (rows : Finset ℤ) (cachedRowid : ℤ) : Prop :=
  cachedRowid ≠ 0 → IsI64 cachedRowid ∧ ∀ x ∈ rows, x < cachedRowid

theorem nextRowid_ok (hrows : ∀ x ∈ rows, IsI64 x) (hcached : IsCached rows c.cachedRowid)
    (h : nextRowid rows c env = .ok (v, b)) :
    IsI64 v ∧ ((b = false ∧ ∀ x ∈ rows, x < v) ∨ (b = true ∧ MAX_ROWID ∈ rows ∧ v = MAX_ROWID)) := by
  rw [nextRowid] at h
  split_ifs at h with hzero hrc hne hmax <;> obtain ⟨rfl, rfl⟩ := Prod.mk.inj (Except.ok.inj h)
  · obtain ⟨hfits, habove⟩ := hcached hzero
    exact ⟨hfits, .inl ⟨rfl, habove⟩⟩
  · have hmem := rows.max'_mem hne
    have hfits := hrows _ hmem
    have heq : rows.max' hne = MAX_ROWID := le_antisymm hfits.2 hmax
    exact ⟨hfits, .inr ⟨rfl, heq ▸ hmem, heq⟩⟩
  · obtain ⟨hlo, -⟩ := hrows _ (rows.max'_mem hne)
    refine ⟨⟨by omega, by omega⟩, .inl ⟨rfl, fun x hx => ?_⟩⟩
    have := rows.le_max' x hx
    omega
  · refine ⟨by decide, .inl ⟨rfl, fun x hx => absurd ⟨x, hx⟩ hne⟩⟩

theorem nextRowid_error (h : nextRowid rows c env = .error e) :
    e = .code env.rcLast ∧ env.rcLast ≠ SQLITE_OK := by
  rw [nextRowid] at h
  split_ifs at h with hzero hrc hne hmax
  exact ⟨(Except.error.inj h).symm, hrc⟩

theorem autoincrement_ok {w : ℤ} (h : autoincrement pMem v b = .ok (w, pMem')) :
    (pMem = none ∧ w = v ∧ pMem' = none) ∨ ∃ i, pMem = some i ∧ i ≠ MAX_ROWID ∧ b = false ∧ v ≤ w ∧ i < w ∧
      (w = v ∨ w = i + 1) ∧ pMem' = some w := by
  cases pMem with
  | none =>
    obtain ⟨rfl, rfl⟩ := Prod.mk.inj (Except.ok.inj h)
    exact .inl ⟨rfl, rfl, rfl⟩
  | some i =>
    simp only [autoincrement] at h
    split_ifs at h with hfull hlt
    all_goals
      obtain ⟨rfl, rfl⟩ := Prod.mk.inj (Except.ok.inj h)
      rw [not_or] at hfull
      refine .inr ⟨i, rfl, hfull.1, by simpa using hfull.2, by omega, by omega, by simp, rfl⟩

theorem autoincrement_error (h : autoincrement pMem v b = .error e) :
    e = .full ∧ ∃ i, pMem = some i ∧ (i = MAX_ROWID ∨ b = true) := by
  cases pMem with
  | none => exact absurd h (by simp [autoincrement])
  | some i =>
    simp only [autoincrement] at h
    split_ifs at h with hfull
    exact ⟨(Except.error.inj h).symm, i, rfl, hfull⟩

/-! What the calls keep. -/

/-- What every cursor keeps is above the rows of its table, and AUTOINCREMENT tables have no random rowids. -/
structure Inv (autoinc : ℕ → Bool) (s : State) : Prop where
  fits : ∀ p, ∀ x ∈ s.rows p, IsI64 x
  cached : ∀ p c, s.cursor p = some c → IsCached (s.rows c.pgnoRoot) c.cachedRowid
  random : ∀ p c, s.cursor p = some c → c.useRandomRowid = true → autoinc c.pgnoRoot = false

theorem Inv.close (h : Inv autoinc s) (p1 : ℕ) : Inv autoinc (s.setCursor p1 none) := by
  refine ⟨h.fits, fun p c hc => ?_, fun p c hc => ?_⟩
  all_goals
    simp only [State.setCursor] at hc
    split_ifs at hc
  · exact h.cached p c hc
  · exact h.random p c hc

theorem Inv.setCursor (h : Inv autoinc s) (p1 : ℕ) (hcached : IsCached (s.rows c.pgnoRoot) c.cachedRowid)
    (hrandom : c.useRandomRowid = true → autoinc c.pgnoRoot = false) :
    Inv autoinc (s.setCursor p1 (some c)) := by
  refine ⟨h.fits, fun p d hd => ?_, fun p d hd => ?_⟩
  all_goals
    simp only [State.setCursor] at hd
    split_ifs at hd
  · obtain rfl := Option.some.inj hd
    exact hcached
  · exact h.cached p d hd
  · obtain rfl := Option.some.inj hd
    exact hrandom
  · exact h.random p d hd

theorem cursor_setCached {root : ℕ} {iRowid : ℤ} {p : ℕ}
    (h : (sqlite3BtreeSetCachedRowid s root iRowid).cursor p = some c) : ∃ d, s.cursor p = some d ∧
      c.pgnoRoot = d.pgnoRoot ∧ c.useRandomRowid = d.useRandomRowid ∧
      c.cachedRowid = if d.pgnoRoot = root then iRowid else d.cachedRowid := by
  obtain ⟨d, hd, hc⟩ := Option.map_eq_some_iff.mp h
  refine ⟨d, hd, ?_⟩
  split_ifs at hc with hroot <;> subst hc
  · exact ⟨rfl, rfl, (if_pos hroot).symm⟩
  · exact ⟨rfl, rfl, (if_neg hroot).symm⟩

theorem Inv.setCached (h : Inv autoinc s) {root : ℕ} {iRowid : ℤ} (hcached : IsCached (s.rows root) iRowid) :
    Inv autoinc (sqlite3BtreeSetCachedRowid s root iRowid) := by
  refine ⟨h.fits, fun p c hc => ?_, fun p c hc => ?_⟩
  all_goals obtain ⟨d, hd, hroot, huse, hval⟩ := cursor_setCached hc
  · rw [hroot, hval]
    split_ifs with heq
    · rw [heq]
      exact hcached
    · exact h.cached p d hd
  · rw [hroot, huse]
    exact h.random p d hd

/-- The rows of a table change. -/
theorem Inv.setRows (h : Inv autoinc s) {root : ℕ} (hfits : ∀ x ∈ rows, IsI64 x)
    (hcached : ∀ p c, s.cursor p = some c → c.pgnoRoot = root → IsCached rows c.cachedRowid) :
    Inv autoinc (s.setRows root rows) := by
  refine ⟨fun p x hx => ?_, fun p c hc => ?_, h.random⟩
  · simp only [State.setRows] at hx
    split_ifs at hx
    · exact hfits x hx
    · exact h.fits p x hx
  · simp only [State.setRows]
    split_ifs with hroot
    · exact hcached p c hc hroot
    · exact h.cached p c hc

theorem isCached_zero (rows : Finset ℤ) : IsCached rows 0 := fun h => absurd rfl h

/-- The rowids that the table gets, and those that it loses, come after all cursors have been cleared. -/
theorem Inv.write (h : Inv autoinc s) {root : ℕ} (hfits : ∀ x ∈ rows, IsI64 x) :
    Inv autoinc ((sqlite3BtreeSetCachedRowid s root 0).setRows root rows) := by
  refine (h.setCached (isCached_zero _)).setRows hfits fun p c hc hroot => ?_
  obtain ⟨d, hd, hsame, -, hval⟩ := cursor_setCached hc
  rw [hval, if_pos (hsame ▸ hroot)]
  exact isCached_zero rows

/-- What the opcode can do. -/
theorem opNewRowid_cases (s : State) (p1 : ℕ) (pC : VdbeCursor) (pMem : Option ℤ) (env : Env) :
    (pC.useRandomRowid = true ∧
      opNewRowid s p1 pC pMem env = (s, pMem, randomPart (s.rows pC.pgnoRoot) pMem env)) ∨
    (pC.useRandomRowid = false ∧ ∃ e, nextRowid (s.rows pC.pgnoRoot) pC env = .error e ∧
      opNewRowid s p1 pC pMem env = (s, pMem, .error e)) ∨
    (pC.useRandomRowid = false ∧ ∃ v b, nextRowid (s.rows pC.pgnoRoot) pC env = .ok (v, b) ∧
      ((∃ e, autoincrement pMem v b = .error e ∧ opNewRowid s p1 pC pMem env =
        (s.setCursor p1 (some { pC with useRandomRowid := b }), pMem, .error e)) ∨
      ∃ w pMem', autoincrement pMem v b = .ok (w, pMem') ∧ opNewRowid s p1 pC pMem env =
        (sqlite3BtreeSetCachedRowid (s.setCursor p1 (some { pC with useRandomRowid := b })) pC.pgnoRoot
          (if w < MAX_ROWID then w + 1 else 0), pMem',
          if b then randomPart (s.rows pC.pgnoRoot) pMem' env else .ok w))) := by
  rw [opNewRowid]
  cases huse : pC.useRandomRowid with
  | true => exact .inl ⟨rfl, rfl⟩
  | false =>
    cases hnext : nextRowid (s.rows pC.pgnoRoot) pC env with
    | error e => exact .inr (.inl ⟨rfl, e, rfl, rfl⟩)
    | ok x =>
      obtain ⟨v, b⟩ := x
      refine .inr (.inr ⟨rfl, v, b, rfl, ?_⟩)
      cases hauto : autoincrement pMem v b with
      | error e => exact .inl ⟨e, rfl, by simp only [hauto]; rfl⟩
      | ok y => exact .inr ⟨y.1, y.2, rfl, by simp only [hauto]; rfl⟩

theorem Inv.after {r : State × Option ℤ × Except Failure ℤ} (h : Inv autoinc r.1) :
    Inv autoinc (afterNewRowid p1 r) := by
  rw [afterNewRowid]
  cases r.2.2 with
  | ok v => exact h
  | error e => exact h.close p1

/-- The next rowid of a table, and what P3 makes of it. -/
theorem next_ok {w : ℤ} (hrows : ∀ x ∈ rows, IsI64 x) (hcached : IsCached rows c.cachedRowid)
    (hcounter : ∀ i, pMem = some i → IsI64 i) (hnext : nextRowid rows c env = .ok (v, b))
    (hauto : autoincrement pMem v b = .ok (w, pMem')) :
    pMem' = pMem.map (fun _ => w) ∧ (∀ i, pMem = some i → b = false ∧ i < w) ∧ IsI64 w ∧
      ((b = false ∧ ∀ x ∈ rows, x < w) ∨ (b = true ∧ w = MAX_ROWID)) := by
  obtain ⟨hfits, hv⟩ := nextRowid_ok hrows hcached hnext
  rcases autoincrement_ok hauto with ⟨rfl, rfl, rfl⟩ | ⟨i, rfl, hi, rfl, hle, hlt, heq, rfl⟩
  · refine ⟨rfl, fun i hi => absurd hi (by simp), hfits, ?_⟩
    exact hv.imp_right fun hmax => ⟨hmax.1, hmax.2.2⟩
  · have hfits' := hcounter i rfl
    refine ⟨rfl, fun j hj => ?_, ⟨hfits.1.trans hle, ?_⟩, ?_⟩
    · obtain rfl := Option.some.inj hj
      exact ⟨rfl, hlt⟩
    · rcases heq with rfl | rfl
      · exact hfits.2
      · exact Int.add_one_le_of_lt (lt_of_le_of_ne hfits'.2 hi)
    · rcases hv with ⟨-, habove⟩ | ⟨hb, -⟩
      · exact .inl ⟨rfl, fun x hx => (habove x hx).trans_le hle⟩
      · exact absurd hb (by simp)

theorem Inv.newRowid (h : Inv autoinc s) (hc : s.cursor p1 = some pC)
    (hallowed : Allowed autoinc s (.newRowid p1 pMem env)) :
    Inv autoinc (afterNewRowid p1 (opNewRowid s p1 pC pMem env)) := by
  have hcached := h.cached p1 pC hc
  have hrows := h.fits pC.pgnoRoot
  rcases opNewRowid_cases s p1 pC pMem env with ⟨-, heq⟩ | ⟨-, e, -, heq⟩ | ⟨-, v, b, hnext, hrest⟩
  · rw [heq]
    exact Inv.after h
  · rw [heq]
    exact h.close p1
  rcases hrest with ⟨e, -, heq⟩ | ⟨w, pMem', hauto, heq⟩
  · have hclose : afterNewRowid p1 (opNewRowid s p1 pC pMem env) = s.setCursor p1 none := by
      rw [heq]
      simp only [afterNewRowid, State.setCursor, State.mk.injEq, true_and]
      funext p
      split_ifs <;> rfl
    rw [hclose]
    exact h.close p1
  · obtain ⟨-, hmem, ⟨hlo, -⟩, hw⟩ := next_ok hrows hcached hallowed.1 hnext hauto
    have hrandom : b = true → autoinc pC.pgnoRoot = false := by
      intro hb
      cases pMem with
      | none => exact (hallowed.2 pC hc).symm
      | some i => exact absurd (hb.symm.trans (hmem i rfl).1) (by simp)
    have hset : Inv autoinc (s.setCursor p1 (some { pC with useRandomRowid := b })) :=
      h.setCursor p1 hcached hrandom
    rw [heq]
    refine Inv.after (hset.setCached fun hzero => ?_)
    split_ifs at hzero ⊢ with hlt
    · rcases hw with ⟨-, habove⟩ | ⟨-, hmax⟩
      · exact ⟨⟨by omega, by omega⟩, fun x hx => (habove x hx).trans (lt_add_one w)⟩
      · exact absurd hmax hlt.ne
    · exact absurd rfl hzero

/-- A call preserves the invariant. -/
theorem Inv.step (h : Inv autoinc s) {call : Call} (hallowed : Allowed autoinc s call) :
    Inv autoinc (step s call) := by
  cases call with
  | openWrite p1 pgnoRoot => exact h.setCursor p1 (isCached_zero _) fun hfalse => absurd hfalse (by simp)
  | close p1 => exact h.close p1
  | newRowid p1 pMem env =>
    cases hc : s.cursor p1 with
    | none => simpa only [Rowid.step, hc, Option.elim_none] using h
    | some pC => simpa only [Rowid.step, hc, Option.elim_some] using h.newRowid hc hallowed
  | insert p1 iKey =>
    cases hc : s.cursor p1 with
    | none => simpa only [Rowid.step, hc, Option.elim_none] using h
    | some pC =>
      simp only [Rowid.step, hc, Option.elim_some]
      refine h.write fun x hx => ?_
      rcases Finset.mem_insert.mp hx with rfl | hx
      · exact hallowed
      · exact h.fits _ x hx
  | delete p1 iKey =>
    cases hc : s.cursor p1 with
    | none => simpa only [Rowid.step, hc, Option.elim_none] using h
    | some pC =>
      simp only [Rowid.step, hc, Option.elim_some]
      exact h.write fun x hx => h.fits _ x (Finset.mem_of_mem_erase hx)
  | clear pgnoRoot =>
    refine h.setRows (fun x hx => absurd hx (Finset.notMem_empty x)) fun p c hc _ hzero => ?_
    exact ⟨(h.cached p c hc hzero).1, fun x hx => absurd hx (Finset.notMem_empty x)⟩

theorem Run.inv (h : Run autoinc s₀ s) (hfile : IsFile s₀) : Inv autoinc s := by
  induction h with
  | start =>
    refine ⟨hfile.2, fun p c hc => ?_, fun p c hc => ?_⟩ <;> rw [hfile.1 p] at hc <;>
      exact absurd hc (by simp)
  | step call _ hallowed ih => exact ih.step hallowed

/-- The rowid is new; with AUTOINCREMENT it is above the rows and the counter, and becomes the counter. -/
structure IsNew (rows : Finset ℤ) (pMem pMem' : Option ℤ) (v : ℤ) : Prop where
  new : v ∉ rows
  fits : IsI64 v
  above : ∀ i, pMem = some i → (∀ x ∈ rows, x < v) ∧ i < v
  counter : pMem' = pMem.map fun _ => v

/-- What the opcode may leave in register P3 and give as its result. `SQLITE_FULL` comes after 100 attempts
without AUTOINCREMENT, and with it at the largest rowid only. Other failures are those of the b-tree. -/
structure Sound (rows : Finset ℤ) (pMem : Option ℤ) (env : Env) (r : Option ℤ × Except Failure ℤ) : Prop where
  new : ∀ v, r.2 = .ok v → IsNew rows pMem r.1 v
  attempts : r.2 = .error .full → pMem = none → ∀ cnt < 100, randomRowid env cnt ∈ rows
  largest : r.2 = .error .full → ∀ i, pMem = some i → i = MAX_ROWID ∨ MAX_ROWID ∈ rows
  failure : ∀ e, r.2 = .error e → e = .full ∨ ∃ rc, e = .code rc ∧ rc ≠ SQLITE_OK ∧
    (rc = env.rcLast ∨ ∃ cnt, rc = env.rcMoveto cnt)

theorem randomPart_sound (rows : Finset ℤ) (env : Env) :
    Sound rows none env (none, randomPart rows none env) where
  new v hv := by
    obtain ⟨hnew, hfits⟩ := randomLoop_ok hv
    exact ⟨hnew, hfits, fun i hi => absurd hi (by simp), rfl⟩
  attempts hfull _ cnt hlt := randomLoop_full hfull cnt (Nat.zero_le cnt) (by omega)
  largest _ i hi := absurd hi (by simp)
  failure e he := (randomLoop_error he).imp_right fun ⟨cnt, hcode, hrc⟩ => ⟨_, hcode, hrc, .inr ⟨cnt, rfl⟩⟩

/-- After any calls, the rowid that `OP_NewRowid` gives is new. -/
theorem newRowid_sound (autoinc : ℕ → Bool) (s₀ s : State) (p1 : ℕ) (pC : VdbeCursor) (pMem : Option ℤ)
    (env : Env) (hfile : IsFile s₀) (hrun : Run autoinc s₀ s) (hc : s.cursor p1 = some pC)
    (hallowed : Allowed autoinc s (.newRowid p1 pMem env)) :
    Sound (s.rows pC.pgnoRoot) pMem env (opNewRowid s p1 pC pMem env).2 := by
  have hinv := hrun.inv hfile
  have hcached := hinv.cached p1 pC hc
  have hrows := hinv.fits pC.pgnoRoot
  rcases opNewRowid_cases s p1 pC pMem env with ⟨huse, heq⟩ | ⟨-, e, hnext, heq⟩ | ⟨-, v, b, hnext, hrest⟩
  · -- The cursor has seen the largest rowid, so this is no AUTOINCREMENT table.
    have hflag := hallowed.2 pC hc
    rw [hinv.random p1 pC hc huse] at hflag
    obtain rfl : pMem = none := by simpa using hflag
    rw [heq]
    exact randomPart_sound _ env
  · obtain ⟨rfl, hrc⟩ := nextRowid_error hnext
    rw [heq]
    refine ⟨fun v hv => absurd hv (by simp), fun h => absurd h (by simp), fun h => absurd h (by simp), ?_⟩
    intro e he
    exact .inr ⟨env.rcLast, (Except.error.inj he).symm, hrc, .inl rfl⟩
  rcases hrest with ⟨e, hauto, heq⟩ | ⟨w, pMem', hauto, heq⟩
  · obtain ⟨rfl, i, rfl, hfull⟩ := autoincrement_error hauto
    rw [heq]
    refine ⟨fun v hv => absurd hv (by simp), fun _ h => absurd h (by simp), fun _ j hj => ?_, fun e he => ?_⟩
    · obtain rfl := Option.some.inj hj
      refine hfull.imp_right fun hb => ?_
      rcases (nextRowid_ok hrows hcached hnext).2 with ⟨hfalse, -⟩ | ⟨-, hmem, -⟩
      · exact absurd (hb.symm.trans hfalse) (by simp)
      · exact hmem
    · exact .inl (Except.error.inj he).symm
  obtain ⟨hcounter, hmem, hfits, hw⟩ := next_ok hrows hcached hallowed.1 hnext hauto
  rw [heq]
  cases hb : b with
  | true =>
    obtain rfl : pMem = none := by
      cases pMem with
      | none => rfl
      | some i => exact absurd (hb.symm.trans (hmem i rfl).1) (by simp)
    obtain rfl : pMem' = none := hcounter
    exact randomPart_sound _ env
  | false =>
    refine ⟨fun v hv => ?_, fun h => absurd h (by simp), fun h => absurd h (by simp), fun e he => ?_⟩
    · obtain rfl := Except.ok.inj hv
      rcases hw with ⟨-, habove⟩ | ⟨htrue, -⟩
      · exact ⟨fun hin => lt_irrefl _ (habove _ hin), hfits, fun i hi => ⟨habove, (hmem i hi).2⟩, hcounter⟩
      · exact absurd (htrue.symm.trans hb) (by simp)
    · exact absurd he (by simp)

/-- Two cursors on a table: the one has given a rowid, and the other has inserted a row since. -/
theorem newRowid_sound_two : ∃ (env : Env) (s₀ s : State) (pC : VdbeCursor), IsFile s₀ ∧
    Run (fun _ => true) s₀ s ∧ s.cursor 0 = some pC ∧
    Allowed (fun _ => true) s (.newRowid 0 (some 6) env) ∧
    Sound (s.rows pC.pgnoRoot) (some 6) env (opNewRowid s 0 pC (some 6) env).2 := by
  let env : Env := ⟨0, fun _ => 0, 0, fun _ => 0⟩
  let s₀ : State := ⟨fun p => if p = 2 then {5} else ∅, fun _ => none⟩
  have hfile : IsFile s₀ := by
    refine ⟨fun p => rfl, fun p x hx => ?_⟩
    simp only [s₀] at hx
    split_ifs at hx
    · rw [Finset.mem_singleton.mp hx]
      decide
    · exact absurd hx (Finset.notMem_empty x)
  have hcounter : ∀ i, some (5 : ℤ) = some i → IsI64 i := fun i hi => Option.some.inj hi ▸ by decide
  have hcounter' : ∀ i, some (6 : ℤ) = some i → IsI64 i := fun i hi => Option.some.inj hi ▸ by decide
  have hrun : Run (fun _ => true) s₀ _ :=
    (((Run.start.step (.openWrite 0 2) trivial).step (.openWrite 1 2) trivial).step
      (.newRowid 0 (some 5) env) ⟨hcounter, fun _ _ => rfl⟩).step (.insert 1 9) (by decide : IsI64 9)
  exact ⟨env, s₀, _, _, hfile, hrun, rfl, ⟨hcounter', fun _ _ => rfl⟩,
    newRowid_sound _ s₀ _ 0 _ (some 6) env hfile hrun rfl ⟨hcounter', fun _ _ => rfl⟩⟩

end Sqlite.Rowid

import Mathlib.Data.List.Sort
import Sqlite.BtreeCursor.Calls

/-! In runs that keep `skipNext` apart, a cursor steps from entry to entry in the order of the keys,
whatever other cursors do to the tree. -/
namespace Sqlite.BtreeCursor

open CursorState

variable {K : Type} [LinearOrder K] {t : BtShared K} {root depth n : ℕ} {intKey : Bool}
  {s s' s₀ : Client K} {c c' : BtCursor K} {x k : K} {call : Call K} {res : Option ℤ}

/-- In a tree that is gone no call moves the cursor. -/
theorem step_fault (call : Call K) (hf : s.cur.eState = CURSOR_FAULT) :
    (∃ f, step s call = .error f) ∨ (∃ t' depth', call = .write t' depth') ∨
      ∃ errCode, call = .trip errCode := by
  have hroot : moveToRoot s.t s.cur = .error (.code s.cur.skipNext) := by
    rw [moveToRoot, if_pos hf]
    rfl
  have hrestore : restoreCursorPosition s.t s.cur = .error (.code s.cur.skipNext) := by
    rw [restoreCursorPosition, if_pos (.inr hf), btreeRestoreCursorPosition, if_pos hf]
    rfl
  cases call with
  | moveto key bias =>
    have hcached : cachedCompare s.cur key = none := by
      cases key <;> simp [cachedCompare, hf]
    simp only [step, sqlite3BtreeMovetoUnpacked, hcached]
    rw [hroot]
    exact .inl ⟨_, rfl⟩
  | first =>
    simp only [step, sqlite3BtreeFirst]
    rw [hroot]
    exact .inl ⟨_, rfl⟩
  | last =>
    simp only [step, sqlite3BtreeLast]
    rw [if_neg (by simp [hf]), hroot]
    exact .inl ⟨_, rfl⟩
  | next =>
    simp only [step]
    rw [sqlite3BtreeNext, hrestore]
    exact .inl ⟨_, rfl⟩
  | previous =>
    simp only [step]
    rw [sqlite3BtreePrevious, hrestore]
    exact .inl ⟨_, rfl⟩
  | hasMoved =>
    simp only [step, sqlite3BtreeCursorHasMoved]
    rw [hrestore]
    exact .inl ⟨_, rfl⟩
  | data =>
    simp only [step, sqlite3BtreeData]
    rw [hrestore]
    exact .inl ⟨_, rfl⟩
  | keySize =>
    simp only [step, sqlite3BtreeKeySize, hf]
    exact .inl ⟨_, rfl⟩
  | write t' depth' => exact .inr (.inl ⟨t', depth', rfl⟩)
  | trip errCode => exact .inr (.inr ⟨errCode, rfl⟩)

theorem Good.fault (hg : Good root intKey s) (hf : s.cur.eState = CURSOR_FAULT)
    (ht : WellFormed t root intKey depth) (pos : Option K) :
    Good root intKey ⟨t, depth, s.cur, pos⟩ :=
  ⟨ht, hg.pgnoRoot, hg.kind, hg.stack, by simp [hf], by simp [hf], by simp [hf]⟩

theorem Good.write (hg : Good root intKey s) (ht : WellFormed t root intKey depth)
    (hmeets : Meets s (.write t depth)) : ∃ c', saveAllCursors s.t s.cur = pure c' ∧
      Good root intKey ⟨t, depth, c', s.pos⟩ := by
  cases hv : s.cur.eState with
  | CURSOR_INVALID =>
    refine ⟨s.cur, by simp [saveAllCursors, hv], ht, hg.pgnoRoot, hg.kind, hg.stack, by simp [hv],
      by simp [hv], fun _ => ?_⟩
    rcases hg.invalid hv with hpos | ⟨hskip, -⟩
    · exact .inl hpos
    · exact absurd (hmeets (by simp [hv])) hskip
  | CURSOR_VALID =>
    obtain ⟨c', k, hsave, hroot, hkind, hstack, hv', hsaved, hpos⟩ :=
      hg.saved_eq hv (hmeets (by simp [hv]))
    refine ⟨c', by rw [saveAllCursors, if_pos hv, hsave], ht, hroot, hkind, fun _ => hstack,
      by simp [hv'], fun _ => ⟨hstack, k, hsaved, hpos⟩, by simp [hv']⟩
  | CURSOR_REQUIRESEEK =>
    exact ⟨s.cur, by simp [saveAllCursors, hv], ht, hg.pgnoRoot, hg.kind, hg.stack, by simp [hv],
      hg.saved, by simp [hv]⟩
  | CURSOR_FAULT =>
    exact ⟨s.cur, by simp [saveAllCursors, hv], hg.fault hv ht s.pos⟩

theorem Good.trip (hg : Good root intKey s) (errCode : ℤ) :
    Good root intKey ⟨s.t, s.depth, sqlite3BtreeTripAllCursors s.cur errCode, none⟩ :=
  ⟨hg.tree, hg.pgnoRoot, hg.kind, fun _ => rfl, by simp [sqlite3BtreeTripAllCursors],
    by simp [sqlite3BtreeTripAllCursors], by simp [sqlite3BtreeTripAllCursors]⟩

/-- Where a positioning call has left a cursor. -/
theorem Good.positioned (hg : Good root intKey s) (hkept : Kept s.cur c') (hskip : s.cur.skipNext = 0)
    (hcase : (c'.eState = CURSOR_INVALID ∧ (root = 0 → c'.stack = [])) ∨
      (c'.eState = CURSOR_VALID ∧ ∃ pre x post, Placed s.t root s.depth c' pre x post)) :
    Good root intKey (s.moved c') :=
  hg.moved hkept.pgnoRoot hkept.intKey (hkept.skipNext.trans hskip) hcase

/-- What a step says of where it goes. -/
def MovesTo (root : ℕ) (s : Client K) (call : Call K) (right : List K → K → Option K → Prop) : Prop :=
  ∃ res s', step s call = pure (some res, s') ∧ (res = 0 ∨ res = 1) ∧ (res = 1 ↔ s'.pos = none) ∧
    match s.pos with
    | some k => right (allEntries s.t root s.depth) k s'.pos
    | none => s'.pos = none

/-- What a call has to come to, unless the tree is gone (`CURSOR_FAULT`). -/
def Right (root : ℕ) (s : Client K) : Call K → Prop
  | .next => MovesTo root s .next IsSucc
  | .previous => MovesTo root s .previous IsPred
  | .first => ∃ res s', step s .first = pure (some res, s') ∧ (res = 1 ↔ s'.pos = none) ∧
      s'.pos = (allEntries s.t root s.depth).head?
  | .last => ∃ res s', step s .last = pure (res, s') ∧ (res = some 1 ↔ s'.pos = none) ∧
      s'.pos = (allEntries s.t root s.depth).getLast?
  | .moveto key bias => ∃ res s', step s (.moveto key bias) = pure (some res, s') ∧
      (s'.pos = none ↔ allEntries s.t root s.depth = []) ∧
      ∀ x, s'.pos = some x → x ∈ allEntries s.t root s.depth ∧ res = key.compare x
  | _ => True

theorem Steps.movesTo {right : List K → K → Option K → Prop} {res : ℤ}
    (hsteps : Steps root intKey s right res c') (hstep : step s call = pure (some res, s.moved c')) :
    MovesTo root s call right ∧ Good root intKey (s.moved c') := by
  obtain ⟨hg, hcase, hnone, hright⟩ := hsteps
  refine ⟨⟨res, s.moved c', hstep, by omega, ?_, ?_⟩, hg⟩
  · change res = 1 ↔ entryOf s.t c' = none
    rcases hcase with ⟨hres, hv⟩ | ⟨hres, hv⟩
    · simp [hres, entryOf_invalid hv]
    · obtain ⟨pre, x, post, hp, -⟩ := hg.valid hv
      have hsome : entryOf s.t c' = some x := hp.1.entryOf rfl hv
      simp [hres, hsome]
  · cases hpos : s.pos with
    | some k => exact hright k hpos
    | none =>
      rcases hcase with ⟨-, hv⟩ | ⟨hres, -⟩
      · exact entryOf_invalid hv
      · have := hnone hpos
        omega

theorem of_step {p : Client K → Prop} (hstep : step s call = pure (res, s')) (hp : p s') :
    ∀ res s', step s call = pure (res, s') → p s' := by
  intro res' s'' h
  rw [hstep] at h
  cases h
  exact hp

/-- One call, and what holds after it. -/
theorem Good.right_step (hg : Good root intKey s) (call : Call K) (hf : s.cur.eState ≠ CURSOR_FAULT)
    (hallowed : Allowed root intKey call) (hmeets : Meets s call) :
    Right root s call ∧ ∀ res s', step s call = pure (res, s') → Good root intKey s' := by
  have hvalid (hv : s.cur.eState = CURSOR_VALID)
      (_ : s.cur.validNKey = true ∨ s.cur.atLast = true) :
      ∃ pre x post, Placed s.t root s.depth s.cur pre x post := by
    obtain ⟨pre, x, post, hp, -⟩ := hg.valid hv
    exact ⟨pre, x, post, hp⟩
  cases call with
  | moveto key bias =>
    obtain ⟨res, c', hmove, hkept, hcase⟩ :=
      moveto_eq hg.tree hg.pgnoRoot hg.kind hg.stack hf hvalid key bias
    have hstep : step s (.moveto key bias) = pure (some res, s.moved c') := by
      rw [step, hmove, pure_bind]
    have hskip : s.cur.skipNext = 0 := hmeets hf
    rcases hcase with ⟨hall, -, hv, hst⟩ | ⟨hv, pre, x, post, hp, hres, -⟩
    · have hpos : (s.moved c').pos = none := entryOf_invalid hv
      refine ⟨⟨res, _, hstep, by simp [hpos, hall], by simp [hpos]⟩, of_step hstep ?_⟩
      exact hg.positioned hkept hskip (.inl ⟨hv, hst⟩)
    · have hpos : (s.moved c').pos = some x := hp.1.entryOf rfl hv
      have hsplit := hp.1.split hg.tree
      refine ⟨⟨res, _, hstep, by simp [hpos, hsplit], ?_⟩, of_step hstep ?_⟩
      · simp [hpos, hsplit, hres]
      · exact hg.positioned hkept hskip (.inr ⟨hv, pre, x, post, hp⟩)
  | first =>
    obtain ⟨res, c', hmove, hkept, hcase⟩ := first_eq hg.tree hg.pgnoRoot hg.kind hg.stack hf
    have hstep : step s .first = pure (some res, s.moved c') := by rw [step, hmove, pure_bind]
    have hskip : s.cur.skipNext = 0 := hmeets hf
    rcases hcase with ⟨hall, hres, hv, hst⟩ | ⟨hres, hv, x, post, hp⟩
    · have hpos : (s.moved c').pos = none := entryOf_invalid hv
      refine ⟨⟨res, _, hstep, by simp [hpos, hres], by simp [hpos, hall]⟩, of_step hstep ?_⟩
      exact hg.positioned hkept hskip (.inl ⟨hv, hst⟩)
    · have hpos : (s.moved c').pos = some x := hp.1.entryOf rfl hv
      have hsplit := hp.1.split hg.tree
      refine ⟨⟨res, _, hstep, by simp [hpos, hres], by simp [hpos, hsplit]⟩, of_step hstep ?_⟩
      exact hg.positioned hkept hskip (.inr ⟨hv, [], x, post, hp⟩)
  | last =>
    obtain ⟨res, c', hmove, hkept, hcase⟩ := last_eq hg.tree hg.pgnoRoot hg.kind hg.stack hf hvalid
    have hstep : step s .last = pure (res, s.moved c') := by rw [step, hmove, pure_bind]
    have hskip : s.cur.skipNext = 0 := hmeets hf
    rcases hcase with ⟨hall, hres, hv, hst⟩ | ⟨hres, hv, pre, x, hp⟩
    · have hpos : (s.moved c').pos = none := entryOf_invalid hv
      refine ⟨⟨res, _, hstep, by simp [hpos, hres], by simp [hpos, hall]⟩, of_step hstep ?_⟩
      exact hg.positioned hkept hskip (.inl ⟨hv, hst⟩)
    · have hpos : (s.moved c').pos = some x := hp.1.entryOf rfl hv
      have hsplit := hp.1.split hg.tree
      refine ⟨⟨res, _, hstep, by simp [hpos, hres], by simp [hpos, hsplit]⟩, of_step hstep ?_⟩
      exact hg.positioned hkept hskip (.inr ⟨hv, pre, x, [], hp⟩)
  | next =>
    obtain ⟨res, c', hnext, hsteps⟩ := hg.next hf
    have hstep : step s .next = pure (some res, s.moved c') := by rw [step, hnext, pure_bind]
    obtain ⟨hmoves, hgood⟩ := hsteps.movesTo hstep
    exact ⟨hmoves, of_step hstep hgood⟩
  | previous =>
    obtain ⟨res, c', hprev, hsteps⟩ := hg.previous hf
    have hstep : step s .previous = pure (some res, s.moved c') := by rw [step, hprev, pure_bind]
    obtain ⟨hmoves, hgood⟩ := hsteps.movesTo hstep
    exact ⟨hmoves, of_step hstep hgood⟩
  | hasMoved =>
    obtain ⟨c', hrestore, hgood, -⟩ := hg.restore hf
    refine ⟨trivial, fun res s' h => ?_⟩
    rw [step, sqlite3BtreeCursorHasMoved, hrestore] at h
    cases h
    exact hgood
  | data =>
    obtain ⟨c', hrestore, hgood, hstate⟩ := hg.restore hf
    refine ⟨trivial, fun res s' h => ?_⟩
    rw [step, sqlite3BtreeData, hrestore, pure_bind] at h
    by_cases hv : c'.eState = CURSOR_VALID
    · obtain ⟨c'', hget, hgood'⟩ := hgood.getCellInfo hv
      rw [if_pos hv] at h
      change BtreeCursor.getCellInfo s.t c' = _ at hget
      rw [hget] at h
      cases h
      exact hgood'
    · rw [if_neg hv] at h
      cases h
  | keySize =>
    refine ⟨trivial, fun res s' h => ?_⟩
    cases hv : s.cur.eState with
    | CURSOR_INVALID =>
      simp only [step, sqlite3BtreeKeySize, hv] at h
      cases h
      exact hg
    | CURSOR_VALID =>
      obtain ⟨c', hget, hgood⟩ := hg.getCellInfo hv
      simp only [step, sqlite3BtreeKeySize, hv] at h
      rw [hget] at h
      cases h
      exact hgood
    | CURSOR_REQUIRESEEK =>
      simp only [step, sqlite3BtreeKeySize, hv] at h
      cases h
    | CURSOR_FAULT => exact absurd hv hf
  | write t' depth' =>
    obtain ⟨c', hsave, hgood⟩ := hg.write hallowed hmeets
    refine ⟨trivial, fun res s' h => ?_⟩
    rw [step, hsave] at h
    cases h
    exact hgood
  | trip errCode =>
    refine ⟨trivial, fun res s' h => ?_⟩
    cases h
    exact hg.trip errCode

theorem Good.run (hg : Good root intKey s₀) (hrun : Run root intKey s₀ s) : Good root intKey s := by
  induction hrun with
  | start => exact hg
  | @step s s' call res _ hallowed hmeets hstep ih =>
    by_cases hf : s.cur.eState = CURSOR_FAULT
    · rcases step_fault call hf with ⟨f, herror⟩ | ⟨t', depth', rfl⟩ | ⟨errCode, rfl⟩
      · rw [herror] at hstep
        cases hstep
      · obtain ⟨c', hsave, hgood⟩ := ih.write hallowed hmeets
        rw [BtreeCursor.step, hsave] at hstep
        cases hstep
        exact hgood
      · cases hstep
        exact ih.trip errCode
    · exact (ih.right_step call hf hallowed hmeets).2 res s' hstep

/-- A forward scan that begins in `s₀`, with the entries it has come to, while other cursors delete
some of these. -/
inductive Scan (root : ℕ) (intKey : Bool) (s₀ : Client K) : List K → Client K → Prop
  | first {s : Client K} {res : Option ℤ} : step s₀ .first = pure (res, s) →
      Scan root intKey s₀ s.pos.toList s
  | next {seen : List K} {s s' : Client K} {res : Option ℤ} : Scan root intKey s₀ seen s →
      s.pos ≠ none → step s .next = pure (res, s') →
      Scan root intKey s₀ (seen ++ s'.pos.toList) s'
  | look {seen : List K} {s s' : Client K} {call : Call K} {res : Option ℤ} :
      Scan root intKey s₀ seen s → call = .hasMoved ∨ call = .data ∨ call = .keySize →
      step s call = pure (res, s') → Scan root intKey s₀ seen s'
  | delete {seen : List K} {s s' : Client K} {t' : BtShared K} {depth' : ℕ} {res : Option ℤ} :
      Scan root intKey s₀ seen s → WellFormed t' root intKey depth' →
      Meets s (.write t' depth') →
      (∀ y ∈ allEntries t' root depth', y ∈ allEntries s.t root s.depth) →
      (∀ y ∈ allEntries s.t root s.depth, y ∉ allEntries t' root depth' → y ∈ seen) →
      step s (.write t' depth') = pure (res, s') → Scan root intKey s₀ seen s'

/-- Where a scan of the entries `l` is: those after its own entry are still there. -/
def ScanAt (l : List K) (root : ℕ) (seen : List K) (s : Client K) : Prop :=
  match s.pos with
  | some k => seen ++ l.filter (k < ·) = l ∧
      (allEntries s.t root s.depth).filter (k < ·) = l.filter (k < ·)
  | none => seen = l

theorem filter_gt_of_isSucc {l : List K} (hsort : l.Pairwise (· < ·)) (hx : IsSucc l k (some x)) :
    l.filter (k < ·) = x :: l.filter (x < ·) := by
  obtain ⟨hmem, hkx, hleast⟩ := hx
  obtain ⟨l₁, l₂, rfl⟩ := List.append_of_mem hmem
  obtain ⟨-, hsort₂, hcross⟩ := List.pairwise_append.mp hsort
  obtain ⟨hpost, -⟩ := List.pairwise_cons.mp hsort₂
  have h₁ (y : K) (hy : y ∈ l₁) : ¬ k < y := fun hky =>
    absurd (hcross y hy x (by simp)) (not_lt_of_ge (hleast y (by simp [hy]) hky))
  have hk₁ : l₁.filter (k < ·) = [] := List.filter_eq_nil_iff.mpr (by simpa using h₁)
  have hx₁ : l₁.filter (x < ·) = [] := List.filter_eq_nil_iff.mpr fun y hy => by
    simpa using le_of_lt (hcross y hy x (by simp))
  have hk₂ : l₂.filter (k < ·) = l₂ := List.filter_eq_self.mpr fun y hy => by
    simpa using lt_trans hkx (hpost y hy)
  have hx₂ : l₂.filter (x < ·) = l₂ := List.filter_eq_self.mpr (by simpa using hpost)
  simp [List.filter_append, hk₁, hx₁, hk₂, hx₂, hkx]

theorem ScanAt.next {l seen : List K} (hsort : (allEntries s.t root s.depth).Pairwise (· < ·))
    (hat : ScanAt l root seen s) (hk : s.pos = some k)
    (hnext : IsSucc (allEntries s.t root s.depth) k s'.pos) (ht : s'.t = s.t)
    (hd : s'.depth = s.depth) : ScanAt l root (seen ++ s'.pos.toList) s' := by
  rw [ScanAt, hk] at hat
  obtain ⟨hseen, hrest⟩ := hat
  unfold ScanAt
  cases hpos : s'.pos with
  | none =>
    rw [hpos] at hnext
    have hnone : (allEntries s.t root s.depth).filter (k < ·) = [] :=
      List.filter_eq_nil_iff.mpr (by simpa [IsSucc] using hnext)
    simpa [← hrest, hnone] using hseen
  | some x =>
    rw [hpos] at hnext
    have hfilter := filter_gt_of_isSucc hsort hnext
    rw [hrest] at hfilter
    have hl : l.filter (x < ·) = (allEntries s.t root s.depth).filter (x < ·) := by
      have htwice : (l.filter (k < ·)).filter (x < ·) = l.filter (x < ·) := by
        rw [List.filter_filter]
        refine List.filter_congr fun y _ => ?_
        by_cases hxy : x < y <;> simp [hxy, lt_trans hnext.2.1]
      rw [← htwice, hfilter]
      simp
    refine ⟨?_, by rw [ht, hd, hl]⟩
    rw [hfilter] at hseen
    simpa [hl] using hseen

/-- Deleting entries that the scan has come to leaves the others. -/
theorem ScanAt.delete {l seen : List K} (hl : l.Pairwise (· < ·))
    (hsort : (allEntries s.t root s.depth).Pairwise (· < ·))
    (hsort' : (allEntries s'.t root s'.depth).Pairwise (· < ·)) (hat : ScanAt l root seen s)
    (hpos : s'.pos = s.pos)
    (hsub : ∀ y ∈ allEntries s'.t root s'.depth, y ∈ allEntries s.t root s.depth)
    (hgone : ∀ y ∈ allEntries s.t root s.depth, y ∉ allEntries s'.t root s'.depth → y ∈ seen) :
    ScanAt l root seen s' := by
  unfold ScanAt at hat ⊢
  rw [hpos]
  cases hk : s.pos with
  | none => simpa [hk] using hat
  | some k =>
    rw [hk] at hat
    obtain ⟨hseen, hrest⟩ := hat
    refine ⟨hseen, ?_⟩
    rw [← hrest]
    refine (hsort'.filter _).eq_of_mem_iff (hsort.filter _) fun y => ?_
    rw [List.mem_filter, List.mem_filter, decide_eq_true_iff]
    refine ⟨fun ⟨hy, hky⟩ => ⟨hsub y hy, hky⟩, fun ⟨hy, hky⟩ => ⟨?_, hky⟩⟩
    by_contra hno
    have hin := hgone y hy hno
    have hafter : y ∈ l.filter (k < ·) := by
      rw [← hrest]
      simp [hy, hky]
    -- an entry does not come twice in an ascending list
    rw [← hseen] at hl
    exact lt_irrefl y ((List.pairwise_append.mp hl).2.2 y hin y hafter)

theorem bind_eq_pure {α β : Type} {m : Except Failure α} {f : α → Except Failure β} {b : β}
    (h : (m >>= f) = pure b) : ∃ a, m = pure a ∧ f a = pure b := by
  cases m with
  | error e => cases h
  | ok a => exact ⟨a, rfl, h⟩

/-- Only a write changes the tree, and reading does not move the cursor. -/
theorem step_tree (hstep : step s call = pure (res, s')) (hw : ∀ t' depth', call ≠ .write t' depth') :
    s'.t = s.t ∧ s'.depth = s.depth ∧
      (call = .hasMoved ∨ call = .data ∨ call = .keySize → s'.pos = s.pos) := by
  cases call with
  | write t' depth' => exact absurd rfl (hw t' depth')
  | trip errCode =>
    cases hstep
    exact ⟨rfl, rfl, by simp⟩
  | data =>
    obtain ⟨c, -, h⟩ := bind_eq_pure hstep
    cases h
    exact ⟨rfl, rfl, fun _ => rfl⟩
  | keySize =>
    obtain ⟨c, -, h⟩ := bind_eq_pure hstep
    cases h
    exact ⟨rfl, rfl, fun _ => rfl⟩
  | hasMoved =>
    obtain ⟨⟨moved, c⟩, -, h⟩ := bind_eq_pure hstep
    cases h
    exact ⟨rfl, rfl, fun _ => rfl⟩
  | _ =>
    obtain ⟨⟨res, c⟩, -, h⟩ := bind_eq_pure hstep
    cases h
    exact ⟨rfl, rfl, by simp⟩

theorem not_fault (hstep : step s call = pure (res, s')) (hw : ∀ t' depth', call ≠ .write t' depth')
    (ht : ∀ errCode, call ≠ .trip errCode) : s.cur.eState ≠ CURSOR_FAULT := by
  intro hf
  rcases step_fault call hf with ⟨f, herror⟩ | ⟨t', depth', heq⟩ | ⟨errCode, heq⟩
  · rw [herror] at hstep
    cases hstep
  · exact hw t' depth' heq
  · exact ht errCode heq

/-- What a scan keeps up from its start on. -/
theorem Good.scan (hg : Good root intKey s₀) (hf : s₀.cur.eState ≠ CURSOR_FAULT)
    (hskip : s₀.cur.skipNext = 0) {seen : List K} (hscan : Scan root intKey s₀ seen s) :
    Good root intKey s ∧ ScanAt (allEntries s₀.t root s₀.depth) root seen s := by
  have hsort₀ := hg.tree.sorted
  induction hscan with
  | @first s res hstep =>
    obtain ⟨⟨res', s', hstep', -, hpos⟩, hgood⟩ :=
      hg.right_step .first hf trivial fun _ => hskip
    rw [hstep] at hstep'
    cases hstep'
    refine ⟨hgood _ _ hstep, ?_⟩
    obtain ⟨ht, hd, -⟩ := step_tree hstep (by simp)
    unfold ScanAt
    cases hall : allEntries s₀.t root s₀.depth with
    | nil =>
      rw [hall, List.head?_nil] at hpos
      simp [hpos]
    | cons x l =>
      rw [hall, List.head?_cons] at hpos
      rw [hall] at hsort₀
      obtain ⟨hx, -⟩ := List.pairwise_cons.mp hsort₀
      have hfilter : l.filter (x < ·) = l := List.filter_eq_self.mpr (by simpa using hx)
      simp [hpos, ht, hd, hall, hfilter]
  | @next seen s s' res _ hne hstep ih =>
    obtain ⟨hgs, hat⟩ := ih
    have hfs := not_fault hstep (by simp) (by simp)
    obtain ⟨⟨res', s'', hstep', -, -, hright⟩, hgood⟩ :=
      hgs.right_step .next hfs trivial trivial
    rw [hstep] at hstep'
    cases hstep'
    obtain ⟨k, hk⟩ := Option.ne_none_iff_exists'.mp hne
    rw [hk] at hright
    obtain ⟨ht, hd, -⟩ := step_tree hstep (by simp)
    exact ⟨hgood _ _ hstep, hat.next hgs.tree.sorted hk hright ht hd⟩
  | @look seen s s' call res _ hcall hstep ih =>
    obtain ⟨hgs, hat⟩ := ih
    have hfs : s.cur.eState ≠ CURSOR_FAULT := by
      rcases hcall with rfl | rfl | rfl <;> exact not_fault hstep (by simp) (by simp)
    have hgood : Good root intKey s' := by
      rcases hcall with rfl | rfl | rfl
      · exact (hgs.right_step .hasMoved hfs trivial trivial).2 res s' hstep
      · exact (hgs.right_step .data hfs trivial trivial).2 res s' hstep
      · exact (hgs.right_step .keySize hfs trivial trivial).2 res s' hstep
    obtain ⟨ht, hd, hpos⟩ := step_tree hstep (by rcases hcall with rfl | rfl | rfl <;> simp)
    refine ⟨hgood, ?_⟩
    unfold ScanAt at hat ⊢
    rwa [hpos hcall, ht, hd]
  | @delete seen s s' t' depth' res _ ht hmeets hsub hgone hstep ih =>
    obtain ⟨hgs, hat⟩ := ih
    obtain ⟨c', hsave, hgood⟩ := hgs.write ht hmeets
    rw [step, hsave] at hstep
    cases hstep
    exact ⟨hgood, hat.delete hsort₀ hgs.tree.sorted ht.sorted rfl hsub hgone⟩

/-- In every run whose calls meet the condition a step goes to the entry that is next to the last
one, or to the key that was saved of it, and a forward scan comes to each entry once. -/
theorem cursor_sound (hw : WellFormed t root intKey depth)
    (hrun : Run root intKey (openCursor t root intKey depth) s) :
    (s.cur.eState ≠ CURSOR_FAULT → ∀ call, Allowed root intKey call → Meets s call →
      Right root s call) ∧
    (s.cur.eState = CURSOR_REQUIRESEEK → s.cur.savedKey = s.pos) ∧
    (s.cur.eState ≠ CURSOR_FAULT → s.cur.skipNext = 0 → ∀ seen s', Scan root intKey s seen s' →
      s'.pos = none → seen = allEntries s.t root s.depth) := by
  have hg := (good_open hw).run hrun
  refine ⟨fun hf call hallowed hmeets => (hg.right_step call hf hallowed hmeets).1, fun hv => ?_,
    fun hf hskip seen s' hscan hpos => ?_⟩
  · obtain ⟨-, k, hsaved, hpos⟩ := hg.saved hv
    rw [hsaved, hpos]
  · obtain ⟨-, hat⟩ := hg.scan hf hskip hscan
    simpa [ScanAt, hpos] using hat

/-- A table with the rows of a single page, which is page 2. -/
def tableOf (rows : List ℤ) : BtShared ℤ :=
  ⟨fun pgno => if pgno = 2 then some ⟨true, true, rows.map (Cell.mk 0), 0⟩ else none⟩

theorem tableOf_wellFormed {rows : List ℤ} (hrows : rows.Pairwise (· < ·)) :
    WellFormed (tableOf rows) 2 true 0 := by
  refine ⟨rfl, fun _ => ⟨_, rfl, rfl, rfl, ?_⟩, ?_, by decide⟩
  · simpa [keysOf, Function.comp_def] using hrows
  · simp [pageAt, tableOf]

/-- The row under a cursor is deleted. -/
theorem cursor_sound_row : ∃ s, Run 2 true (openCursor (tableOf [1, 3, 5]) 2 true 0) s ∧
    s.pos = some 3 ∧ allEntries s.t 2 s.depth = [1, 5] ∧ Right 2 s .next := by
  have h₁ : Run 2 true (openCursor (tableOf [1, 3, 5]) 2 true 0) _ :=
    .step (.start) (show Allowed 2 true (.moveto (.rowid 3) false) from rfl) (fun _ => rfl) rfl
  have h₂ : Run 2 true (openCursor (tableOf [1, 3, 5]) 2 true 0) _ :=
    .step h₁ (show Allowed 2 true (.write (tableOf [1, 5]) 0) from
      tableOf_wellFormed (by decide)) (fun _ => rfl) rfl
  exact ⟨_, h₂, rfl, rfl,
    (cursor_sound (tableOf_wellFormed (by decide)) h₂).1 (by decide) .next trivial trivial⟩

/-- A row is deleted under a cursor, which is restored beside it and then put on the first row: the
next step stays there. -/
theorem cursor_skips : ∃ s₁ s₂ s₃ s₄ s₅ : Client ℤ,
    step (openCursor (tableOf [1, 3, 5]) 2 true 0) (.moveto (.rowid 3) false) = pure (some 0, s₁) ∧
    step s₁ (.write (tableOf [1, 5]) 0) = pure (none, s₂) ∧ step s₂ .hasMoved = pure (none, s₃) ∧
    step s₃ .first = pure (some 0, s₄) ∧ s₄.pos = some 1 ∧
    step s₄ .next = pure (some 0, s₅) ∧ s₅.pos = some 1 := by
  exact ⟨_, _, _, _, _, rfl, rfl, rfl, rfl, rfl, rfl, rfl⟩

end Sqlite.BtreeCursor

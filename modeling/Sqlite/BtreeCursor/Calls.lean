import Sqlite.BtreeCursor.Run

/-! What each call does to a cursor that stands for an entry. -/
namespace Sqlite.BtreeCursor

open CursorState

variable {K : Type} [LinearOrder K] {t : BtShared K} {root depth n : ℕ} {intKey : Bool}
  {s : Client K} {c c' : BtCursor K} {pre post : List K} {x k : K} {f : K → ℤ}

theorem isSucc_append {l₁ l₂ : List K} (hsort : (l₁ ++ l₂).Pairwise (· < ·))
    (h₁ : ∀ y ∈ l₁, ¬ k < y) (h₂ : ∀ y ∈ l₂, k < y) : IsSucc (l₁ ++ l₂) k l₂.head? := by
  cases l₂ with
  | nil => simpa [IsSucc] using h₁
  | cons x l₂ =>
    have hx := List.pairwise_cons.mp (List.pairwise_append.mp hsort).2.1
    refine ⟨by simp, h₂ x (by simp), fun y hy hky => ?_⟩
    rcases List.mem_append.mp hy with hy | hy
    · exact absurd hky (h₁ y hy)
    · rcases List.mem_cons.mp hy with rfl | hy
      · exact le_of_eq rfl
      · exact le_of_lt (hx.1 y hy)

theorem isPred_append {l₁ l₂ : List K} (hsort : (l₁ ++ l₂).Pairwise (· < ·))
    (h₁ : ∀ y ∈ l₁, y < k) (h₂ : ∀ y ∈ l₂, ¬ y < k) : IsPred (l₁ ++ l₂) k l₁.getLast? := by
  rcases List.eq_nil_or_concat l₁ with rfl | ⟨l₁, x, rfl⟩
  · simpa [IsPred] using h₂
  · rw [List.concat_eq_append] at *
    have hx := (List.pairwise_append.mp (List.pairwise_append.mp hsort).1).2.2
    rw [List.getLast?_concat]
    refine ⟨by simp, h₁ x (by simp), fun y hy hyk => ?_⟩
    rcases List.mem_append.mp hy with hy | hy
    · rcases List.mem_append.mp hy with hy | hy
      · exact le_of_lt (hx y hy x (by simp))
      · exact le_of_eq (List.mem_singleton.mp hy)
    · exact absurd hyk (h₂ y hy)

theorem At.root_ne_zero (hw : WellFormed t root intKey depth) {stack : List (ℕ × ℕ)}
    (hat : At t root depth stack pre x post) : root ≠ 0 := by
  intro h0
  have hsplit := hat.split hw
  simp [allEntries, h0] at hsplit

/-- A call that has left the cursor at an entry, or has found none. -/
theorem Good.moved (hg : Good root intKey s) (hroot : c'.pgnoRoot = s.cur.pgnoRoot)
    (hkind : c'.intKey = s.cur.intKey) (hskip : c'.skipNext = 0)
    (hcase : (c'.eState = CURSOR_INVALID ∧ (root = 0 → c'.stack = [])) ∨
      (c'.eState = CURSOR_VALID ∧ ∃ pre x post, Placed s.t root s.depth c' pre x post)) :
    Good root intKey (s.moved c') := by
  rcases hcase with ⟨hv, hstack⟩ | ⟨hv, pre, x, post, hat, hkey, hlast⟩
  · refine ⟨hg.tree, hroot.trans hg.pgnoRoot, hkind.trans hg.kind, hstack, ?_, ?_, ?_⟩
    · intro h
      simp [Client.moved, hv] at h
    · intro h
      simp [Client.moved, hv] at h
    · exact fun _ => .inl (entryOf_invalid hv)
  · refine ⟨hg.tree, hroot.trans hg.pgnoRoot, hkind.trans hg.kind,
      fun h0 => absurd h0 (hat.root_ne_zero hg.tree), fun _ => ⟨pre, x, post, ⟨hat, hkey, hlast⟩, ?_⟩,
      ?_, ?_⟩
    · exact .inl ⟨hskip, hat.entryOf rfl hv⟩
    · intro h
      simp [Client.moved, hv] at h
    · intro h
      simp [Client.moved, hv] at h

theorem first_eq (hw : WellFormed t root intKey depth) (hroot : c.pgnoRoot = root)
    (hkind : c.intKey = intKey) (hstack : root = 0 → c.stack = []) (hf : c.eState ≠ CURSOR_FAULT) :
    ∃ res c', sqlite3BtreeFirst t c = pure (res, c') ∧ Kept c c' ∧
      ((allEntries t root depth = [] ∧ res = 1 ∧ c'.eState = CURSOR_INVALID ∧
          (root = 0 → c'.stack = [])) ∨
        (res = 0 ∧ c'.eState = CURSOR_VALID ∧ ∃ x post, Placed t root depth c' [] x post)) := by
  obtain ⟨c₁, hmove, hkept, hcase⟩ := moveToRoot_eq hw hroot hkind hstack hf
  rcases hcase with ⟨hall, hv, hst⟩ | ⟨h, pgno, parents, ha, hpos, hall, hst, hclean, hv, hlast⟩
  · refine ⟨1, c₁, ?_, hkept, .inl ⟨hall, rfl, hv, hst⟩⟩
    rw [sqlite3BtreeFirst, hmove, pure_bind, if_pos hv]
  · obtain ⟨-, -, hlen, -⟩ := ha.facts hw
    have hdepth := hw.bounded
    obtain ⟨stack, x, rest, hleft, hat, -⟩ :=
      moveToLeftmost_eq (n := BTCURSOR_MAX_DEPTH) hw ha hpos hst hclean (by omega)
    refine ⟨0, { c₁ with stack := stack }, ?_, ⟨hkept.pgnoRoot, hkept.intKey, hkept.skipNext⟩,
      .inr ⟨rfl, hv, x, rest, hat, ?_, ?_⟩⟩
    · rw [sqlite3BtreeFirst, hmove, pure_bind, if_neg (by simp [hv]), hleft, pure_bind]
    · rw [← hclean]
      simp [BtCursor.forget]
    · simp [hlast]

theorem last_eq (hw : WellFormed t root intKey depth) (hroot : c.pgnoRoot = root)
    (hkind : c.intKey = intKey) (hstack : root = 0 → c.stack = []) (hf : c.eState ≠ CURSOR_FAULT)
    (hvalid : c.eState = CURSOR_VALID → c.validNKey = true ∨ c.atLast = true →
      ∃ pre x post, Placed t root depth c pre x post) :
    ∃ res c', sqlite3BtreeLast t c = pure (res, c') ∧ Kept c c' ∧
      ((allEntries t root depth = [] ∧ res = some 1 ∧ c'.eState = CURSOR_INVALID ∧
          (root = 0 → c'.stack = [])) ∨
        (res ≠ some 1 ∧ c'.eState = CURSOR_VALID ∧ ∃ pre x, Placed t root depth c' pre x [])) := by
  by_cases hthere : c.eState = CURSOR_VALID ∧ c.atLast = true
  · obtain ⟨pre, x, post, hat, hkey, hlast⟩ := hvalid hthere.1 (.inr hthere.2)
    obtain rfl := hlast hthere.2
    refine ⟨none, c, ?_, ⟨rfl, rfl, rfl⟩, .inr ⟨by simp, hthere.1, pre, x, hat, hkey, hlast⟩⟩
    rw [sqlite3BtreeLast, if_pos hthere]
  obtain ⟨c₁, hmove, hkept, hcase⟩ := moveToRoot_eq hw hroot hkind hstack hf
  rcases hcase with ⟨hall, hv, hst⟩ | ⟨h, pgno, parents, ha, hpos, hall, hst, hclean, hv, -⟩
  · refine ⟨some 1, c₁, ?_, hkept, .inl ⟨hall, rfl, hv, hst⟩⟩
    rw [sqlite3BtreeLast, if_neg hthere, hmove, pure_bind, if_pos hv]
  · obtain ⟨-, -, hlen, -⟩ := ha.facts hw
    have hdepth := hw.bounded
    obtain ⟨stack, x, rest, hright, hat, -⟩ :=
      moveToRightmost_eq (n := BTCURSOR_MAX_DEPTH) hw ha (fun _ => hpos) hst (by omega)
    refine ⟨some 0, { c₁.forget with stack := stack, atLast := true }, ?_,
      ⟨hkept.pgnoRoot, hkept.intKey, hkept.skipNext⟩,
      .inr ⟨by simp, hv, rest, x, hat, by simp [BtCursor.forget], fun _ => rfl⟩⟩
    rw [sqlite3BtreeLast, if_neg hthere, hmove, pure_bind, if_neg (by simp [hv]), hright, pure_bind]

/-- The result that is known without a search is the right one. -/
theorem cachedCompare_eq (hvalid : c.eState = CURSOR_VALID → c.validNKey = true ∨ c.atLast = true →
      ∃ pre x post, Placed t root depth c pre x post)
    {key : SearchKey K} {res : ℤ} (hcached : cachedCompare c key = some res) :
    c.eState = CURSOR_VALID ∧ ∃ pre x post, Placed t root depth c pre x post ∧
      res = key.compare x ∧ res ≤ 0 ∧ (res < 0 → post = []) := by
  cases key with
  | record f => simp [cachedCompare] at hcached
  | rowid key =>
    by_cases hif : c.eState = CURSOR_VALID ∧ c.validNKey = true ∧ c.intKey = true
    · obtain ⟨pre, x, post, hat, hkey, hlast⟩ := hvalid hif.1 (.inl hif.2.1)
      rw [cachedCompare, if_pos hif, hkey (.inr hif.2.1)] at hcached
      simp only at hcached
      refine ⟨hif.1, pre, x, post, ⟨hat, hkey, hlast⟩, ?_⟩
      by_cases hx : x = key
      · rw [if_pos hx] at hcached
        cases hcached
        exact ⟨(keyCompare_eq_zero.mpr hx).symm, le_refl 0, fun h => absurd h (lt_irrefl 0)⟩
      · rw [if_neg hx] at hcached
        by_cases hend : c.atLast = true ∧ x < key
        · rw [if_pos hend] at hcached
          cases hcached
          refine ⟨?_, by decide, fun _ => hlast hend.1⟩
          simp [SearchKey.compare, keyCompare, hx, hend.2]
        · simp [hend] at hcached
    · simp [cachedCompare, hif] at hcached

/-- A search leaves the cursor at an entry, beside the place of the key. -/
theorem moveto_eq (hw : WellFormed t root intKey depth) (hroot : c.pgnoRoot = root)
    (hkind : c.intKey = intKey) (hstack : root = 0 → c.stack = []) (hf : c.eState ≠ CURSOR_FAULT)
    (hvalid : c.eState = CURSOR_VALID → c.validNKey = true ∨ c.atLast = true →
      ∃ pre x post, Placed t root depth c pre x post)
    (key : SearchKey K) (bias : Bool) :
    ∃ res c', sqlite3BtreeMovetoUnpacked t c key bias = pure (res, c') ∧ Kept c c' ∧
      ((allEntries t root depth = [] ∧ res = -1 ∧ c'.eState = CURSOR_INVALID ∧
          (root = 0 → c'.stack = [])) ∨
        (c'.eState = CURSOR_VALID ∧ ∃ pre x post, Placed t root depth c' pre x post ∧
          res = key.compare x ∧ (0 < res → c'.atLast = false) ∧
          ∀ g, Compares t root depth key.compare g → Follows g → (intKey = true → Sharp g) →
            (0 < g x → ∀ y ∈ pre, g y < 0) ∧ (g x < 0 → ∀ y ∈ post, 0 < g y))) := by
  cases hcached : cachedCompare c key with
  | some res =>
    obtain ⟨hv, pre, x, post, hplaced, hres, hle, hlast⟩ := cachedCompare_eq hvalid hcached
    refine ⟨res, c, ?_, ⟨rfl, rfl, rfl⟩,
      .inr ⟨hv, pre, x, post, hplaced, hres, fun hlt => by omega, fun g hfg _ _ => ?_⟩⟩
    · simp only [sqlite3BtreeMovetoUnpacked, hcached]
    · have hgx := hplaced.1.compare_eq hfg
      refine ⟨fun hlt => by omega, fun hlt => ?_⟩
      rw [hlast (by omega)]
      simp
  | none =>
    obtain ⟨c₁, hmove, hkept, hcase⟩ := moveToRoot_eq hw hroot hkind hstack hf
    rcases hcase with ⟨hall, hv, hst⟩ | ⟨h, pgno, parents, ha, hpos, hall, hst, hclean, hv, hlast⟩
    · refine ⟨-1, c₁, ?_, hkept, .inl ⟨hall, rfl, hv, hst⟩⟩
      simp only [sqlite3BtreeMovetoUnpacked, hcached]
      rw [hmove, pure_bind, if_pos hv]
    · obtain ⟨-, -, hlen, -⟩ := ha.facts hw
      have hdepth := hw.bounded
      obtain ⟨c₂, pre, x, post, hloop, ⟨stack, validNKey, nKey, hat, hkey, rfl⟩, hside⟩ :=
        movetoLoop_eq (n := BTCURSOR_MAX_DEPTH) hw ha hpos hst hclean (by omega) key bias
      refine ⟨key.compare x,
        { c₁ with stack := stack, parsed := false, validNKey := validNKey, nKey := nKey }, ?_,
        ⟨hkept.pgnoRoot, hkept.intKey, hkept.skipNext⟩,
        .inr ⟨hv, pre, x, post, ⟨hat, ?_, ?_⟩, rfl, fun _ => hlast, fun g hfg hg hsharp =>
          hside g hfg hg hsharp (by simp) (by simp)⟩⟩
      · simp only [sqlite3BtreeMovetoUnpacked, hcached]
        rw [hmove, pure_bind, if_neg (by simp [hv]), hloop]
      · simpa using hkey
      · simp [hlast]

/-- After a search for a key itself no entry lies between the key and the cursor. -/
theorem keyCompare_sides (hcompare : f = keyCompare k)
    (hside : ∀ g, Compares t root depth f g → Follows g → (intKey = true → Sharp g) →
      (0 < g x → ∀ y ∈ pre, g y < 0) ∧ (g x < 0 → ∀ y ∈ post, 0 < g y)) :
    (k < x → ∀ y ∈ pre, y < k) ∧ (x < k → ∀ y ∈ post, k < y) := by
  have hsharp := sharp_keyCompare k
  obtain ⟨hgt, hlt⟩ := hside (keyCompare k) (fun _ _ _ _ _ _ _ _ => by rw [hcompare]) hsharp.follows
    fun _ => hsharp
  exact ⟨fun h y hy => keyCompare_neg.mp (hgt (keyCompare_pos.mpr h) y hy),
    fun h y hy => keyCompare_pos.mp (hlt (keyCompare_neg.mpr h) y hy)⟩

theorem getCellInfo_eq (hw : WellFormed t root intKey depth)
    (hp : Placed t root depth c pre x post) : ∃ parsed validNKey,
      getCellInfo t c =
        pure { c with parsed := parsed, validNKey := validNKey, nKey := some x } := by
  obtain ⟨hat, hkey, -⟩ := hp
  unfold getCellInfo
  by_cases hparsed : c.parsed = true
  · refine ⟨c.parsed, c.validNKey, ?_⟩
    rw [if_pos hparsed, ← hkey (.inl hparsed)]
  · refine ⟨true, true, ?_⟩
    rw [if_neg hparsed]
    generalize hstack : c.stack = stack at hat
    cases hat with
    | @leaf pgno parents pre post l₁ l₂ x hup hkeys =>
      have hlen : l₁.length < (pageAt t pgno).nCell := by
        rw [← keysOf_length, hkeys]
        simp
      obtain ⟨cell, hcell, -, hget⟩ := findCell_eq hlen
      have hx : cell.key = x := by simpa [hkeys] using hget.symm
      have hidx : c.idx = l₁.length := by simp [BtCursor.idx, hstack]
      rw [hup.page hw hstack, pure_bind, hidx, hcell, pure_bind, hx]
    | @interior h pgno parents pre post i x hup hkind hx =>
      obtain ⟨hi, -⟩ := List.getElem?_eq_some_iff.mp hx
      rw [keysOf_length] at hi
      obtain ⟨cell, hcell, -, hget⟩ := findCell_eq hi
      have hx : cell.key = x := Option.some_inj.mp (hget.symm.trans hx)
      have hidx : c.idx = i := by simp [BtCursor.idx, hstack]
      rw [hup.page hw hstack, pure_bind, hidx, hcell, pure_bind, hx]

/-- Reading the cell at a cursor does not move it. -/
theorem Good.getCellInfo (hg : Good root intKey s) (hv : s.cur.eState = CURSOR_VALID) :
    ∃ c', BtreeCursor.getCellInfo s.t s.cur = pure c' ∧ Good root intKey (s.kept c') := by
  obtain ⟨pre, x, post, hp, hstands⟩ := hg.valid hv
  obtain ⟨parsed, validNKey, hget⟩ := getCellInfo_eq hg.tree hp
  refine ⟨_, hget, hg.tree, hg.pgnoRoot, hg.kind, hg.stack,
    fun _ => ⟨pre, x, post, ⟨hp.1, fun _ => rfl, hp.2.2⟩, hstands⟩, ?_, ?_⟩
  · intro h
    simp [Client.kept, hv] at h
  · intro h
    simp [Client.kept, hv] at h

/-- Before another cursor writes, a valid cursor keeps the key of its entry. -/
theorem Good.saved_eq (hg : Good root intKey s) (hv : s.cur.eState = CURSOR_VALID)
    (hskip : s.cur.skipNext = 0) : ∃ c' k, saveCursorPosition s.t s.cur = pure c' ∧
      c'.pgnoRoot = root ∧ c'.intKey = intKey ∧ c'.stack = [] ∧
      c'.eState = CURSOR_REQUIRESEEK ∧ c'.savedKey = some k ∧ s.pos = some k := by
  obtain ⟨pre, x, post, hp, hstands⟩ := hg.valid hv
  obtain ⟨parsed, validNKey, hget⟩ := getCellInfo_eq hg.tree hp
  have hpos : s.pos = some x := by
    rcases hstands with ⟨-, hpos⟩ | ⟨hlt, -⟩ | ⟨hlt, -⟩
    · exact hpos
    · omega
    · omega
  let c' : BtCursor K := { s.cur with
    parsed := parsed, validNKey := validNKey, nKey := some x, savedKey := some x, stack := [],
    eState := CURSOR_REQUIRESEEK }
  refine ⟨c', x, ?_, hg.pgnoRoot, hg.kind, rfl, rfl, rfl, hpos⟩
  · simp only [saveCursorPosition, sqlite3BtreeKeySize, hv]
    rw [hget, pure_bind]

/-- Restoring a cursor puts it at its entry, or beside where that was. -/
theorem Good.restore (hg : Good root intKey s) (hf : s.cur.eState ≠ CURSOR_FAULT) :
    ∃ c', restoreCursorPosition s.t s.cur = pure c' ∧ Good root intKey (s.kept c') ∧
      (c'.eState = CURSOR_VALID ∨ c'.eState = CURSOR_INVALID) := by
  by_cases hseek : s.cur.eState = CURSOR_REQUIRESEEK
  · obtain ⟨hstack, k, hsaved, hpos⟩ := hg.saved hseek
    let key : SearchKey K := if s.cur.intKey then .rowid k else .record (keyCompare k)
    have hcompare : key.compare = keyCompare k := by
      unfold key
      split <;> rfl
    obtain ⟨res, c', hmove, hkept, hcase⟩ :=
      moveto_eq (c := { s.cur with eState := CURSOR_INVALID }) hg.tree hg.pgnoRoot hg.kind hg.stack
        (by simp) (by simp) key false
    let c₁ : BtCursor K := { c' with skipNext := res, savedKey := none }
    have hrun : restoreCursorPosition s.t s.cur = pure c₁ := by
      rw [restoreCursorPosition, if_pos (.inl hseek), btreeRestoreCursorPosition, if_neg hf]
      simp only [hsaved] at hmove ⊢
      rw [hmove, pure_bind]
    refine ⟨c₁, hrun, ?_⟩
    rcases hcase with ⟨hall, hres, hv, hst⟩ | ⟨hv, pre, x, post, hp, hres, -, hside⟩
    · refine ⟨⟨hg.tree, hkept.pgnoRoot.trans hg.pgnoRoot, hkept.intKey.trans hg.kind, hst, ?_, ?_,
        fun _ => .inr ⟨?_, hall⟩⟩, .inr hv⟩
      · intro h
        simp [Client.kept, c₁, hv] at h
      · intro h
        simp [Client.kept, c₁, hv] at h
      · simp [Client.kept, c₁, hres]
    · refine ⟨⟨hg.tree, hkept.pgnoRoot.trans hg.pgnoRoot, hkept.intKey.trans hg.kind,
        fun h0 => absurd h0 (hp.1.root_ne_zero hg.tree), fun _ => ⟨pre, x, post, hp, ?_⟩, ?_, ?_⟩,
        .inl hv⟩
      · rw [hcompare] at hres
        obtain ⟨hgt, hlt⟩ := keyCompare_sides hcompare hside
        change Stands res s.pos pre x post
        rcases lt_trichotomy x k with hxk | hxk | hxk
        · exact .inr (.inr ⟨hres ▸ keyCompare_neg.mpr hxk, k, hpos, hxk, hlt hxk⟩)
        · exact .inl ⟨hres.trans (keyCompare_eq_zero.mpr hxk), hxk ▸ hpos⟩
        · refine .inr (.inl ⟨?_, k, hpos, hxk, hgt hxk⟩)
          have hne : keyCompare k x ≠ 0 := fun h0 => ne_of_gt hxk (keyCompare_eq_zero.mp h0)
          have hnn : ¬ keyCompare k x < 0 := fun h0 => lt_asymm hxk (keyCompare_neg.mp h0)
          omega
      · intro h
        simp [Client.kept, c₁, hv] at h
      · intro h
        simp [Client.kept, c₁, hv] at h
  · refine ⟨s.cur, by simp [restoreCursorPosition, hseek, hf], hg, ?_⟩
    cases hv : s.cur.eState <;> simp_all

theorem restoreCursorPosition_stable
    (hv : c.eState = CURSOR_VALID ∨ c.eState = CURSOR_INVALID) :
    restoreCursorPosition t c = pure c := by
  rcases hv with hv | hv <;> simp [restoreCursorPosition, hv]

/-- What a step of a cursor comes to: it is at the entry that it should be at, or there is none. -/
def Steps (root : ℕ) (intKey : Bool) (s : Client K) (right : List K → K → Option K → Prop)
    (res : ℤ) (c' : BtCursor K) : Prop :=
  Good root intKey (s.moved c') ∧
    ((res = 1 ∧ c'.eState = CURSOR_INVALID) ∨ (res = 0 ∧ c'.eState = CURSOR_VALID)) ∧
    (s.pos = none → res = 1) ∧
    ∀ k, s.pos = some k → right (allEntries s.t root s.depth) k (entryOf s.t c')

/-- A step of a cursor that is past the entries, or has none to go to. -/
theorem Good.steps_invalid (hg : Good root intKey s) (hv : s.cur.eState = CURSOR_INVALID)
    (hroot : c.pgnoRoot = s.cur.pgnoRoot) (hkind : c.intKey = s.cur.intKey)
    (hstack : c.stack = s.cur.stack) (hc : c.eState = s.cur.eState)
    {right : List K → K → Option K → Prop} (hright : ∀ k, right [] k none) :
    Steps root intKey s right 1 c := by
  rw [hv] at hc
  refine ⟨⟨hg.tree, hroot.trans hg.pgnoRoot, hkind.trans hg.kind, fun h0 => ?_, ?_, ?_,
    fun _ => .inl (entryOf_invalid hc)⟩, .inl ⟨rfl, hc⟩, fun _ => rfl, fun k hk => ?_⟩
  · exact hstack.trans (hg.stack h0)
  · intro h
    simp [Client.moved, hc] at h
  · intro h
    simp [Client.moved, hc] at h
  · rw [entryOf_invalid hc]
    rcases hg.invalid hv with hnone | ⟨-, hall⟩
    · simp [hnone] at hk
    · rw [hall]
      exact hright k

/-- The key that a cursor stands for splits the entries before and after its own. -/
theorem Stands.sides (hsort : (pre ++ x :: post).Pairwise (· < ·)) {skipNext : ℤ} {pos : Option K}
    (hstands : Stands skipNext pos pre x post) (hpos : pos = some k) :
    (skipNext ≤ 0 → (∀ y ∈ pre ++ [x], ¬ k < y) ∧ ∀ y ∈ post, k < y) ∧
      (0 ≤ skipNext → (∀ y ∈ pre, y < k) ∧ ∀ y ∈ x :: post, ¬ y < k) := by
  obtain ⟨-, hsort₂, hcross⟩ := List.pairwise_append.mp hsort
  obtain ⟨hpost, -⟩ := List.pairwise_cons.mp hsort₂
  have hpre : ∀ y ∈ pre, y < x := fun y hy => hcross y hy x (by simp)
  rcases hstands with ⟨h0, heq⟩ | ⟨hlt, k', heq, hkx, hk⟩ | ⟨hlt, k', heq, hkx, hk⟩
  · obtain rfl : x = k := Option.some_inj.mp (heq.symm.trans hpos)
    refine ⟨fun _ => ⟨fun y hy => ?_, hpost⟩, fun _ => ⟨hpre, fun y hy => ?_⟩⟩
    · rcases List.mem_append.mp hy with hy | hy
      · exact lt_asymm (hpre y hy)
      · simp [List.mem_singleton.mp hy]
    · rcases List.mem_cons.mp hy with rfl | hy
      · exact lt_irrefl y
      · exact lt_asymm (hpost y hy)
  · obtain rfl : k' = k := Option.some_inj.mp (heq.symm.trans hpos)
    refine ⟨fun h => by omega, fun _ => ⟨hk, fun y hy => ?_⟩⟩
    rcases List.mem_cons.mp hy with rfl | hy
    · exact lt_asymm hkx
    · exact lt_asymm (lt_trans hkx (hpost y hy))
  · obtain rfl : k' = k := Option.some_inj.mp (heq.symm.trans hpos)
    refine ⟨fun _ => ⟨fun y hy => ?_, hk⟩, fun h => by omega⟩
    rcases List.mem_append.mp hy with hy | hy
    · exact lt_asymm (lt_trans (hpre y hy) hkx)
    · rw [List.mem_singleton.mp hy]
      exact lt_asymm hkx

/-- A cursor with `skipNext` set is beside the key it stands for, which is what it skips to. -/
theorem Stands.beside (hsort : (pre ++ x :: post).Pairwise (· < ·)) {skipNext : ℤ} {pos : Option K}
    (hstands : Stands skipNext pos pre x post) (hpos : pos = some k) :
    (0 < skipNext → IsSucc (pre ++ x :: post) k (some x)) ∧
      (skipNext < 0 → IsPred (pre ++ x :: post) k (some x)) := by
  obtain ⟨-, hsort₂, hcross⟩ := List.pairwise_append.mp hsort
  obtain ⟨hpost, -⟩ := List.pairwise_cons.mp hsort₂
  rcases hstands with ⟨h0, -⟩ | ⟨hlt, k', heq, hkx, hk⟩ | ⟨hlt, k', heq, hkx, hk⟩
  · exact ⟨fun h => by omega, fun h => by omega⟩
  · obtain rfl : k' = k := Option.some_inj.mp (heq.symm.trans hpos)
    refine ⟨fun _ => ?_, fun h => by omega⟩
    refine isSucc_append hsort (fun y hy => lt_asymm (hk y hy)) fun y hy => ?_
    rcases List.mem_cons.mp hy with rfl | hy
    · exact hkx
    · exact lt_trans hkx (hpost y hy)
  · obtain rfl : k' = k := Option.some_inj.mp (heq.symm.trans hpos)
    refine ⟨fun h => by omega, fun _ => ?_⟩
    have hassoc : pre ++ x :: post = (pre ++ [x]) ++ post := by simp
    have hlast : (pre ++ [x]).getLast? = some x := by simp
    rw [hassoc, ← hlast]
    refine isPred_append (hassoc ▸ hsort) (fun y hy => ?_) fun y hy => lt_asymm (hk y hy)
    rcases List.mem_append.mp hy with hy | hy
    · exact lt_trans (hcross y hy x (by simp)) hkx
    · rwa [List.mem_singleton.mp hy]

/-- A step of a valid cursor, which has come to an entry or past the entries. -/
theorem Good.steps_valid (hg : Good root intKey s) {c' : BtCursor K} {res : ℤ}
    {right : List K → K → Option K → Prop} {y : Option K}
    (hroot : c'.pgnoRoot = s.cur.pgnoRoot) (hkind : c'.intKey = s.cur.intKey)
    (hskip : c'.skipNext = 0) (hne : root ≠ 0) (hpos : s.pos ≠ none)
    (hcase : (res = 1 ∧ c'.eState = CURSOR_INVALID ∧ y = none) ∨
      (res = 0 ∧ c'.eState = CURSOR_VALID ∧ ∃ pre x post,
        Placed s.t root s.depth c' pre x post ∧ y = some x))
    (hright : ∀ k, s.pos = some k → right (allEntries s.t root s.depth) k y) :
    Steps root intKey s right res c' := by
  rcases hcase with ⟨hres, hv, rfl⟩ | ⟨hres, hv, pre, x, post, hp, rfl⟩
  · refine ⟨hg.moved hroot hkind hskip (.inl ⟨hv, fun h0 => absurd h0 hne⟩), .inl ⟨hres, hv⟩,
      fun h => absurd h hpos, fun k hk => ?_⟩
    rw [entryOf_invalid hv]
    exact hright k hk
  · refine ⟨hg.moved hroot hkind hskip (.inr ⟨hv, pre, x, post, hp⟩), .inr ⟨hres, hv⟩,
      fun h => absurd h hpos, fun k hk => ?_⟩
    rw [hp.1.entryOf rfl hv]
    exact hright k hk

theorem Good.next_restored (hg : Good root intKey s)
    (hstate : s.cur.eState = CURSOR_VALID ∨ s.cur.eState = CURSOR_INVALID) :
    ∃ res c', sqlite3BtreeNext s.t 2 s.cur = pure (res, c') ∧ Steps root intKey s IsSucc res c' := by
  have hstable := restoreCursorPosition_stable (t := s.t) hstate
  rcases hstate with hv | hv
  · obtain ⟨pre, x, post, hp, hstands⟩ := hg.valid hv
    have hsplit := hp.1.split hg.tree
    have hsort := hg.tree.sorted
    rw [hsplit] at hsort
    have hne := hp.1.root_ne_zero hg.tree
    have hpos : s.pos ≠ none := by
      rcases hstands with ⟨-, h⟩ | ⟨-, k, h, -⟩ | ⟨-, k, h, -⟩ <;> simp [h]
    by_cases hskip : s.cur.skipNext > 0
    · -- the cursor is at the entry that comes next already
      refine ⟨0, { s.cur with skipNext := 0 }, ?_, hg.steps_valid (y := some x) rfl rfl rfl hne hpos
        (.inr ⟨rfl, hv, pre, x, post, hp, rfl⟩) fun k hk => ?_⟩
      · rw [sqlite3BtreeNext, hstable, pure_bind, if_neg (by simp [hv]), if_pos hskip]
      · rw [hsplit]
        exact (hstands.beside hsort hk).1 hskip
    · have hskip' : s.cur.skipNext ≤ 0 := by omega
      have hsucc (k : K) (hk : s.pos = some k) :
          IsSucc (allEntries s.t root s.depth) k post.head? := by
        obtain ⟨h₁, h₂⟩ := (hstands.sides hsort hk).1 hskip'
        have hassoc : pre ++ x :: post = (pre ++ [x]) ++ post := by simp
        rw [hsplit, hassoc]
        exact isSucc_append (hassoc ▸ hsort) h₁ h₂
      rcases next_eq (n := 0) hg.tree hp.1 rfl hv hskip' with ⟨rfl, stack, hnext⟩ |
        ⟨y, rest, stack, rfl, hnext, hat⟩
      · exact ⟨_, _, hnext, hg.steps_valid (y := none) rfl rfl rfl hne hpos
          (.inl ⟨rfl, rfl, rfl⟩) hsucc⟩
      · refine ⟨_, _, hnext, hg.steps_valid (y := some y) rfl rfl rfl hne hpos
          (.inr ⟨rfl, hv, _, y, rest, ⟨hat, ?_, ?_⟩, rfl⟩) hsucc⟩
        · simp [BtCursor.forget]
        · intro hlast
          simpa using hp.2.2 hlast
  · refine ⟨1, s.cur, ?_, hg.steps_invalid hv rfl rfl rfl rfl (by simp [IsSucc])⟩
    rw [sqlite3BtreeNext, hstable, pure_bind, if_pos hv]

theorem Good.previous_restored (hg : Good root intKey s)
    (hstate : s.cur.eState = CURSOR_VALID ∨ s.cur.eState = CURSOR_INVALID) :
    ∃ res c', sqlite3BtreePrevious s.t 2 s.cur = pure (res, c') ∧
      Steps root intKey s IsPred res c' := by
  have hstable := restoreCursorPosition_stable (t := s.t) hstate
  rcases hstate with hv | hv
  · obtain ⟨pre, x, post, hp, hstands⟩ := hg.valid hv
    have hsplit := hp.1.split hg.tree
    have hsort := hg.tree.sorted
    rw [hsplit] at hsort
    have hne := hp.1.root_ne_zero hg.tree
    have hpos : s.pos ≠ none := by
      rcases hstands with ⟨-, h⟩ | ⟨-, k, h, -⟩ | ⟨-, k, h, -⟩ <;> simp [h]
    by_cases hskip : s.cur.skipNext < 0
    · refine ⟨0, { s.cur with atLast := false, skipNext := 0 }, ?_,
        hg.steps_valid (y := some x) rfl rfl rfl hne hpos
          (.inr ⟨rfl, hv, pre, x, post, ⟨hp.1, hp.2.1, by simp⟩, rfl⟩) fun k hk => ?_⟩
      · rw [sqlite3BtreePrevious, hstable, pure_bind]
        simp [hv, hskip]
      · rw [hsplit]
        exact (hstands.beside hsort hk).2 hskip
    · have hskip' : 0 ≤ s.cur.skipNext := by omega
      have hpred (k : K) (hk : s.pos = some k) :
          IsPred (allEntries s.t root s.depth) k pre.getLast? := by
        obtain ⟨h₁, h₂⟩ := (hstands.sides hsort hk).2 hskip'
        rw [hsplit]
        exact isPred_append hsort h₁ h₂
      rcases previous_eq (n := 0) hg.tree hp.1 rfl hv hskip' with ⟨rfl, stack, hprev⟩ |
        ⟨y, rest, stack, rfl, hprev, hat⟩
      · exact ⟨_, _, hprev, hg.steps_valid (y := none) rfl rfl rfl hne hpos
          (.inl ⟨rfl, rfl, rfl⟩) hpred⟩
      · rw [List.getLast?_concat] at hpred
        refine ⟨_, _, hprev, hg.steps_valid (y := some y) rfl rfl rfl hne hpos
          (.inr ⟨rfl, hv, rest, y, _, ⟨hat, ?_, ?_⟩, rfl⟩) hpred⟩
        · simp [BtCursor.forget]
        · simp
  · refine ⟨1, _, ?_, hg.steps_invalid (c := { s.cur with atLast := false }) hv rfl rfl rfl rfl
      fun k => ?_⟩
    · rw [sqlite3BtreePrevious, hstable, pure_bind]
      simp [hv]
    · simp [IsPred]

theorem Good.next (hg : Good root intKey s) (hf : s.cur.eState ≠ CURSOR_FAULT) :
    ∃ res c', sqlite3BtreeNext s.t 2 s.cur = pure (res, c') ∧ Steps root intKey s IsSucc res c' := by
  obtain ⟨c₁, hrestore, hg₁, hstate⟩ := hg.restore hf
  have hsame : sqlite3BtreeNext s.t 2 s.cur = sqlite3BtreeNext s.t 2 c₁ := by
    rw [sqlite3BtreeNext, sqlite3BtreeNext, hrestore, restoreCursorPosition_stable hstate]
  rw [hsame]
  exact hg₁.next_restored hstate

theorem Good.previous (hg : Good root intKey s) (hf : s.cur.eState ≠ CURSOR_FAULT) :
    ∃ res c', sqlite3BtreePrevious s.t 2 s.cur = pure (res, c') ∧
      Steps root intKey s IsPred res c' := by
  obtain ⟨c₁, hrestore, hg₁, hstate⟩ := hg.restore hf
  have hsame : sqlite3BtreePrevious s.t 2 s.cur = sqlite3BtreePrevious s.t 2 c₁ := by
    rw [sqlite3BtreePrevious, sqlite3BtreePrevious, hrestore, restoreCursorPosition_stable hstate]
  rw [hsame]
  exact hg₁.previous_restored hstate

end Sqlite.BtreeCursor

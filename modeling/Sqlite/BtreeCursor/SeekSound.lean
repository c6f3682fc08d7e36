import Sqlite.BtreeCursor.IndexCell
import Sqlite.BtreeCursor.Place

/-! A search ends at the key or beside its place, whatever has been done with the cursor before. -/
namespace Sqlite.BtreeCursor

open CursorState Record

variable {K : Type} [LinearOrder K] {t : BtShared K} {root depth h pgno : ℕ} {intKey : Bool}
  {parents : List (ℕ × ℕ)} {c : BtCursor K} {pre post l : List K} {x : K} {f g : K → ℤ} {res : ℤ}

/-- The search for the record of an index: `compare` is `sqlite3VdbeRecordCompare` with it, and
`cellAt` gives the cell of an entry. -/
def recordKey (usableSize : ℕ) (page : ℕ → Bytes) (cellAt : K → IndexCell) (compare : Bytes → ℤ) :
    SearchKey K :=
  .record fun x =>
    match cellRecord usableSize page (cellAt x) with
    | .ok pCellKey => compare pCellKey
    | .error _ => 0

/-- What a search comes to. It finds a key that is there. Otherwise the cursor is at the greatest of
the smaller entries or at the smallest of the greater ones, unless there are no entries. -/
def Finds (t : BtShared K) (root depth : ℕ) (g : K → ℤ) (res : ℤ) (c : BtCursor K) : Prop :=
  (allEntries t root depth = [] ∧ res ≠ 0 ∧ c.eState = CURSOR_INVALID) ∨
    (c.eState = CURSOR_VALID ∧ ∃ pre x post, At t root depth c.stack pre x post ∧
      ((∃ y ∈ allEntries t root depth, g y = 0) → res = 0) ∧ (res = 0 → g x = 0) ∧
      (res < 0 → g x < 0 ∧ ∀ y ∈ allEntries t root depth, g y < 0 → y ≤ x) ∧
      (0 < res → 0 < g x ∧ ∀ y ∈ allEntries t root depth, 0 < g y → x ≤ y))

/-- The greatest of some keys that are not above one. -/
def floor (l : List K) (x : K) : Option K := (l.filter (· ≤ x)).getLast?

theorem floor_le {y z : K} (hsort : l.Pairwise (· < ·)) (hfloor : floor l x = some y) :
    (y ∈ l ∧ y ≤ x) ∧ (z ∈ l → z ≤ x → z ≤ y) := by
  obtain ⟨l', hl'⟩ := List.getLast?_eq_some_iff.mp hfloor
  have hmem (w : K) : w ∈ l' ++ [y] ↔ w ∈ l ∧ w ≤ x := by
    rw [← hl', List.mem_filter, decide_eq_true_iff]
  refine ⟨(hmem y).mp (by simp), fun hz hzx => ?_⟩
  have hsort' := hsort.filter (· ≤ x)
  rw [hl'] at hsort'
  rcases List.mem_append.mp ((hmem z).mpr ⟨hz, hzx⟩) with hz | hz
  · exact le_of_lt ((List.pairwise_append.mp hsort').2.2 z hz y (by simp))
  · exact le_of_eq (List.mem_singleton.mp hz)

theorem floor_self (hsort : l.Pairwise (· < ·)) (hx : x ∈ l) : floor l x = some x := by
  cases hfloor : floor l x with
  | none =>
    have hnil := List.getLast?_eq_none_iff.mp hfloor
    have hmem : x ∈ l.filter (· ≤ x) := by simp [hx]
    simp [hnil] at hmem
  | some y =>
    obtain ⟨⟨-, hyx⟩, hmax⟩ := floor_le (z := x) hsort hfloor
    rw [le_antisymm hyx (hmax hx (le_refl x))]

/-- A comparison whose sign follows the order of some keys. -/
def FollowsOn (l : List K) (g : K → ℤ) : Prop :=
  ∀ x ∈ l, ∀ y ∈ l, x ≤ y → (g x).sign ≤ (g y).sign

/-- A comparison that follows the order on some keys is one that follows it everywhere. -/
theorem exists_follows (hsort : l.Pairwise (· < ·)) (hmono : FollowsOn l g) :
    ∃ g', Follows g' ∧ ∀ x ∈ l, g' x = g x := by
  refine ⟨fun x => (floor l x).elim (-1) g, fun x y hxy => ?_, fun x hx => ?_⟩
  · dsimp only
    cases hx : floor l x with
    | none =>
      have hleast : (-1 : ℤ).sign = -1 := rfl
      have hy := Int.sign_trichotomy ((floor l y).elim (-1) g)
      rw [Option.elim_none, hleast]
      omega
    | some u =>
      obtain ⟨⟨hu, hux⟩, -⟩ := floor_le (z := x) hsort hx
      cases hy : floor l y with
      | none =>
        have hnil := List.getLast?_eq_none_iff.mp hy
        have hmem : u ∈ l.filter (· ≤ y) := by simp [hu, le_trans hux hxy]
        simp [hnil] at hmem
      | some v =>
        obtain ⟨⟨hv, -⟩, hmax⟩ := floor_le (z := u) hsort hy
        exact hmono u hu v hv (hmax hu (le_trans hux hxy))
  · dsimp only
    rw [floor_self hsort hx, Option.elim_some]

theorem Finds.congr (hsame : ∀ y ∈ allEntries t root depth, f y = g y)
    (hw : WellFormed t root intKey depth) (hfinds : Finds t root depth f res c) :
    Finds t root depth g res c := by
  refine hfinds.imp_right fun ⟨hv, pre, x, post, hat, hthere, hzero, hless, hgreater⟩ => ?_
  have hx : x ∈ allEntries t root depth := by
    rw [hat.split hw]
    simp
  refine ⟨hv, pre, x, post, hat, fun ⟨y, hy, h0⟩ => hthere ⟨y, hy, (hsame y hy).trans h0⟩,
    fun h => (hsame x hx).symm.trans (hzero h), fun h => ?_, fun h => ?_⟩
  · obtain ⟨hlt, hmax⟩ := hless h
    exact ⟨hsame x hx ▸ hlt, fun y hy h => hmax y hy (hsame y hy ▸ h)⟩
  · obtain ⟨hgt, hmin⟩ := hgreater h
    exact ⟨hsame x hx ▸ hgt, fun y hy h => hmin y hy (hsame y hy ▸ h)⟩

/-- No entry between the key and the cursor says that the cursor is where it should be. -/
theorem finds_of_sides (hw : WellFormed t root intKey depth) (hg : Follows g)
    (hv : c.eState = CURSOR_VALID) (hat : At t root depth c.stack pre x post)
    (hless : 0 < g x → ∀ y ∈ pre, g y < 0) (hgreater : g x < 0 → ∀ y ∈ post, 0 < g y) :
    Finds t root depth g (g x) c := by
  have hsort := hw.sorted
  rw [hat.split hw] at hsort
  obtain ⟨-, hsort₂, hcross⟩ := List.pairwise_append.mp hsort
  obtain ⟨hpost, -⟩ := List.pairwise_cons.mp hsort₂
  have hcases (y : K) (hy : y ∈ allEntries t root depth) : (y ∈ pre ∧ y < x) ∨ y = x ∨
      (y ∈ post ∧ x < y) := by
    rw [hat.split hw] at hy
    rcases List.mem_append.mp hy with hy | hy
    · exact .inl ⟨hy, hcross y hy x (by simp)⟩
    · rcases List.mem_cons.mp hy with rfl | hy
      · exact .inr (.inl rfl)
      · exact .inr (.inr ⟨hy, hpost y hy⟩)
  refine .inr ⟨hv, pre, x, post, hat, ?_, id, fun hneg => ⟨hneg, fun y hy h => ?_⟩,
    fun hpos => ⟨hpos, fun y hy h => ?_⟩⟩
  · rintro ⟨y, hy, h0⟩
    rcases hcases y hy with ⟨hin, hlt⟩ | rfl | ⟨hin, hlt⟩
    · rcases lt_trichotomy (g x) 0 with hneg | hzero | hpos
      · have := hg.neg (le_of_lt hlt) hneg
        omega
      · exact hzero
      · have := hless hpos y hin
        omega
    · exact h0
    · rcases lt_trichotomy (g x) 0 with hneg | hzero | hpos
      · have := hgreater hneg y hin
        omega
      · exact hzero
      · have := hg.pos (le_of_lt hlt) hpos
        omega
  · rcases hcases y hy with ⟨-, hlt⟩ | rfl | ⟨hin, -⟩
    · exact le_of_lt hlt
    · exact le_refl y
    · have := hgreater hneg y hin
      omega
  · rcases hcases y hy with ⟨hin, -⟩ | rfl | ⟨-, hlt⟩
    · have := hless hpos y hin
      omega
    · exact le_refl y
    · exact le_of_lt hlt

/-- The cells of an index are entries. -/
theorem Above.keys_mem (hw : WellFormed t root false depth)
    (ha : Above t root depth h pgno parents pre post) :
    ∀ y ∈ keysOf (pageAt t pgno), y ∈ allEntries t root depth := by
  obtain ⟨hne, htree, -, hall⟩ := ha.facts hw
  intro y hy
  have hin : y ∈ entries t h pgno := by
    cases h with
    | zero => exact hy
    | succ h =>
      obtain ⟨i, hi, hget⟩ := List.mem_iff_getElem.mp hy
      have hi' : i < (pageAt t pgno).nCell := by rwa [keysOf_length] at hi
      have hsep : separator (pageAt t pgno) i = [y] := by
        simp [separator, htree.page.2.1, List.getElem?_eq_getElem hi, hget]
      rw [entries, before_split _ (Nat.le_of_lt hi'), behind_of_lt _ hi', hsep]
      simp
  rw [allEntries, if_neg hne, hall]
  simp [hin]

/-- A search in a sane state, for a comparison that is known. -/
theorem Sane.finds (hs : Sane root intKey t depth c) (hf : c.eState ≠ CURSOR_FAULT)
    {key : SearchKey K} (hg : Follows g) (hsharp : intKey = true → Sharp g)
    (hfg : Compares t root depth key.compare g) (bias : Bool) :
    ∃ res c', sqlite3BtreeMovetoUnpacked t c key bias = pure (res, c') ∧
      Finds t root depth g res c' := by
  obtain ⟨res, c', hmove, -, hcase⟩ := hs.moveto hf key bias
  refine ⟨res, c', hmove, ?_⟩
  rcases hcase with ⟨hall, hres, hv, -⟩ | ⟨hv, pre, x, post, hp, hres, -, hside⟩
  · exact .inl ⟨hall, by omega, hv⟩
  · obtain ⟨hless, hgreater⟩ := hside g hfg hg hsharp
    rw [hres, hp.1.compare_eq hfg]
    exact finds_of_sides hs.tree hg hv hp.1 hless hgreater

theorem upheld_open (hw : WellFormed t root intKey depth) :
    Upheld root intKey ⟨t, depth, btreeCursor root intKey, none⟩ :=
  .moved ⟨hw, rfl, rfl, fun _ => rfl, by simp [btreeCursor], by simp [btreeCursor]⟩

/-- After every history of a cursor a search finds the key or its place, in a table and in an index
whose order the comparison follows. A cursor that a rollback has tripped has no tree to search. -/
theorem moveto_sound (hw : WellFormed t root intKey depth) {s : Editor K}
    (hhist : History root intKey ⟨t, depth, btreeCursor root intKey, none⟩ s) (bias : Bool) :
    (s.cur.eState = CURSOR_FAULT → ∀ key,
      sqlite3BtreeMovetoUnpacked s.t s.cur key bias = .error (.code s.cur.skipNext)) ∧
    (s.cur.eState ≠ CURSOR_FAULT → intKey = true → ∀ k, ∃ res c,
      sqlite3BtreeMovetoUnpacked s.t s.cur (.rowid k) bias = pure (res, c) ∧
        Finds s.t root s.depth (keyCompare k) res c) ∧
    (s.cur.eState ≠ CURSOR_FAULT → intKey = false →
      ∀ (usableSize : ℕ) (page : ℕ → Bytes) (cellAt : K → IndexCell) (record : K → Bytes)
        (compare : Bytes → ℤ), 480 ≤ usableSize → usableSize ≤ 65536 →
        (∀ x ∈ allEntries s.t root s.depth, StoredCell usableSize page (cellAt x) (record x)) →
        FollowsOn (allEntries s.t root s.depth) (fun x => compare (record x)) →
        ∃ res c, sqlite3BtreeMovetoUnpacked s.t s.cur (recordKey usableSize page cellAt compare) bias =
            pure (res, c) ∧
          Finds s.t root s.depth (fun x => compare (record x)) res c) := by
  have hs := ((upheld_open hw).history hhist).sane
  refine ⟨fun hf key => ?_, fun hf _ k => ?_, fun hf hkind usableSize page cellAt record compare hmin
    hmax hstored hmono => ?_⟩
  · have hcached : cachedCompare s.cur key = none := by
      cases key <;> simp [cachedCompare, hf]
    have hroot : moveToRoot s.t s.cur = .error (.code s.cur.skipNext) := by
      rw [moveToRoot, if_pos hf]
      rfl
    simp only [sqlite3BtreeMovetoUnpacked, hcached]
    rw [hroot]
    rfl
  · have hsharp := sharp_keyCompare k
    exact hs.finds hf hsharp.follows (fun _ => hsharp) (fun _ _ _ _ _ _ _ _ => rfl) bias
  · subst hkind
    obtain ⟨g, hg, hsame⟩ := exists_follows hs.tree.sorted hmono
    have hfg : Compares s.t root s.depth (recordKey usableSize page cellAt compare).compare g := by
      intro h pgno parents pre post ha y hy
      have hin := ha.keys_mem hs.tree y hy
      rw [hsame y hin]
      simp only [recordKey, SearchKey.compare, cellRecord_eq hmin hmax (hstored y hin)]
      rfl
    obtain ⟨res, c, hmove, hfinds⟩ := hs.finds hf hg (by simp) hfg bias
    exact ⟨res, c, hmove, hfinds.congr hsame hs.tree⟩

theorem put_tableOf (rows rows' : List ℤ) :
    (tableOf rows).put 2 ⟨true, true, rows'.map (Cell.mk 0), 0⟩ = tableOf rows' := by
  unfold BtShared.put tableOf
  congr 1
  funext pgno
  by_cases hpgno : pgno = 2 <;> simp [hpgno]

/-- An index with one record of one byte. -/
def indexOf (key : ℕ) : BtShared ℕ :=
  ⟨fun pgno => if pgno = 2 then some ⟨false, true, [⟨0, key⟩], 0⟩ else none⟩

theorem indexOf_wellFormed (key : ℕ) : WellFormed (indexOf key) 2 false 0 := by
  refine ⟨rfl, fun _ => ⟨_, rfl, rfl, rfl, ?_⟩, ?_, by decide⟩
  · simp [keysOf]
  · simp [pageAt, indexOf]

/-- A row is put in behind the last one, read, and left for another; and a search in an index. -/
theorem moveto_sound_rows :
    (∃ s, History 2 true ⟨tableOf [1, 3, 5], 0, btreeCursor 2 true, none⟩ s ∧
      s.cur.atLast = true ∧ s.cur.validNKey = true ∧ allEntries s.t 2 s.depth = [1, 3, 5, 7] ∧
      ∃ res c, sqlite3BtreeMovetoUnpacked s.t s.cur (.rowid 9) false = pure (res, c) ∧
        Finds s.t 2 s.depth (keyCompare 9) res c) ∧
    ∃ res c, sqlite3BtreeMovetoUnpacked (indexOf 5) (btreeCursor 2 false)
        (recordKey 512 (fun _ => []) (fun x => ⟨0, [1, .ofNat x]⟩) fun r => (r.headD 0).toNat - 4) true =
          pure (res, c) ∧
      Finds (indexOf 5) 2 0 (fun x => (([UInt8.ofNat x].headD 0).toNat - 4 : ℤ)) res c := by
  have hw : WellFormed (tableOf [1, 3, 5]) 2 true 0 := tableOf_wellFormed (by decide)
  have hw' : WellFormed ((tableOf [1, 3, 5]).put 2 ⟨true, true, [1, 3, 5, 7].map (Cell.mk 0), 0⟩) 2
      true 0 := by
    rw [put_tableOf]
    exact tableOf_wellFormed (by decide)
  let s₀ : Editor ℤ := ⟨tableOf [1, 3, 5], 0, btreeCursor 2 true, none⟩
  let t' : BtShared ℤ := (tableOf [1, 3, 5]).put 2 ⟨true, true, [1, 3, 5, 7].map (Cell.mk 0), 0⟩
  let row (i : ℕ) (read : Bool) (key : Option ℤ) : BtCursor ℤ :=
    ⟨2, true, CURSOR_VALID, [(2, i)], true, read, read, key, none, 0⟩
  have h₁ : History 2 true s₀ ⟨tableOf [1, 3, 5], 0, row 2 false none, none⟩ :=
    .step .start (e := .call .last) ⟨trivial, by simp⟩ rfl hw
  have h₂ : History 2 true s₀ ⟨tableOf [1, 3, 5], 0, row 2 true (some 5), none⟩ :=
    .step h₁ (e := .call .keySize) ⟨trivial, fun _ _ _ _ _ h _ => by cases h; rfl⟩ rfl hw
  have h₃ : History 2 true s₀ ⟨t', 0, row 3 false (some 5), none⟩ :=
    .step h₂ (e := .insert 7 true 0 none) (fun h => absurd rfl h) rfl hw'
  have h₄ : History 2 true s₀ ⟨t', 0, row 3 true (some 7), none⟩ :=
    .step h₃ (e := .call .keySize) ⟨trivial, fun _ _ _ _ _ h _ => by cases h; rfl⟩ rfl hw'
  refine ⟨⟨_, h₄, rfl, rfl, rfl, (moveto_sound hw h₄ false).2.1 (by decide) rfl 9⟩, ?_⟩
  have hentries : ∀ x ∈ allEntries (indexOf 5) 2 0, x = 5 := fun x hx => List.mem_singleton.mp hx
  refine (moveto_sound (indexOf_wellFormed 5) .start true).2.2 (by decide) rfl 512 _ _
    (fun x => [.ofNat x]) _ (by decide) (by decide) (fun x hx => ?_) fun x hx y hy _ => ?_
  · obtain rfl := hentries x hx
    exact ⟨by decide, [], [], rfl, rfl, fun h => absurd h (by decide)⟩
  · rw [hentries x hx, hentries y hy]

/-- A cursor that a rollback has tripped. -/
theorem moveto_tripped : WellFormed (tableOf [1, 3, 5]) 2 true 0 ∧
    ∃ s, History 2 true ⟨tableOf [1, 3, 5], 0, btreeCursor 2 true, none⟩ s ∧
      sqlite3BtreeMovetoUnpacked s.t s.cur (.rowid 3) false = .error (.code 4) := by
  have hw : WellFormed (tableOf [1, 3, 5]) 2 true 0 := tableOf_wellFormed (by decide)
  refine ⟨hw, _, .step .start (e := .call (.trip 4)) ⟨show (4 : ℤ) ≠ 0 by decide, by simp⟩ rfl hw,
    rfl⟩

end Sqlite.BtreeCursor

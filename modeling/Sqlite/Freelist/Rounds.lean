import Sqlite.Foundation.Loop
import Sqlite.Freelist.Chain

/-! How many trunks an allocation visits, whatever the pages hold. -/
namespace Sqlite.Freelist
open Sqlite.Foundation

section
variable (c : Config)

/-- The call as it is built without assertions, with at most `n` rounds of its loop. -/
def allocateSteps (n : ℕ) (s : BtShared) (nearby : ℕ) (exact : Bool) : Option Result :=
  let mxPage := s.nPage
  let nFree := get4byte s.page 1 36
  if mxPage ≤ nFree then some (.SQLITE_CORRUPT, 0, s)
  else if 0 < nFree then
    let s1 := { s with page := put4byte s.page 1 36 (nFree - 1) }
    if exact ∧ nearby ≤ mxPage then
      let r := ptrmapGet c s nearby
      if r.1 ≠ .SQLITE_OK then some (r.1, 0, s)
      else allocateLoop c mxPage nearby (r.2.1 = PTRMAP_FREEPAGE) n none s1
    else allocateLoop c mxPage nearby false n none s1
  else some (allocateAtEnd c s)

/-- A page that others have a reference to cannot be an unused one. -/
def checkRefs (inUse : ℕ → Bool) (r : Result) : Result :=
  if r.1 = .SQLITE_OK ∧ inUse r.2.1 then (.SQLITE_CORRUPT, 0, r.2.2) else r

def allocateRounds (inUse : ℕ → Bool) (n : ℕ) (s : BtShared) (nearby : ℕ) (exact : Bool) :
    Option Result :=
  (allocateSteps c n s nearby exact).map (checkRefs inUse)

/-- The pointer-map says that the page which is asked for is free. -/
def Searching (s : BtShared) (nearby : ℕ) (exact : Bool) : Prop :=
  get4byte s.page 1 36 < s.nPage ∧ 0 < get4byte s.page 1 36 ∧ exact ∧ nearby ≤ s.nPage ∧
    (ptrmapGet c s nearby).1 = .SQLITE_OK ∧ (ptrmapGet c s nearby).2.1 = PTRMAP_FREEPAGE

/-- A trunk at which a search ends: it cannot be one, it is the page that is asked for, or the
nearest of its leaves is or cannot be a page. -/
def Stops (s : BtShared) (nearby iTrunk : ℕ) : Prop :=
  let k := get4byte s.page iTrunk 4
  let iPage := leafAt s.page iTrunk (closestLeaf (leafAt s.page iTrunk) k nearby)
  s.nPage < iTrunk ∨ (btreeGetPage c s iTrunk false).1 ≠ .SQLITE_OK ∨
    c.usableSize / 4 - 2 < k ∨ nearby = iTrunk ∨ (0 < k ∧ (s.nPage < iPage ∨ iPage = nearby))

/-- The trunk number `i` of the chain. -/
def trunk (s : BtShared) (i : ℕ) : ℕ :=
  (fun t => get4byte s.page t 0)^[i] (get4byte s.page 1 32)

/-- The state of the pages while the loop goes on. -/
def counted (s : BtShared) : BtShared :=
  { s with page := put4byte s.page 1 36 (get4byte s.page 1 36 - 1) }

/-- An error, or a page of the file. -/
def Returned (r : Result) : Prop := r.1 = .SQLITE_OK → 1 ≤ r.2.1 ∧ r.2.1 ≤ r.2.2.nPage

end

variable {c : Config} {s s' : BtShared} {nearby n pgno : ℕ} {noContent : Bool}

theorem btreeGetPage_nPage : (btreeGetPage c s pgno noContent).2.nPage = s.nPage := by
  unfold btreeGetPage
  split_ifs <;> rfl

theorem btreeGetPage_pos (h : (btreeGetPage c s pgno noContent).1 = .SQLITE_OK) : 1 ≤ pgno := by
  unfold btreeGetPage at h
  by_cases h0 : pgno = 0 ∨ pgno = PENDING_BYTE_PAGE c
  · rw [if_pos h0] at h
    exact absurd h (by simp)
  · omega

/-- One round of the loop, at the trunk `t`. -/
theorem allocateLoop_round {mxPage t : ℕ} {prev : Option ℕ} {search : Bool}
    (ht : link s.page prev = t) :
    allocateLoop c mxPage nearby search (n + 1) prev s =
      if mxPage < t ∨ (btreeGetPage c s t false).1 ≠ .SQLITE_OK then some (.SQLITE_CORRUPT, 0, s)
      else
        let k := get4byte s.page t 4
        if k = 0 ∧ ¬ search then
          some (.SQLITE_OK, t, { s with page := put4byte s.page 1 32 (get4byte s.page t 0) })
        else if c.usableSize / 4 - 2 < k then some (.SQLITE_CORRUPT, 0, s)
        else if search ∧ nearby = t then
          if k = 0 then
            some (.SQLITE_OK, t, { s with page := putLink s.page prev (get4byte s.page t 0) })
          else
            let iNewTrunk := leafAt s.page t 0
            if mxPage < iNewTrunk ∨ (btreeGetPage c s iNewTrunk false).1 ≠ .SQLITE_OK then
              some (.SQLITE_CORRUPT, 0, s)
            else
              some (.SQLITE_OK, t,
                { s with page := putLink (promote s.page t iNewTrunk k) prev iNewTrunk })
        else if 0 < k then
          let closest := closestLeaf (leafAt s.page t) k nearby
          let iPage := leafAt s.page t closest
          if mxPage < iPage then some (.SQLITE_CORRUPT, 0, s)
          else if ¬ search ∨ iPage = nearby then
            let s1 := { s with page := takeLeaf s.page t closest k }
            let r := btreeGetPage c s1 iPage (! btreeGetHasContent s1 iPage)
            some (r.1, iPage, r.2)
          else allocateLoop c mxPage nearby search n (some t) s
        else allocateLoop c mxPage nearby search n (some t) s := by
  subst ht
  cases prev <;> rfl

theorem returned_corrupt {p : ℕ} : Returned (.SQLITE_CORRUPT, p, s) := fun h => absurd h (by simp)

/-- A leaf that is taken. -/
theorem returned_leaf {iPage : ℕ} (hle : iPage ≤ s.nPage) :
    Returned ((btreeGetPage c s iPage noContent).1, iPage,
      (btreeGetPage c s iPage noContent).2) := by
  intro hok
  exact ⟨btreeGetPage_pos hok, by rw [btreeGetPage_nPage]; exact hle⟩

/-- One round gives a page or an error, or goes on with the next trunk. It goes on only in a search
at a trunk that does not stop it. -/
theorem allocateLoop_cases {prev : Option ℕ} {search : Bool} :
    (∃ r, Returned r ∧ ∀ n, allocateLoop c s.nPage nearby search (n + 1) prev s = some r) ∧
        (search = true → Stops c s nearby (link s.page prev)) ∨
      search = true ∧ ¬ Stops c s nearby (link s.page prev) ∧ ∀ n,
        allocateLoop c s.nPage nearby search (n + 1) prev s =
          allocateLoop c s.nPage nearby search n (some (link s.page prev)) s := by
  simp only [allocateLoop_round rfl]
  generalize link s.page prev = t
  by_cases hpage : s.nPage < t ∨ (btreeGetPage c s t false).1 ≠ .SQLITE_OK
  · simp only [if_pos hpage]
    exact .inl ⟨⟨_, returned_corrupt, fun _ => rfl⟩,
      fun _ => hpage.elim .inl fun h => .inr (.inl h)⟩
  obtain ⟨hle, hok⟩ := not_or.mp hpage
  have hpos := btreeGetPage_pos (not_not.mp hok)
  have hle := not_lt.mp hle
  simp only [if_neg hpage]
  by_cases hempty : get4byte s.page t 4 = 0 ∧ ¬ search
  · simp only [if_pos hempty]
    exact .inl ⟨⟨_, fun _ => ⟨hpos, hle⟩, fun _ => rfl⟩, fun h => absurd h hempty.2⟩
  simp only [if_neg hempty]
  by_cases hmany : c.usableSize / 4 - 2 < get4byte s.page t 4
  · simp only [if_pos hmany]
    exact .inl ⟨⟨_, returned_corrupt, fun _ => rfl⟩, fun _ => .inr (.inr (.inl hmany))⟩
  simp only [if_neg hmany]
  by_cases htrunk : search ∧ nearby = t
  · simp only [if_pos htrunk]
    refine .inl ⟨?_, fun _ => .inr (.inr (.inr (.inl htrunk.2)))⟩
    split_ifs
    · exact ⟨_, fun _ => ⟨hpos, hle⟩, fun _ => rfl⟩
    · exact ⟨_, returned_corrupt, fun _ => rfl⟩
    · exact ⟨_, fun _ => ⟨hpos, hle⟩, fun _ => rfl⟩
  simp only [if_neg htrunk]
  by_cases hk : 0 < get4byte s.page t 4
  · simp only [if_pos hk]
    generalize hleaf :
      leafAt s.page t (closestLeaf (leafAt s.page t) (get4byte s.page t 4) nearby) = iPage
    by_cases hout : s.nPage < iPage
    · simp only [if_pos hout]
      exact .inl ⟨⟨_, returned_corrupt, fun _ => rfl⟩,
        fun _ => .inr (.inr (.inr (.inr ⟨hk, .inl (hleaf ▸ hout)⟩)))⟩
    simp only [if_neg hout]
    by_cases hfound : ¬ search ∨ iPage = nearby
    · simp only [if_pos hfound]
      refine .inl ⟨⟨_, ?_, fun _ => rfl⟩, fun h => ?_⟩
      · exact returned_leaf (not_lt.mp hout)
      · exact .inr (.inr (.inr (.inr ⟨hk, .inr (hleaf ▸ hfound.resolve_left (not_not_intro h))⟩)))
    · simp only [if_neg hfound]
      obtain ⟨hs, hne⟩ := not_or.mp hfound
      have hs := not_not.mp hs
      refine .inr ⟨hs, ?_, fun _ => trivial⟩
      rintro (h | h | h | h | ⟨-, h | h⟩)
      · omega
      · exact hok h
      · exact hmany h
      · exact htrunk ⟨hs, h⟩
      · exact hout (hleaf ▸ h)
      · exact hne (hleaf ▸ h)
  · simp only [if_neg hk]
    have hs : search = true := by
      by_contra hs
      exact hempty ⟨by omega, hs⟩
    refine .inr ⟨hs, ?_, fun _ => trivial⟩
    rintro (h | h | h | h | ⟨h, -⟩)
    · omega
    · exact hok h
    · exact hmany h
    · exact htrunk ⟨hs, h⟩
    · exact hk h

/-- A search comes to an end at the first trunk that stops it. -/
theorem allocateLoop_stops {i : ℕ} {prev : Option ℕ}
    (h : Stops c s nearby ((fun t => get4byte s.page t 0)^[i] (link s.page prev))) :
    ∃ r, Returned r ∧ ∀ n, i < n → allocateLoop c s.nPage nearby true n prev s = some r := by
  induction i generalizing prev with
  | zero =>
    obtain ⟨⟨r, hr, hrun⟩, -⟩ | ⟨-, hno, -⟩ := @allocateLoop_cases c s nearby prev true
    · refine ⟨r, hr, fun n hn => ?_⟩
      obtain ⟨n, rfl⟩ : ∃ m, n = m + 1 := ⟨n - 1, by omega⟩
      exact hrun n
    · exact absurd h hno
  | succ i ih =>
    obtain ⟨⟨r, hr, hrun⟩, -⟩ | ⟨-, -, hnext⟩ := @allocateLoop_cases c s nearby prev true
    · refine ⟨r, hr, fun n hn => ?_⟩
      obtain ⟨n, rfl⟩ : ∃ m, n = m + 1 := ⟨n - 1, by omega⟩
      exact hrun n
    · obtain ⟨r, hr, hrun⟩ := @ih (some (link s.page prev)) h
      refine ⟨r, hr, fun n hn => ?_⟩
      obtain ⟨n, rfl⟩ : ∃ m, n = m + 1 := ⟨n - 1, by omega⟩
      rw [hnext]
      exact hrun n (by omega)

/-- A search that came to an end was stopped. -/
theorem exists_stops {prev : Option ℕ} {r : Result}
    (h : allocateLoop c s.nPage nearby true n prev s = some r) :
    ∃ i, Stops c s nearby ((fun t => get4byte s.page t 0)^[i] (link s.page prev)) := by
  induction n generalizing prev with
  | zero => exact absurd h (by simp [allocateLoop])
  | succ n ih =>
    obtain ⟨-, hstop⟩ | ⟨-, -, hnext⟩ := @allocateLoop_cases c s nearby prev true
    · exact ⟨0, hstop rfl⟩
    · rw [hnext] at h
      obtain ⟨i, hi⟩ := ih h
      exact ⟨i + 1, hi⟩

/-- Without a search there is one round. -/
theorem allocateLoop_once {prev : Option ℕ} :
    ∃ r, Returned r ∧ ∀ n, 0 < n → allocateLoop c s.nPage nearby false n prev s = some r := by
  obtain ⟨⟨r, hr, hrun⟩, -⟩ | ⟨h, -⟩ := @allocateLoop_cases c s nearby prev false
  · refine ⟨r, hr, fun n hn => ?_⟩
    obtain ⟨n, rfl⟩ : ∃ m, n = m + 1 := ⟨n - 1, by omega⟩
    exact hrun n
  · exact absurd h (by decide)

/-- No trunk that lets a search go on is outside of the file, so it is over after as many trunks as
there are pages. -/
theorem stops_bounded (h : ∃ i, Stops c s nearby (trunk s i)) :
    ∃ i ≤ s.nPage, Stops c s nearby (trunk s i) := by
  have hmem : ∀ t, ¬ Stops c s nearby t → t ∈ Finset.Icc 1 s.nPage := by
    intro t ht
    have hpage := not_or.mp fun h : s.nPage < t ∨ (btreeGetPage c s t false).1 ≠ .SQLITE_OK =>
      ht (h.elim .inl fun h => .inr (.inl h))
    exact Finset.mem_Icc.mpr ⟨btreeGetPage_pos (not_not.mp hpage.2), not_lt.mp hpage.1⟩
  obtain ⟨i, hi, hstop⟩ := exists_iterate_le _ hmem h
  exact ⟨i, by simpa using hi, hstop⟩

theorem nextPage_pos (n : ℕ) : 1 ≤ nextPage c n := by
  unfold nextPage
  split_ifs <;> omega

theorem returned_atEnd : Returned (allocateAtEnd c s) := by
  unfold allocateAtEnd
  dsimp only
  split_ifs with hmap herr
  · exact fun h => absurd h herr
  · exact fun _ => ⟨nextPage_pos _, by rw [btreeGetPage_nPage]⟩
  · exact fun _ => ⟨nextPage_pos _, by rw [btreeGetPage_nPage]⟩

theorem Returned.checkRefs {r : Result} (h : Returned r) (inUse : ℕ → Bool) :
    Returned (checkRefs inUse r) := by
  unfold Freelist.checkRefs
  split_ifs
  · exact returned_corrupt
  · exact h

/-- A search that came back met a trunk that stops it. -/
theorem allocateSteps_stops {exact : Bool} {r : Result} (hs : Searching c s nearby exact)
    (h : allocateSteps c n s nearby exact = some r) :
    ∃ i, Stops c (counted s) nearby (trunk (counted s) i) := by
  obtain ⟨hlt, hpos, he, hle, hok, hfree⟩ := hs
  unfold allocateSteps at h
  simp only [if_neg (not_le.mpr hlt), if_pos hpos, he, hle, and_self, if_true, hok, ne_eq,
    not_true_eq_false, if_false, hfree, decide_true] at h
  exact @exists_stops c (counted s) nearby n none r h

theorem allocateSteps_returns {exact : Bool}
    (h : Searching c s nearby exact → ∃ i, Stops c (counted s) nearby (trunk (counted s) i)) :
    ∃ r, Returned r ∧ ∀ n, s.nPage < n → allocateSteps c n s nearby exact = some r := by
  have honce : ∃ r, Returned r ∧ ∀ n, s.nPage < n →
      allocateLoop c s.nPage nearby false n none (counted s) = some r := by
    obtain ⟨r, hr, hrun⟩ := @allocateLoop_once c (counted s) nearby none
    exact ⟨r, hr, fun n hn => hrun n (by omega)⟩
  unfold allocateSteps
  dsimp only
  by_cases hmax : s.nPage ≤ get4byte s.page 1 36
  · simp only [if_pos hmax]
    exact ⟨_, returned_corrupt, fun _ _ => rfl⟩
  simp only [if_neg hmax]
  by_cases hpos : 0 < get4byte s.page 1 36
  · simp only [if_pos hpos]
    by_cases hexact : exact = true ∧ nearby ≤ s.nPage
    · simp only [if_pos hexact]
      by_cases hok : (ptrmapGet c s nearby).1 = .SQLITE_OK
      · simp only [hok, ne_eq, not_true_eq_false, if_false]
        by_cases hfree : (ptrmapGet c s nearby).2.1 = PTRMAP_FREEPAGE
        · simp only [hfree, decide_true]
          obtain ⟨i, hi, hstop⟩ := stops_bounded
            (h ⟨not_le.mp hmax, hpos, hexact.1, hexact.2, hok, hfree⟩)
          obtain ⟨r, hr, hrun⟩ := @allocateLoop_stops c (counted s) nearby i none hstop
          exact ⟨r, hr, fun n hn => hrun n (hi.trans_lt hn)⟩
        · simp only [hfree, decide_false]
          exact honce
      · simp only [ne_eq, hok, not_false_eq_true, if_true]
        exact ⟨_, fun h => absurd h hok, fun _ _ => rfl⟩
    · simp only [if_neg hexact]
      exact honce
  · simp only [if_neg hpos]
    exact ⟨_, returned_atEnd, fun _ _ => rfl⟩

/-- The allocation comes back, with a page of the file or an error, unless it searches along trunks
that never stop it. -/
theorem allocate_returns_iff (c : Config) (s : BtShared) (nearby : ℕ) (exact : Bool)
    (inUse : ℕ → Bool) :
    (∃ n r, allocateRounds c inUse n s nearby exact = some r ∧ Returned r) ↔
      (Searching c s nearby exact → ∃ i, Stops c (counted s) nearby (trunk (counted s) i)) := by
  constructor
  · rintro ⟨n, r, hrun, -⟩ hs
    obtain ⟨r0, hr0, -⟩ := Option.map_eq_some_iff.mp hrun
    exact allocateSteps_stops hs hr0
  · intro h
    obtain ⟨r, hr, hrun⟩ := allocateSteps_returns h
    refine ⟨s.nPage + 1, _, ?_, hr.checkRefs inUse⟩
    rw [allocateRounds, hrun _ (Nat.lt_succ_self _), Option.map_some]

/-- One unused page, the trunk 3, which is followed by itself; the pointer-map says that page 4 is
free. -/
def selfLinked : BtShared where
  page p x :=
    if p = 1 ∧ x = 35 then 3 else if p = 1 ∧ x = 39 then 1 else if p = 2 ∧ x = 5 then 2
    else if p = 3 ∧ x = 3 then 3 else 0
  nPage := 5

theorem allocate_never_returns :
    ¬ ∃ n r, allocateRounds smallConfig (fun _ => false) n selfLinked 4 true = some r := by
  rintro ⟨n, r, hrun⟩
  obtain ⟨r0, hr0, -⟩ := Option.map_eq_some_iff.mp hrun
  have hs : Searching smallConfig selfLinked 4 true := by
    refine ⟨?_, ?_, ?_, ?_, ?_, ?_⟩ <;> decide
  obtain ⟨i, hi⟩ := allocateSteps_stops hs hr0
  have htrunk : trunk (counted selfLinked) i = 3 := by
    have hfirst : get4byte (counted selfLinked).page 1 32 = 3 := by decide
    have hnext : get4byte (counted selfLinked).page 3 0 = 3 := by decide
    rw [trunk, hfirst]
    exact Function.iterate_fixed hnext i
  rw [htrunk] at hi
  revert hi
  unfold Stops
  decide

end Sqlite.Freelist

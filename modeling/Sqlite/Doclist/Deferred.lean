import Mathlib.Data.List.Sort
import Sqlite.Doclist.PhraseMerge
import Sqlite.Doclist.Pending

/-! The position list of a phrase with deferred tokens (`fts3EvalDeferredPhrase`). -/
namespace Sqlite.Doclist

open Fts (sqlite3Fts3PutVarint sqlite3Fts3GetVarint)
open Foundation

/-- The current position list of a phrase: the bytes from `pList` on, of which it has the first `nList`. -/
structure Fts3Doclist where
  pList : Option (List ℕ)
  nList : ℕ

/-- The variables of the loop over the tokens. -/
structure DeferredLoop where
  aPoslist : Option (List ℕ)
  nPoslist : ℕ
  iPrev : ℤ

/-- A deferred token in the loop: what it leaves, or `none` where the phrase is not in the row; and whether
all writes were inside of their buffer. -/
def deferredToken (iToken : ℕ) (pDeferred : Fts3DeferredToken) (s : DeferredLoop) :
    Option (Option DeferredLoop × Bool) := do
  match ← sqlite3Fts3DeferredTokenList pDeferred, s.aPoslist with
  | none, _ => return (none, true)
  | some pList, none => return (some ⟨some pList, pList.length, iToken⟩, true)
  | some pList, some aPoslist =>
    let (_, aOut, _, _) ←
      fts3PoslistPhraseMerge none (iToken - s.iPrev) false true { a := pList } aPoslist 0
    let inside := decide (aOut.top ≤ pList.length)
    if aOut.p = 0 then return (none, inside)
    else return (some ⟨some aOut.a, aOut.p, iToken⟩, inside)

/-- The loop from token `iToken` on. -/
def deferredLoop (pDeferred : List Fts3DeferredToken) : ℕ → List Fts3PhraseToken → DeferredLoop →
    Option (Option DeferredLoop × Bool)
  | _, [], s => some (some s, true)
  | iToken, pToken :: rest, s =>
    match pToken.pDeferred with
    | none => deferredLoop pDeferred (iToken + 1) rest s
    | some k => do
      let d ← pDeferred[k]?
      match ← deferredToken iToken d s with
      | (none, inside) => return (none, inside)
      | (some s, inside) =>
        let (r, inside') ← deferredLoop pDeferred (iToken + 1) rest s
        return (r, inside && inside')

/-- The position list of the phrase afterwards, and whether all writes were inside of their buffer. -/
def fts3EvalDeferredPhrase (pDeferred : List Fts3DeferredToken) (aToken : List Fts3PhraseToken)
    (iDoclistToken : ℤ) (doclist : Fts3Doclist) : Option (Fts3Doclist × Bool) := do
  match ← deferredLoop pDeferred 0 aToken ⟨none, 0, -1⟩ with
  | (none, inside) => return (⟨none, 0⟩, inside)
  | (some s, inside) =>
    if s.iPrev ≥ 0 then
      if iDoclistToken < 0 then return (⟨s.aPoslist, s.nPoslist⟩, inside)
      else
        let aPoslist ← s.aPoslist
        let pList ← doclist.pList
        let p1 := if iDoclistToken > s.iPrev then aPoslist else pList
        let p2 := if iDoclistToken > s.iPrev then pList else aPoslist
        let nDistance := if iDoclistToken > s.iPrev then iDoclistToken - s.iPrev else s.iPrev - iDoclistToken
        -- The output goes to a new buffer of `nPoslist+8` bytes.
        let (res, aOut, _, _) ← fts3PoslistPhraseMerge (some p2) nDistance false true { a := [] } p1 0
        return (if res then ⟨some aOut.a, aOut.p⟩ else ⟨none, 0⟩,
          inside && decide (aOut.top ≤ s.nPoslist + 8))
    else return (doclist, inside)

/-! The positions of some tokens of a phrase, given as those of the last of them. -/

/-- The tokens of `S` are around position `q` of the token `last`. -/
def Part (occs : ℕ → Poslist) (S : ℕ → Prop) (last c q : ℕ) : Prop :=
  ∀ j, S j → ∃ x, HasPos (occs j) c x ∧ x + last = q + j

/-- The position list `l` is the one of the tokens of `S`. -/
structure IsPart (occs : ℕ → Poslist) (S : ℕ → Prop) (last : ℕ) (l : Poslist) : Prop where
  poslist : IsPoslist l
  positions : ∀ c q, HasPos l c q ↔ Part occs S last c q

variable {occs : ℕ → Poslist} {S S' : ℕ → Prop} {a b c q : ℕ} {l l' : Poslist}

/-- Two parts are together around a position of the second. -/
theorem part_or_iff (ha : S a) (hab : a ≤ b) :
    Part occs (fun j => S j ∨ S' j) b c q ↔
      Part occs S' b c q ∧ ∃ x, Part occs S a c x ∧ x + (b - a) = q := by
  constructor
  · intro h
    obtain ⟨x, -, hx⟩ := h a (.inl ha)
    refine ⟨fun j hj => h j (.inr hj), x, fun j hj => ?_, by omega⟩
    obtain ⟨y, hy, hyq⟩ := h j (.inl hj)
    exact ⟨y, hy, by omega⟩
  · rintro ⟨hright, x, hleft, hxq⟩ j (hj | hj)
    · obtain ⟨y, hy, hyx⟩ := hleft j hj
      exact ⟨y, hy, by omega⟩
    · exact hright j hj

/-- Two parts of a phrase are merged. -/
theorem IsPart.merge (h : IsPart occs S a l) (h' : IsPart occs S' b l') (ha : S a) (hab : a ≤ b) :
    IsPart occs (fun j => S j ∨ S' j) b (phraseCols (b - a) l l') := by
  refine ⟨isPoslist_phraseCols _ _ h'.poslist, fun c q => ?_⟩
  rw [hasPos_phraseCols h.poslist, part_or_iff ha hab, h'.positions]
  exact and_congr_right fun _ => exists_congr fun x => and_congr_left fun _ => h.positions c x

theorem IsPart.nonempty (h : IsPart occs S a l) (hne : l ≠ []) : ∃ c q, Part occs S a c q := by
  obtain ⟨c, q, hq⟩ := exists_hasPos h.poslist hne
  exact ⟨c, q, (h.positions c q).mp hq⟩

theorem IsPart.eq_nil_iff (h : IsPart occs S a l) : l = [] ↔ ∀ c q, ¬Part occs S a c q := by
  constructor
  · rintro rfl c q hq
    obtain ⟨x, hx, -⟩ := (h.positions c q).mpr hq
    exact absurd hx List.not_mem_nil
  · intro hno
    by_contra hne
    obtain ⟨c, q, hq⟩ := h.nonempty hne
    exact hno c q hq

/-- A merge in place stays inside of the buffer of the right-hand list. -/
theorem merge_in_place {n : ℕ} (h : IsPoslist l) (h' : IsPoslist l') (hne : l ≠ []) (hne' : l' ≠ [])
    (g : List ℕ) : ∃ o p2, fts3PoslistPhraseMerge none n false true { a := poslistBytes l' }
        (poslistBytes l ++ g) 0 = some (!(phraseCols n l l').isEmpty, o, g, p2) ∧
      o.top ≤ (poslistBytes l').length ∧ (∃ r, o.a = listOut (phraseCols n l l') ++ r) ∧
      o.p = (listOut (phraseCols n l l')).length ∧
      FitList 0 (common n l l') (poslistBytes l').length := by
  have hat : Out.At { a := poslistBytes l' } none 0 [] (poslistBytes l' ++ []) :=
    ⟨⟨_, rfl⟩, rfl, le_rfl, Nat.zero_le _, (List.append_nil _).symm, by simp⟩
  obtain ⟨o, p2, hrun, hstep⟩ := poslistPhraseMerge_hits (n := n) g h h' hne hne' hat fun _ => le_rfl
  have htop : o.top ≤ (poslistBytes l').length := hstep.state.inside.trans hstep.size.le
  exact ⟨o, p2, hrun, htop, hstep.state.written, hstep.state.pos, ((hstep.top _).mp htop).2⟩

/-- A merge into a new buffer. -/
theorem merge_apart {n : ℕ} (h : IsPoslist l) (h' : IsPoslist l') (hne : l ≠ []) (hne' : l' ≠ [])
    (g g' : List ℕ) : ∃ o p2, fts3PoslistPhraseMerge (some (poslistBytes l' ++ g')) n false true { a := [] }
        (poslistBytes l ++ g) 0 = some (!(phraseCols n l l').isEmpty, o, g, p2) ∧
      (∃ r, o.a = listOut (phraseCols n l l') ++ r) ∧ o.p = (listOut (phraseCols n l l')).length ∧
      ∀ N, o.top ≤ N ↔ FitList 0 (common n l l') N := by
  have hat : Out.At { a := [] } (some (poslistBytes l' ++ g')) 0 [] (poslistBytes l' ++ g') :=
    ⟨⟨[], rfl⟩, rfl, le_rfl, le_rfl, rfl, Nat.zero_add _⟩
  obtain ⟨o, p2, hrun, hstep⟩ := poslistPhraseMerge_hits (n := n) g h h' hne hne' hat fun hsrc => by
    simp at hsrc
  refine ⟨o, p2, hrun, hstep.state.written, hstep.state.pos, fun N => ?_⟩
  rw [hstep.top]
  exact ⟨fun h => h.2, fun h => ⟨Nat.zero_le N, h⟩⟩

/-- `i` is the last token of `S`. -/
def IsLast (S : ℕ → Prop) (i : ℕ) : Prop := S i ∧ ∀ j, S j → j ≤ i

/-- The loop has seen the deferred tokens of `S`. -/
def LoopAt (occs : ℕ → Poslist) (S : ℕ → Prop) (s : DeferredLoop) : Prop :=
  (s.aPoslist = none ∧ s.iPrev = -1 ∧ ∀ j, ¬S j) ∨ ∃ i l g, IsLast S i ∧
    s = ⟨some (poslistBytes l ++ g), (poslistBytes l).length, i⟩ ∧ l ≠ [] ∧ IsPart occs S i l

variable {s : DeferredLoop} {d : Fts3DeferredToken} {k : ℕ}

theorem listOut_length (l : Poslist) : (listOut l).length = 0 ↔ l = [] := by
  rw [listOut]
  split
  case isTrue hnil => simp [hnil]
  case isFalse hne => simp [hne, poslistBytes]

/-- The list of one token. -/
theorem isPart_single (h : IsPoslist (occs k)) : IsPart occs (fun j => j = k) k (occs k) := by
  refine ⟨h, fun c q => ⟨?_, fun hpart => ?_⟩⟩
  · rintro hq j rfl
    exact ⟨q, hq, rfl⟩
  · obtain ⟨x, hx, hxq⟩ := hpart k rfl
    obtain rfl : x = q := by omega
    exact hx

theorem deferredToken_step (h : LoopAt occs S s) (hS : ∀ j, S j → j < k) (hocc : IsPoslist (occs k))
    (hlist : sqlite3Fts3DeferredTokenList d =
      some (if occs k = [] then none else some (poslistBytes (occs k)))) :
    ∃ r, deferredToken k d s = some (r, true) ∧
      ((r = none ∧ ∀ c q, ¬Part occs (fun j => S j ∨ j = k) k c q) ∨
        ∃ s', r = some s' ∧ LoopAt occs (fun j => S j ∨ j = k) s') := by
  have hlast : IsLast (fun j => S j ∨ j = k) k := by
    refine ⟨.inr rfl, fun j hj => ?_⟩
    rcases hj with hj | rfl
    · exact (hS j hj).le
    · exact le_rfl
  have hone : IsPart occs (fun j => j = k) k (occs k) := isPart_single hocc
  rw [deferredToken, hlist]
  by_cases hnil : occs k = []
  · rw [if_pos hnil]
    refine ⟨none, by rfl, .inl ⟨rfl, fun c q hpart => ?_⟩⟩
    obtain ⟨x, ⟨e, he, -⟩, -⟩ := hpart k (.inr rfl)
    rw [hnil] at he
    exact absurd he List.not_mem_nil
  · rw [if_neg hnil]
    rcases h with ⟨hnone, -, hempty⟩ | ⟨i, l, g, hi, rfl, hne, hl⟩
    · simp only [hnone, Option.bind_eq_bind, Option.bind_some]
      refine ⟨_, rfl, .inr ⟨_, rfl, .inr ⟨k, occs k, [], hlast, by rw [List.append_nil], hnil, ?_⟩⟩⟩
      have hsame : (fun j => S j ∨ j = k) = fun j => j = k := by
        funext j
        simp [hempty j]
      rw [hsame]
      exact hone
    · have hik := hS i hi.1
      have hmerge := hl.merge hone hi.1 hik.le
      obtain ⟨o, p2, hrun, htop, ⟨r, hr⟩, hp, -⟩ :=
        merge_in_place (n := k - i) hl.poslist hocc hne hnil g
      have hdist : ((k - i : ℕ) : ℤ) = (k : ℤ) - i := by omega
      rw [hdist] at hrun
      simp only [Option.bind_eq_bind, Option.bind_some, hrun, decide_eq_true htop]
      by_cases hzero : phraseCols (k - i) l (occs k) = []
      · refine ⟨none, ?_, .inl ⟨rfl, hmerge.eq_nil_iff.mp hzero⟩⟩
        rw [if_pos (by rw [hp, listOut_length]; exact hzero)]
        rfl
      · refine ⟨_, ?_, .inr ⟨_, rfl, .inr ⟨k, phraseCols (k - i) l (occs k), r, hlast, rfl, hzero, hmerge⟩⟩⟩
        rw [if_neg (by rw [hp, listOut_length]; exact hzero), hp, hr, listOut, if_neg hzero]
        rfl

/-- Around another token. -/
theorem Part.move {last c q : ℕ} (h : Part occs S' last c q) (hS : ∀ j, S j → S' j) (hk : S' k) :
    ∃ x, Part occs S k c x := by
  obtain ⟨x, -, hx⟩ := h k hk
  refine ⟨x, fun j hj => ?_⟩
  obtain ⟨y, hy, hyq⟩ := h j (hS j hj)
  exact ⟨y, hy, by omega⟩

/-! The tokens of a phrase in a row. -/

def tokenOcc (iColumn : ℕ) (row : List (List (List ℕ × ℕ))) (t : Fts3PhraseToken) : Poslist :=
  occ ⟨t, iColumn, none⟩ row

/-- The positions of token `j` of the phrase. -/
def phraseOcc (iColumn : ℕ) (row : List (List (List ℕ × ℕ))) (aToken : List Fts3PhraseToken) (j : ℕ) :
    Poslist :=
  (aToken[j]?.map (tokenOcc iColumn row)).getD []

def IsDeferred (aToken : List Fts3PhraseToken) (j : ℕ) : Prop :=
  ∃ t k, aToken[j]? = some t ∧ t.pDeferred = some k

def IsLoaded (aToken : List Fts3PhraseToken) (j : ℕ) : Prop := ∃ t, aToken[j]? = some t ∧ t.pDeferred = none

variable {iColumn : ℕ} {iDocid : ℤ} {row : List (List (List ℕ × ℕ))} {aToken pre rest : List Fts3PhraseToken}
  {pDeferred : List Fts3DeferredToken}

theorem isPoslist_phraseOcc (hrow : IsText row) (j : ℕ) : IsPoslist (phraseOcc iColumn row aToken j) := by
  rw [phraseOcc]
  cases aToken[j]? with
  | none => exact (by decide : IsPoslist [])
  | some t => exact isPoslist_occ hrow

/-- What the loop reads of a deferred token. -/
theorem deferredList (iDocid : ℤ) (hrow : IsText row) (hnew : ∀ d ∈ pDeferred, d.pList = none)
    {t : Fts3PhraseToken}     (hd : pDeferred[k]? = some ⟨t, iColumn, none⟩) :
    ∃ d, (sqlite3Fts3CacheDeferredDoclists iDocid row pDeferred)[k]? = some d ∧
      sqlite3Fts3DeferredTokenList d =
        some (if tokenOcc iColumn row t = [] then none else some (poslistBytes (tokenOcc iColumn row t))) := by
  have hlists := congrArg (fun l => l[k]?) (@cacheDeferred_lists iDocid _ hrow pDeferred hnew)
  simp only [List.getElem?_map, hd, Option.map_some] at hlists
  exact Option.map_eq_some_iff.mp hlists

theorem deferredLoop_run (iDocid : ℤ) (pre : List Fts3PhraseToken) (hrow : IsText row)
    (hnew : ∀ d ∈ pDeferred, d.pList = none)
    (hdef : ∀ t ∈ aToken, ∀ k, t.pDeferred = some k → pDeferred[k]? = some ⟨t, iColumn, none⟩)
    (haToken : aToken = pre ++ rest)
    (h : LoopAt (phraseOcc iColumn row aToken) (fun j => IsDeferred aToken j ∧ j < pre.length) s) :
    ∃ r, deferredLoop (sqlite3Fts3CacheDeferredDoclists iDocid row pDeferred) pre.length rest s =
        some (r, true) ∧
      ((r = none ∧ ∀ last c q, ¬Part (phraseOcc iColumn row aToken) (IsDeferred aToken) last c q) ∨
        ∃ s', r = some s' ∧ LoopAt (phraseOcc iColumn row aToken) (IsDeferred aToken) s') := by
  induction rest generalizing pre s with
  | nil =>
    refine ⟨some s, rfl, .inr ⟨s, rfl, ?_⟩⟩
    have hsame : (fun j => IsDeferred aToken j ∧ j < pre.length) = IsDeferred aToken := by
      funext j
      rw [haToken, List.append_nil]
      refine propext ⟨fun h => h.1, fun h => ⟨h, ?_⟩⟩
      obtain ⟨t, k, ht, -⟩ := h
      exact (List.getElem?_eq_some_iff.mp ht).1
    rwa [hsame] at h
  | cons t rest ih =>
    have hget : aToken[pre.length]? = some t := by
      rw [haToken, List.getElem?_append_right le_rfl, Nat.sub_self]
      rfl
    have happ : aToken = (pre ++ [t]) ++ rest := by rw [haToken]; simp
    have hmem : t ∈ aToken := by rw [haToken]; simp
    rw [deferredLoop]
    have hlen : (pre ++ [t]).length = pre.length + 1 := by simp
    cases hpd : t.pDeferred with
    | none =>
      have hsame : (fun j => IsDeferred aToken j ∧ j < (pre ++ [t]).length) =
          fun j => IsDeferred aToken j ∧ j < pre.length := by
        funext j
        refine propext (and_congr_right fun hj => ?_)
        rw [hlen]
        have hne : j ≠ pre.length := by
          rintro rfl
          obtain ⟨t', k, ht', hk⟩ := hj
          obtain rfl : t = t' := Option.some.inj (hget.symm.trans ht')
          rw [hpd] at hk
          exact absurd hk (by simp)
        omega
      rw [← hsame] at h
      have := ih _ happ h
      rwa [hlen] at this
    | some k =>
      obtain ⟨d, hd, hlist⟩ := deferredList iDocid hrow hnew (hdef t hmem k hpd)
      have hocc : tokenOcc iColumn row t = phraseOcc iColumn row aToken pre.length := by
        rw [phraseOcc, hget]
        rfl
      have hsame : (fun j => (IsDeferred aToken j ∧ j < pre.length) ∨ j = pre.length) =
          fun j => IsDeferred aToken j ∧ j < (pre ++ [t]).length := by
        funext j
        rw [hlen]
        refine propext ⟨fun h => ?_, fun h => ?_⟩
        · rcases h with ⟨h1, h2⟩ | rfl
          · exact ⟨h1, by omega⟩
          · exact ⟨⟨t, k, hget, hpd⟩, by omega⟩
        · by_cases hj : j = pre.length
          · exact .inr hj
          · exact .inl ⟨h.1, by omega⟩
      rw [hocc] at hlist
      obtain ⟨r, hrun, hr⟩ := deferredToken_step h (fun j hj => hj.2) (isPoslist_phraseOcc hrow _) hlist
      simp only [hd, hrun, Option.bind_eq_bind, Option.bind_some]
      rw [hsame] at hr
      rcases hr with ⟨rfl, hno⟩ | ⟨s', rfl, hs'⟩
      · refine ⟨none, rfl, .inl ⟨rfl, fun last c q hpart => ?_⟩⟩
        obtain ⟨x, hx⟩ := hpart.move (fun j (hj : IsDeferred aToken j ∧ j < (pre ++ [t]).length) => hj.1)
          ⟨t, k, hget, hpd⟩
        exact hno c x hx
      · obtain ⟨r, hrest, hr⟩ := ih _ happ hs'
        rw [hlen] at hrest
        refine ⟨r, ?_, hr⟩
        simp only [hrest, Option.bind_some]
        rfl

/-- A position list is known by its positions. -/
theorem poslist_ext (h : IsPoslist l) (h' : IsPoslist l') (hpos : ∀ c q, HasPos l c q ↔ HasPos l' c q) :
    l = l' := by
  have hkey : ∀ {l : Poslist}, IsPoslist l → ∀ x ∈ l, ∀ q, HasPos l x.1 q ↔ q ∈ x.2 := by
    intro l h x hx q
    refine ⟨?_, fun hq => ⟨x, hx, rfl, hq⟩⟩
    rintro ⟨y, hy, hyx, hq⟩
    rwa [Ascends.key_inj Nat.lt_irrefl h.columns hy hx hyx] at hq
  have hsub : ∀ {l l' : Poslist}, IsPoslist l → IsPoslist l' → (∀ c q, HasPos l c q ↔ HasPos l' c q) →
      ∀ x ∈ l, x ∈ l' := by
    intro l l' h h' hpos x hx
    obtain ⟨q, r, hq⟩ := List.exists_cons_of_ne_nil (h.nonempty x hx)
    obtain ⟨y, hy, hyx, -⟩ := (hpos x.1 q).mp ⟨x, hx, rfl, by rw [hq]; exact List.mem_cons_self⟩
    have hsame : x.2 = y.2 := by
      refine (h.positions x hx).eq_of_mem_iff (h'.positions y hy) fun q => ?_
      rw [← hkey h x hx, ← hkey h' y hy, hyx, hpos]
    rwa [Prod.ext hyx.symm hsame]
  have hanti : Std.Antisymm fun x y : ℕ × List ℕ => x.1 < y.1 := ⟨fun x y hxy hyx => by omega⟩
  have hirrefl : Std.Irrefl fun x y : ℕ × List ℕ => x.1 < y.1 := ⟨fun x => Nat.lt_irrefl x.1⟩
  exact List.Pairwise.eq_of_mem_iff h.columns h'.columns fun x =>
    ⟨hsub h h' hpos x, hsub h' h (fun c q => (hpos c q).symm) x⟩

theorem IsPart.unique (h : IsPart occs S a l) (h' : IsPart occs S a l') : l = l' :=
  poslist_ext h.poslist h'.poslist fun c q => (h.positions c q).trans (h'.positions c q).symm

/-- What loading has left: the position list of the tokens that are not deferred. -/
def Loaded (occs : ℕ → Poslist) (aToken : List Fts3PhraseToken) (iDoclistToken : ℤ) (doclist : Fts3Doclist) :
    Prop :=
  (iDoclistToken = -1 ∧ ∀ j, ¬IsLoaded aToken j) ∨ ∃ i l g, iDoclistToken = (i : ℕ) ∧
    IsLast (IsLoaded aToken) i ∧ l ≠ [] ∧ IsPart occs (IsLoaded aToken) i l ∧
    doclist = ⟨some (poslistBytes l ++ g), (poslistBytes l).length⟩

/-- The output has room, where the last token that is loaded comes after the last one that is deferred: the
buffer is as large as the list of the deferred tokens, and 8 bytes. -/
def HasRoom (occs : ℕ → Poslist) (aToken : List Fts3PhraseToken) : Prop :=
  ∀ i j l l', IsLast (IsLoaded aToken) i → IsLast (IsDeferred aToken) j → j < i →
    IsPart occs (IsDeferred aToken) j l → IsPart occs (IsLoaded aToken) i l' → l ≠ [] →
    FitList 0 (common (i - j) l l') ((poslistBytes l).length + 8)

theorem IsLast.unique (h : IsLast S a) (h' : IsLast S b) : a = b :=
  Nat.le_antisymm (h'.2 a h.1) (h.2 b h'.1)

theorem isToken_iff (j : ℕ) : IsDeferred aToken j ∨ IsLoaded aToken j ↔ j < aToken.length := by
  constructor
  · rintro (⟨t, k, ht, -⟩ | ⟨t, ht, -⟩) <;> exact (List.getElem?_eq_some_iff.mp ht).1
  · intro hj
    cases hpd : aToken[j].pDeferred with
    | none => exact .inr ⟨_, List.getElem?_eq_getElem hj, hpd⟩
    | some k => exact .inl ⟨_, k, List.getElem?_eq_getElem hj, hpd⟩

theorem not_both {j : ℕ} (h : IsDeferred aToken j) (h' : IsLoaded aToken j) : False := by
  obtain ⟨t, k, ht, hk⟩ := h
  obtain ⟨t', ht', hnone⟩ := h'
  obtain rfl : t = t' := Option.some.inj (ht.symm.trans ht')
  rw [hk] at hnone
  exact absurd hnone (by simp)

theorem isLast_length {k : ℕ} (h : IsLast (fun j => j < aToken.length) k) : k = aToken.length - 1 := by
  have h1 : k < aToken.length := h.1
  have h2 := h.2 (aToken.length - 1) (by omega)
  omega

theorem whole_eq : (fun j => IsDeferred aToken j ∨ IsLoaded aToken j) = fun j => j < aToken.length :=
  funext fun j => propext (isToken_iff j)

theorem whole_eq' : (fun j => IsLoaded aToken j ∨ IsDeferred aToken j) = fun j => j < aToken.length :=
  funext fun j => propext (or_comm.trans (isToken_iff j))

/-! The cases after the loop. -/

section AfterLoop

variable {iDoclistToken : ℤ} {doclist : Fts3Doclist} {aPoslist pList g : List ℕ} {nPoslist i j : ℕ}
  {res : Bool} {o : Out} {p2 : ℕ}

theorem deferredPhrase_none (h : deferredLoop pDeferred 0 aToken ⟨none, 0, -1⟩ = some (none, true)) :
    fts3EvalDeferredPhrase pDeferred aToken iDoclistToken doclist = some (⟨none, 0⟩, true) := by
  rw [fts3EvalDeferredPhrase, h]
  rfl

theorem deferredPhrase_kept (h : deferredLoop pDeferred 0 aToken ⟨none, 0, -1⟩ = some (some s, true))
    (hprev : s.iPrev = -1) :
    fts3EvalDeferredPhrase pDeferred aToken iDoclistToken doclist = some (doclist, true) := by
  rw [fts3EvalDeferredPhrase, h]
  simp only [Option.bind_eq_bind, Option.bind_some]
  rw [if_neg (by omega)]
  rfl

theorem deferredPhrase_all (h : deferredLoop pDeferred 0 aToken ⟨none, 0, -1⟩ = some (some s, true))
    (hprev : 0 ≤ s.iPrev) :
    fts3EvalDeferredPhrase pDeferred aToken (-1) doclist = some (⟨s.aPoslist, s.nPoslist⟩, true) := by
  rw [fts3EvalDeferredPhrase, h]
  simp only [Option.bind_eq_bind, Option.bind_some]
  rw [if_pos hprev]
  rfl

/-- The last token is deferred. -/
theorem deferredPhrase_before (nList : ℕ) (hij : i < j)
    (h : deferredLoop pDeferred 0 aToken ⟨none, 0, -1⟩ = some (some ⟨some aPoslist, nPoslist, j⟩, true))
    (hrun : fts3PoslistPhraseMerge (some aPoslist) (j - i : ℕ) false true { a := [] } pList 0 =
      some (res, o, g, p2)) :
    fts3EvalDeferredPhrase pDeferred aToken i ⟨some pList, nList⟩ =
      some (if res then ⟨some o.a, o.p⟩ else ⟨none, 0⟩, decide (o.top ≤ nPoslist + 8)) := by
  have hdist : ((j - i : ℕ) : ℤ) = (j : ℤ) - i := by omega
  have hgt : ¬(i : ℤ) > j := by omega
  rw [hdist] at hrun
  rw [fts3EvalDeferredPhrase, h]
  simp only [Option.bind_eq_bind, Option.bind_some, if_neg hgt, hrun]
  rw [if_pos (by omega), if_neg (by omega)]
  rfl

/-- The last token is not deferred. -/
theorem deferredPhrase_after (nList : ℕ) (hij : j < i)
    (h : deferredLoop pDeferred 0 aToken ⟨none, 0, -1⟩ = some (some ⟨some aPoslist, nPoslist, j⟩, true))
    (hrun : fts3PoslistPhraseMerge (some pList) (i - j : ℕ) false true { a := [] } aPoslist 0 =
      some (res, o, g, p2)) :
    fts3EvalDeferredPhrase pDeferred aToken i ⟨some pList, nList⟩ =
      some (if res then ⟨some o.a, o.p⟩ else ⟨none, 0⟩, decide (o.top ≤ nPoslist + 8)) := by
  have hdist : ((i - j : ℕ) : ℤ) = (i : ℤ) - j := by omega
  have hgt : (i : ℤ) > j := by omega
  rw [hdist] at hrun
  rw [fts3EvalDeferredPhrase, h]
  simp only [Option.bind_eq_bind, Option.bind_some, if_pos hgt, hrun]
  rw [if_pos (by omega), if_neg (by omega)]
  rfl

/-- What the phrase has after a merge. -/
theorem merged_list {r : List ℕ} (hres : res = !l.isEmpty) (ha : o.a = listOut l ++ r)
    (hp : o.p = (listOut l).length) :
    (if res then (⟨some o.a, o.p⟩ : Fts3Doclist) else ⟨none, 0⟩).pList.map
      (·.take (if res then (⟨some o.a, o.p⟩ : Fts3Doclist) else ⟨none, 0⟩).nList) =
      if l = [] then none else some (poslistBytes l) := by
  by_cases hnil : l = []
  · rw [if_pos hnil, hres, hnil]
    rfl
  · have hsome : res = true := by simpa [hres] using hnil
    rw [if_neg hnil, if_pos hsome]
    simp only [ha, hp, listOut, if_neg hnil, Option.map_some, List.take_left]

end AfterLoop

/-- The position list of the phrase is the one of all its tokens, and all writes are inside of their buffers,
if and only if the output has room. -/
theorem deferredPhrase_iff (iDocid : ℤ) (iColumn : ℕ) (row : List (List (List ℕ × ℕ)))
    (pDeferred : List Fts3DeferredToken) (aToken : List Fts3PhraseToken) (iDoclistToken : ℤ)
    (doclist : Fts3Doclist) (hrow : IsText row) (hnew : ∀ d ∈ pDeferred, d.pList = none)
    (hdef : ∀ t ∈ aToken, ∀ k, t.pDeferred = some k → pDeferred[k]? = some ⟨t, iColumn, none⟩)
    (hloaded : Loaded (phraseOcc iColumn row aToken) aToken iDoclistToken doclist) (hne : aToken ≠ []) :
    (∃ r out, fts3EvalDeferredPhrase (sqlite3Fts3CacheDeferredDoclists iDocid row pDeferred) aToken
        iDoclistToken doclist = some (r, true) ∧
      IsPart (phraseOcc iColumn row aToken) (fun j => j < aToken.length) (aToken.length - 1) out ∧
      r.pList.map (·.take r.nList) = if out = [] then none else some (poslistBytes out)) ↔
      HasRoom (phraseOcc iColumn row aToken) aToken := by
  have hlen : 0 < aToken.length := List.length_pos_iff.mpr hne
  obtain ⟨r, hrun, hr⟩ := deferredLoop_run iDocid [] (s := ⟨none, 0, -1⟩) hrow hnew hdef
    (List.nil_append aToken).symm (.inl ⟨rfl, rfl, fun j hj => Nat.not_lt_zero j hj.2⟩)
  rw [List.length_nil] at hrun
  have htake : ∀ (l : Poslist) (g : List ℕ), l ≠ [] →
      (some (poslistBytes l ++ g)).map (·.take (poslistBytes l).length) =
        if l = [] then none else some (poslistBytes l) := by
    intro l g hne
    rw [Option.map_some, List.take_left, if_neg hne]
  rcases hr with ⟨rfl, hno⟩ | ⟨s, rfl, hs⟩
  · -- The deferred tokens are nowhere together.
    constructor
    · intro _ i j l l' hi hj hlt hl _ hne
      obtain ⟨c, q, hq⟩ := hl.nonempty hne
      exact absurd hq (hno j c q)
    · intro _
      refine ⟨_, [], deferredPhrase_none hrun, ⟨by decide, fun c q => ⟨?_, fun hpart => ?_⟩⟩, rfl⟩
      · rintro ⟨x, hx, -⟩
        exact absurd hx List.not_mem_nil
      · exact absurd (fun j hj => hpart j ((isToken_iff j).mp (.inl hj))) (hno (aToken.length - 1) c q)
  rcases hs with ⟨-, hprev, hempty⟩ | ⟨j, l, g, hj, rfl, hne', hl⟩
  · -- No token is deferred.
    rcases hloaded with ⟨-, hnone⟩ | ⟨i, l, g, rfl, hi, hne', hl, rfl⟩
    · exact ((isToken_iff 0).mpr hlen).elim (fun h => absurd h (hempty 0)) fun h => absurd h (hnone 0)
    · have hwhole : IsLoaded aToken = fun j => j < aToken.length := by
        rw [← whole_eq]
        funext k
        simp [hempty k]
      rw [hwhole] at hi hl
      constructor
      · intro _ i j l l' _ hj
        exact absurd hj.1 (hempty j)
      · intro _
        exact ⟨_, l, deferredPhrase_kept hrun hprev, isLast_length hi ▸ hl, htake l g hne'⟩
  rcases hloaded with ⟨rfl, hnone⟩ | ⟨i, l', g', rfl, hi, hne'', hl', rfl⟩
  · -- All tokens are deferred.
    have hwhole : IsDeferred aToken = fun j => j < aToken.length := by
      rw [← whole_eq]
      funext k
      simp [hnone k]
    rw [hwhole] at hj hl
    constructor
    · intro _ i j l l' hi
      exact absurd hi.1 (hnone i)
    · intro _
      exact ⟨_, l, deferredPhrase_all hrun (Int.natCast_nonneg j), isLast_length hj ▸ hl, htake l g hne'⟩
  have hij : i ≠ j := by
    rintro rfl
    exact not_both hj.1 hi.1
  rcases Nat.lt_or_gt_of_ne hij with hlt | hgt
  · -- The last token is deferred: the output is a part of the list of the deferred tokens.
    have hmerge := hl'.merge hl hi.1 hlt.le
    rw [whole_eq'] at hmerge
    obtain ⟨o, p2, hmrun, ⟨r, hr⟩, hp, htop⟩ :=
      merge_apart (n := j - i) hl'.poslist hl.poslist hne'' hne' g' g
    obtain ⟨-, -, -, -, -, -, hfit⟩ := merge_in_place (n := j - i) hl'.poslist hl.poslist hne'' hne' []
    have hinside : decide (o.top ≤ (poslistBytes l).length + 8) = true :=
      decide_eq_true (((htop _).mpr hfit).trans (Nat.le_add_right _ 8))
    have heval := deferredPhrase_before (poslistBytes l').length hlt hrun hmrun
    rw [hinside] at heval
    have hlast : j = aToken.length - 1 := by
      refine isLast_length ⟨(isToken_iff j).mp (.inl hj.1), fun k hk => ?_⟩
      rcases (isToken_iff k).mpr hk with hk | hk
      · exact hj.2 k hk
      · exact (hi.2 k hk).trans hlt.le
    constructor
    · intro _ i' j' k k' hi' hj' hlt'
      rw [hi.unique hi', hj.unique hj'] at hlt
      omega
    · intro _
      exact ⟨_, _, heval, hlast ▸ hmerge, merged_list rfl hr hp⟩
  · -- The last token is loaded: the output is a part of its list.
    have hmerge := hl.merge hl' hj.1 hgt.le
    rw [whole_eq] at hmerge
    obtain ⟨o, p2, hmrun, ⟨r, hr⟩, hp, htop⟩ :=
      merge_apart (n := i - j) hl.poslist hl'.poslist hne' hne'' g g'
    have heval := deferredPhrase_after (poslistBytes l').length hgt hrun hmrun
    have hlast : i = aToken.length - 1 := by
      refine isLast_length ⟨(isToken_iff i).mp (.inr hi.1), fun k hk => ?_⟩
      rcases (isToken_iff k).mpr hk with hk | hk
      · exact (hj.2 k hk).trans hgt.le
      · exact hi.2 k hk
    constructor
    · rintro ⟨x, out, hx, -, -⟩ i' j' k k' hi' hj' - hk hk' -
      obtain rfl := hi.unique hi'
      obtain rfl := hj.unique hj'
      obtain rfl := hl.unique hk
      obtain rfl := hl'.unique hk'
      rw [heval] at hx
      simp only [Option.some.injEq, Prod.mk.injEq, decide_eq_true_eq] at hx
      exact (htop _).mp hx.2
    · intro hroom
      have hinside : decide (o.top ≤ (poslistBytes l).length + 8) = true :=
        decide_eq_true ((htop _).mpr (hroom i j l l' hi hj hgt hl hl' hne'))
      rw [hinside] at heval
      exact ⟨_, _, heval, hlast ▸ hmerge, merged_list rfl hr hp⟩

/-- The second one of two tokens is loaded. -/
theorem loaded_second {t t' : Fts3PhraseToken} (ht : t.pDeferred = some k) (ht' : t'.pDeferred = none)
    (hrow : IsText row) (hocc : phraseOcc iColumn row [t, t'] 1 = l) (hne : l ≠ []) :
    Loaded (phraseOcc iColumn row [t, t']) [t, t'] 1 ⟨some (poslistBytes l), (poslistBytes l).length⟩ := by
  have hsame : IsLoaded [t, t'] = fun j => j = 1 := by
    funext j
    refine propext ⟨?_, fun hj => ⟨t', by rw [hj]; rfl, ht'⟩⟩
    rintro ⟨x, hx, hnone⟩
    rcases j with _ | _ | j
    · obtain rfl : t = x := Option.some.inj hx
      rw [ht] at hnone
      exact absurd hnone (by simp)
    · rfl
    · exact absurd hx (by simp)
  refine .inr ⟨1, l, [], rfl, ?_, hne, ?_, by rw [List.append_nil]⟩
  · rw [hsame]
    exact ⟨rfl, fun j hj => le_of_eq hj⟩
  · rw [hsame, ← hocc]
    exact isPart_single (isPoslist_phraseOcc hrow 1)

/-- Nine columns, each with a deferred token at position 125 and the other one at 126: a position takes one
byte in the list of the first and two in the output. -/
theorem deferredPhrase_overflow : ∃ (row : List (List (List ℕ × ℕ))) (t t' : Fts3PhraseToken)
    (doclist : Fts3Doclist), IsText row ∧ t.pDeferred = some 0 ∧ t'.pDeferred = none ∧
    Loaded (phraseOcc 9 row [t, t']) [t, t'] 1 doclist ∧
    (fts3EvalDeferredPhrase (sqlite3Fts3CacheDeferredDoclists 1 row [⟨t, 9, none⟩]) [t, t'] 1 doclist).map
      (·.2) = some false ∧
    ¬∃ r out, fts3EvalDeferredPhrase (sqlite3Fts3CacheDeferredDoclists 1 row [⟨t, 9, none⟩]) [t, t'] 1
        doclist = some (r, true) ∧
      IsPart (phraseOcc 9 row [t, t']) (fun j => j < 2) 1 out ∧
      r.pList.map (·.take r.nList) = if out = [] then none else some (poslistBytes out) := by
  let zText : List (List ℕ × ℕ) := (List.range 125).map (fun i => ([120], i)) ++ [([97], 125), ([98], 126)]
  let row : List (List (List ℕ × ℕ)) := List.replicate 9 zText
  let t : Fts3PhraseToken := ⟨[97], false, false, some 0⟩
  let t' : Fts3PhraseToken := ⟨[98], false, false, none⟩
  let l : Poslist := (List.range 9).map fun c => (c, [125])
  let l' : Poslist := (List.range 9).map fun c => (c, [126])
  have hocc : occ ⟨t, 9, none⟩ row = l := by decide +kernel
  have hocc' : phraseOcc 9 row [t, t'] 1 = l' := by decide +kernel
  have hasc : zText.Pairwise (·.2 < ·.2) := by
    rw [List.pairwise_append, List.pairwise_map]
    refine ⟨List.pairwise_lt_range, by decide, ?_⟩
    simp only [List.mem_map, List.mem_range]
    rintro x ⟨i, hi, rfl⟩ y hy
    simp only [List.mem_cons, List.not_mem_nil, or_false] at hy
    rcases hy with rfl | rfl <;> simp only <;> omega
  have htext : IsText row := by
    refine ⟨by decide, fun z hz => ?_, fun z hz => ?_⟩
    · rw [(List.mem_replicate.mp hz).2]
      exact hasc
    · rw [(List.mem_replicate.mp hz).2]
      decide +kernel
  have hlists := @cacheDeferred_lists 1 _ htext [⟨t, 9, none⟩] (by simp)
  obtain ⟨d, hd⟩ : ∃ d, sqlite3Fts3CacheDeferredDoclists 1 row [⟨t, 9, none⟩] = [d] :=
    List.length_eq_one_iff.mp (by simpa using congrArg List.length hlists)
  have hlist : sqlite3Fts3DeferredTokenList d = some (some (poslistBytes l)) := by
    rw [hd] at hlists
    simp only [List.map_cons, List.map_nil, List.cons.injEq, and_true] at hlists
    rw [hlists, ← hocc]
    decide
  have hloop : deferredLoop [d] 0 [t, t'] ⟨none, 0, -1⟩ =
      some (some ⟨some (poslistBytes l), (poslistBytes l).length, (0 : ℕ)⟩, true) := by
    change Option.bind (deferredToken 0 d ⟨none, 0, -1⟩) _ = _
    rw [deferredToken, hlist]
    rfl
  have hmerge : (fts3PoslistPhraseMerge (some (poslistBytes l')) (1 - 0 : ℕ) false true { a := [] }
      (poslistBytes l) 0).map (fun x => decide (x.2.1.top ≤ (poslistBytes l).length + 8)) = some false := by
    decide +kernel
  obtain ⟨⟨res, o, g, p2⟩, hmrun, htop⟩ := Option.map_eq_some_iff.mp hmerge
  have hrun : (fts3EvalDeferredPhrase (sqlite3Fts3CacheDeferredDoclists 1 row [⟨t, 9, none⟩]) [t, t'] 1
      ⟨some (poslistBytes l'), (poslistBytes l').length⟩).map (·.2) = some false := by
    rw [hd]
    exact (congrArg _ (deferredPhrase_after _ Nat.zero_lt_one hloop hmrun)).trans (congrArg some htop)
  refine ⟨row, t, t', _, htext, rfl, rfl, loaded_second rfl rfl htext hocc' (by decide), hrun, ?_⟩
  rintro ⟨r, out, hsome, -⟩
  rw [hsome] at hrun
  exact absurd hrun (by simp)

/-- A phrase of two tokens, the first one deferred. -/
theorem deferredPhrase_iff_two : ∃ (row : List (List (List ℕ × ℕ))) (t t' : Fts3PhraseToken)
    (doclist : Fts3Doclist), ∃ (_ : IsText row)
    (_ : ∀ d ∈ [(⟨t, 2, none⟩ : Fts3DeferredToken)], d.pList = none)
    (_ : ∀ x ∈ [t, t'], ∀ k, x.pDeferred = some k →
      [(⟨t, 2, none⟩ : Fts3DeferredToken)][k]? = some ⟨x, 2, none⟩)
    (_ : Loaded (phraseOcc 2 row [t, t']) [t, t'] 1 doclist) (_ : [t, t'] ≠ []),
    (∃ r out, fts3EvalDeferredPhrase (sqlite3Fts3CacheDeferredDoclists 7 row [⟨t, 2, none⟩]) [t, t'] 1
        doclist = some (r, true) ∧
      IsPart (phraseOcc 2 row [t, t']) (fun j => j < [t, t'].length) ([t, t'].length - 1) out ∧
      r.pList.map (·.take r.nList) = if out = [] then none else some (poslistBytes out)) ↔
      HasRoom (phraseOcc 2 row [t, t']) [t, t'] := by
  let row : List (List (List ℕ × ℕ)) := [[([98], 0), ([97], 1), ([98], 2)], [([97], 0), ([98], 1)]]
  let t : Fts3PhraseToken := ⟨[97], false, false, some 0⟩
  let t' : Fts3PhraseToken := ⟨[98], false, false, none⟩
  have htext : IsText row := ⟨by decide, by decide, by decide⟩
  have hdef : ∀ x ∈ [t, t'], ∀ k, x.pDeferred = some k →
      [(⟨t, 2, none⟩ : Fts3DeferredToken)][k]? = some ⟨x, 2, none⟩ := by
    intro x hx k hk
    simp only [List.mem_cons, List.not_mem_nil, or_false] at hx
    rcases hx with rfl | rfl
    · obtain rfl : 0 = k := Option.some.inj hk
      rfl
    · exact absurd hk (by simp [t'])
  have hocc : phraseOcc 2 row [t, t'] 1 = [(0, [0, 2]), (1, [1])] := by decide +kernel
  have hloaded := loaded_second rfl rfl htext hocc (by decide)
  exact ⟨row, t, t', _, htext, by simp, hdef, hloaded, by simp,
    deferredPhrase_iff 7 2 row _ _ _ _ htext (by simp) hdef hloaded (by simp)⟩

end Sqlite.Doclist

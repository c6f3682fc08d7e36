import Sqlite.Freelist.Search

/-! A page that is allocated was an unused one, or is behind the end of the file. -/
namespace Sqlite.Freelist
open Sqlite.Foundation

section

section
variable {c : Config} {s : BtShared} {A B L : Chain} {t nearby : ℕ} {ls : List ℕ}

/-- One round of the loop, at a trunk whose page can be had. -/
theorem allocateLoop_succ {n : ℕ} {prev : Option ℕ} {search : Bool} (ht : link s.page prev = t)
    (hord : Ordinary c s t) (hts : TrunkIs s.page t ls) (hroom : ls.length ≤ c.usableSize / 4 - 2) :
    allocateLoop c s.nPage nearby search (n + 1) prev s =
      if ls.length = 0 ∧ ¬ search then
        some (.SQLITE_OK, t, { s with page := put4byte s.page 1 32 (get4byte s.page t 0) })
      else if search ∧ nearby = t then
        if ls.length = 0 then
          some (.SQLITE_OK, t, { s with page := putLink s.page prev (get4byte s.page t 0) })
        else if s.nPage < leafAt s.page t 0 ∨
            (btreeGetPage c s (leafAt s.page t 0) false).1 ≠ .SQLITE_OK then
          some (.SQLITE_CORRUPT, 0, s)
        else
          let q : Pages :=
            putLink (promote s.page t (leafAt s.page t 0) ls.length) prev (leafAt s.page t 0)
          some (.SQLITE_OK, t, { s with page := q })
      else if 0 < ls.length then
        let closest := closestLeaf (leafAt s.page t) ls.length nearby
        let iPage := leafAt s.page t closest
        if s.nPage < iPage then some (.SQLITE_CORRUPT, 0, s)
        else if ¬ search ∨ iPage = nearby then
          let s1 := { s with page := takeLeaf s.page t closest ls.length }
          let r := btreeGetPage c s1 iPage (! btreeGetHasContent s1 iPage)
          some (r.1, iPage, r.2)
        else allocateLoop c s.nPage nearby search n (some t) s
      else allocateLoop c s.nPage nearby search n (some t) s := by
  have hle := hord.le
  have hget := hord.getPage
  subst ht
  cases prev with
  | none =>
    simp only [link] at *
    rw [allocateLoop]
    simp only [hts.count, hget, if_neg (not_lt.mpr hroom)]
    rw [if_neg (by simp; omega)]
    rfl
  | some u =>
    simp only [link] at *
    rw [allocateLoop]
    simp only [hts.count, hget, if_neg (not_lt.mpr hroom)]
    rw [if_neg (by simp; omega)]
    rfl

/-- The page that is looked at is a leaf that the list has. -/
theorem closest_leaf (hts : TrunkIs s.page t ls) (hls : ls ≠ []) :
    ls[closestLeaf (leafAt s.page t) ls.length nearby]? =
      some (leafAt s.page t (closestLeaf (leafAt s.page t) ls.length nearby)) := by
  have hlt := closestLeaf_lt (leafAt s.page t) nearby (List.length_pos_iff.mpr hls)
  have hsome := List.getElem?_eq_getElem hlt
  rw [hsome, hts.leaf _ _ hsome]

/-- An ordinary page can be had with its content or without it. -/
theorem getPage_ordinary {p : ℕ} (h : Ordinary c s p) (hn : s.nPage ≤ c.mxPgno) (noContent : Bool) :
    ∃ s2, btreeGetPage c s p noContent = (.SQLITE_OK, s2) ∧ s2.nPage = s.nPage ∧
      ∀ q, q ≠ p → s2.page q = s.page q := by
  have hge := h.ge
  have hle := h.le
  unfold btreeGetPage
  rw [if_neg (by rintro (h0 | h0); omega; exact h.pending h0)]
  split_ifs with hno hmax
  · omega
  · exact ⟨_, rfl, rfl, fun q hq => Function.update_of_ne hq _ _⟩
  · exact ⟨_, rfl, rfl, fun _ _ => rfl⟩

/-- The nearest leaf of a trunk is taken. -/
theorem Listed.takeClosest (h : Listed c s (A ++ (t, ls) :: B)) (nearby : ℕ) (hls : ls ≠ [])
    (hts : TrunkIs s.page t ls) :
    let closest := closestLeaf (leafAt s.page t) ls.length nearby
    let iPage := leafAt s.page t closest
    let s1 : BtShared := { s with page := Freelist.takeLeaf s.page t closest ls.length }
    iPage ≤ s.nPage ∧ ∃ s2, btreeGetPage c s1 iPage (! btreeGetHasContent s1 iPage) =
      (.SQLITE_OK, s2) ∧
      Took s (A ++ (t, ls) :: B) iPage s2 (A ++ (t, swapRemove ls closest) :: B) := by
  intro closest iPage s1
  have hsome : ls[closest]? = some iPage := closest_leaf hts hls
  have hmem : iPage ∈ ls := List.mem_of_getElem? hsome
  have hord : Ordinary c s iPage := h.ordinary _ (by simp [mem_free_middle, hmem])
  have hord1 : Ordinary c s1 iPage := hord.congr rfl
  obtain ⟨s2, hget, hn, hpage⟩ := getPage_ordinary hord1 h.nPage_le
    (! btreeGetHasContent s1 iPage)
  exact ⟨hord.le, s2, hget, h.takeLeaf hsome hn hpage⟩

/-- The search goes on behind the trunks `A`, and takes a page of `B`. -/
theorem allocateLoop_spec {search : Bool} {fuel : ℕ} (h : Listed c s (A ++ B))
    (hone : search = false → A = [] ∧ B ≠ []) (hfind : search = true → nearby ∈ free B)
    (hfuel : B.length < fuel) :
    ∃ p s2 L2, allocateLoop c s.nPage nearby search fuel (lastTrunk A) s =
      some (.SQLITE_OK, p, s2) ∧ Took s (A ++ B) p s2 L2 ∧ (search = true → p = nearby) := by
  induction B generalizing A fuel with
  | nil =>
    cases search
    · exact absurd rfl (hone rfl).2
    · exact absurd (hfind rfl) (by simp [free])
  | cons x B ih =>
    obtain ⟨t, ls⟩ := x
    obtain ⟨n, rfl⟩ : ∃ n, fuel = n + 1 := ⟨fuel - 1, by omega⟩
    have hassoc : A ++ (t, ls) :: B = (A ++ [(t, ls)]) ++ B := by simp
    have hord := h.ordinary t (by simp [mem_free_middle])
    have hroom : ls.length ≤ c.usableSize / 4 - 2 := h.room (t, ls) (by simp)
    obtain ⟨u, hA, hu, hts, hB⟩ := h.linked.split
    have hlink : link s.page (lastTrunk A) = t := hA.link_last.trans hu
    rw [allocateLoop_succ hlink hord hts hroom]
    -- the search goes on behind this trunk
    have hnext (hs : search = true) (hne : nearby ≠ t) (hnls : nearby ∉ ls) :
        ∃ p s2 L2, allocateLoop c s.nPage nearby search n (some t) s = some (.SQLITE_OK, p, s2) ∧
          Took s (A ++ (t, ls) :: B) p s2 L2 ∧ (search = true → p = nearby) := by
      rw [hassoc, ← lastTrunk_concat A (t, ls)]
      refine ih (hassoc ▸ h) (fun hf => by simp [hs] at hf) (fun _ => ?_) (by
        simp only [List.length_cons] at hfuel
        omega)
      have hmem := hfind hs
      rw [mem_free_cons] at hmem
      rcases hmem with (hmem | hmem) | hmem
      · exact absurd hmem hne
      · exact absurd hmem hnls
      · exact hmem
    by_cases hempty : ls.length = 0 ∧ ¬ search
    · obtain ⟨hnil, hsearch⟩ := hempty
      obtain rfl := List.length_eq_zero_iff.mp hnil
      obtain ⟨rfl, -⟩ := hone (by simpa using hsearch)
      rw [if_pos ⟨hnil, hsearch⟩]
      exact ⟨t, _, _, rfl, h.unlink, fun hs => absurd hs hsearch⟩
    rw [if_neg hempty]
    by_cases htrunk : search ∧ nearby = t
    · rw [if_pos htrunk]
      cases ls with
      | nil => exact ⟨t, _, _, rfl, h.unlink, fun _ => htrunk.2.symm⟩
      | cons l ls =>
        have hl : leafAt s.page t 0 = l := hts.leaf 0 l rfl
        have hordl := h.ordinary l (by simp [mem_free_middle])
        have hget := hordl.getPage
        have hle := hordl.le
        rw [if_neg (by simp), hl, if_neg (by simp [hget]; omega)]
        exact ⟨t, _, (A ++ (l, ls) :: B), rfl, h.promote, fun _ => htrunk.2.symm⟩
    rw [if_neg htrunk]
    by_cases hls : ls = []
    · subst hls
      have hs : search = true := by simpa using hempty
      rw [List.length_nil, if_neg (lt_irrefl 0)]
      exact hnext hs (fun e => htrunk ⟨hs, e⟩) (by simp)
    · obtain ⟨hle, s2, hget, htook⟩ := h.takeClosest nearby hls hts
      rw [if_pos (List.length_pos_iff.mpr hls)]
      dsimp only at hle hget htook ⊢
      rw [if_neg (not_lt.mpr hle), hget]
      by_cases htake : ¬ search ∨ leafAt s.page t
          (closestLeaf (leafAt s.page t) ls.length nearby) = nearby
      · rw [if_pos htake]
        refine ⟨_, s2, _, rfl, htook, fun hs => ?_⟩
        exact htake.resolve_left (by simp [hs])
      · rw [if_neg htake]
        obtain ⟨hs, hother⟩ := not_or.mp htake
        have hs : search = true := by simpa using hs
        refine hnext hs (fun e => htrunk ⟨hs, e⟩) fun hmem => hother ?_
        obtain ⟨i, hi⟩ := List.getElem?_of_mem hmem
        have hnear := h.ordinary nearby (by simp [mem_free_middle, hmem])
        have hge := hnear.ge
        exact closestLeaf_nearby (fun _ => get4byte_lt) (hnear.lt h.nPage_le) (by omega)
          (List.getElem?_eq_some_iff.mp hi).1 (hts.leaf i nearby hi)

/-- A call for an exact page within the file: the pointer-map has a valid entry for the page, and
if that says it is unused then the list has it. -/
def Request (c : Config) (s : BtShared) (L : Chain) (nearby : ℕ) (exact : Bool) : Prop :=
  exact = true → nearby ≤ s.nPage → c.autoVacuum = true ∧ Ordinary c s nearby ∧
    (ptrmapGet c s nearby).1 = .SQLITE_OK ∧
      ((ptrmapGet c s nearby).2.1 = PTRMAP_FREEPAGE → nearby ∈ free L)

/-- The invariant for the pages that are left. -/
theorem Inv.of_took (h : Inv c s L) {s1 s2 : BtShared} {L2 : Chain} {p : ℕ}
    (hs1 : s1 = { s with page := put4byte s.page 1 36 (get4byte s.page 1 36 - 1) })
    (htook : Took s1 L p s2 L2) : Inv c s2 L2 ∧ Keeps c s L s2 p ∧ p ∈ free L ∧ p ∉ free L2 := by
  have hn : s2.nPage = s.nPage := htook.nPage.trans (by rw [hs1])
  have hnodup := htook.perm.nodup_iff.mp h.nodup
  have hsub {q : ℕ} (hq : q ∈ free L2) : q ∈ free L :=
    htook.perm.mem_iff.mpr (List.mem_cons_of_mem _ hq)
  have hpage : ∀ q, q ≠ 1 → q ∉ free L → s2.page q = s.page q := by
    intro q h1 hq
    rw [htook.page q h1 hq, hs1]
    exact put4byte_of_ne h1
  have hmap : c.autoVacuum → ∀ q, 2 ≤ q → ptrmapGet c s2 q = ptrmapGet c s q := by
    intro ha q hq
    refine ptrmapGet_of_pages (fun u h1 hu => hpage u h1 fun hmem => ?_) hq
    rw [(h.ordinary u hmem).map ha] at hu
    cases hu
  refine ⟨⟨htook.linked, ?_, (List.nodup_cons.mp hnodup).2, fun q hq => ?_,
    htook.room _ h.room, fun ha q hq => ?_, hn ▸ h.nPage_pos, hn ▸ h.nPage_le⟩, fun q hq _ => ?_,
    htook.perm.mem_iff.mpr List.mem_cons_self, (List.nodup_cons.mp hnodup).1⟩
  · have hlen := htook.perm.length_eq
    have hlt : get4byte s.page 1 36 < 2 ^ 32 := get4byte_lt
    have hcount : get4byte s1.page 1 36 = get4byte s.page 1 36 - 1 := by
      rw [hs1]
      exact get4byte_put4byte (by omega)
    rw [List.length_cons] at hlen
    rw [htook.count, hcount, h.count, hlen, Nat.add_sub_cancel]
  · exact (h.ordinary q (hsub hq)).congr hn
  · rw [hmap ha q (h.ordinary q (hsub hq)).ge]
    exact h.entry ha q (hsub hq)
  · have hge := hq.1.ge
    exact ⟨hpage q (by omega) hq.2, fun ha => hmap ha q hge⟩

theorem Inv.listed (h : Inv c s L) :
    Listed c { s with page := put4byte s.page 1 36 (get4byte s.page 1 36 - 1) } L where
  linked := by
    have hlink : link (put4byte s.page 1 36 (get4byte s.page 1 36 - 1)) none = link s.page none :=
      get4byte_put4byte_of_ne (by omega)
    rw [hlink]
    refine h.linked.congr fun x hx => put4byte_of_ne ?_
    have hge := (h.ordinary _ (trunk_mem_free hx)).ge
    omega
  nodup := h.nodup
  ordinary p hp := (h.ordinary p hp).congr rfl
  room := h.room
  nPage_le := h.nPage_le

theorem length_le_free (L : Chain) : L.length ≤ (free L).length := by
  induction L with
  | nil => exact Nat.le_refl 0
  | cons x L ih =>
    rw [free_cons]
    simp
    omega

/-- There are unused pages: one of them is allocated. -/
theorem allocate_from_list (h : Inv c s L) {exact : Bool} (hreq : Request c s L nearby exact)
    (hL : L ≠ []) : ∃ p s2 L2, allocateBtreePage c s nearby exact = some (.SQLITE_OK, p, s2) ∧
      Inv c s2 L2 ∧ Keeps c s L s2 p ∧ p ∉ free L2 ∧ (free L).Perm (p :: free L2) ∧
      s2.nPage = s.nPage ∧ (exact = true → nearby ∈ free L → p = nearby) := by
  have hlt := h.length_lt
  have hlen := length_le_free L
  have hcount := h.count
  have hpos := List.length_pos_iff.mpr hL
  let s1 : BtShared := { s with page := put4byte s.page 1 36 (get4byte s.page 1 36 - 1) }
  have hloop (search : Bool) (hfind : search = true → nearby ∈ free L) :
      ∃ p s2 L2, allocateLoop c s.nPage nearby search (s.nPage + 1) none s1 =
        some (.SQLITE_OK, p, s2) ∧ Took s1 L p s2 L2 ∧ (search = true → p = nearby) :=
    allocateLoop_spec (A := []) (s := s1) h.listed (fun _ => ⟨rfl, hL⟩) hfind (by omega)
  have hfinish (search : Bool) (hfind : search = true → nearby ∈ free L)
      (heq : allocateBtreePage c s nearby exact =
        allocateLoop c s.nPage nearby search (s.nPage + 1) none s1)
      (hexact : exact = true → nearby ∈ free L → search = true) :
      ∃ p s2 L2, allocateBtreePage c s nearby exact = some (.SQLITE_OK, p, s2) ∧
        Inv c s2 L2 ∧ Keeps c s L s2 p ∧ p ∉ free L2 ∧ (free L).Perm (p :: free L2) ∧
        s2.nPage = s.nPage ∧ (exact = true → nearby ∈ free L → p = nearby) := by
    obtain ⟨p, s2, L2, hrun, htook, hp⟩ := hloop search hfind
    obtain ⟨hinv, hkeeps, -, hout⟩ := h.of_took rfl htook
    exact ⟨p, s2, L2, heq.trans hrun, hinv, hkeeps, hout, htook.perm, htook.nPage,
      fun he hmem => hp (hexact he hmem)⟩
  by_cases hexact : exact = true ∧ nearby ≤ s.nPage
  · obtain ⟨ha, hord, hok, hfind⟩ := hreq hexact.1 hexact.2
    have hge := hord.ge
    refine hfinish (decide ((ptrmapGet c s nearby).2.1 = PTRMAP_FREEPAGE))
      (fun hd => hfind (of_decide_eq_true hd)) ?_ fun _ hmem => ?_
    · unfold allocateBtreePage
      dsimp only
      rw [if_neg (by omega), if_pos (by omega), if_pos hexact, if_neg (by simp [ha]; omega),
        if_neg (by simp [hok])]
    · rw [decide_eq_true_iff, h.entry ha nearby hmem]
  · refine hfinish false (fun hf => by cases hf) ?_ fun he hmem => ?_
    · unfold allocateBtreePage
      dsimp only
      rw [if_neg (by omega), if_pos (by omega), if_neg hexact]
    · exact absurd ⟨he, (h.ordinary nearby hmem).le⟩ hexact

theorem nextPage_spec (n : ℕ) : n < nextPage c n ∧ nextPage c n ≤ n + 2 ∧
    nextPage c n ≠ PENDING_BYTE_PAGE c := by
  unfold nextPage
  split_ifs <;> omega

/-- Behind a pointer-map page is none. -/
theorem isPage_nextPage {n : ℕ} (hn : 2 ≤ n) (h : PTRMAP_ISPAGE c n = true) :
    PTRMAP_ISPAGE c (nextPage c n) = false := by
  have husable := c.usableSize_ge
  obtain ⟨hlt, hle, -⟩ := nextPage_spec (c := c) n
  obtain ⟨m, k, hk, rfl⟩ := exists_group (c := c) hn
  unfold PTRMAP_ISPAGE at h ⊢
  rw [decide_eq_true_iff, ptrmapPageno_eq hk] at h
  have hself : mapPage c m ≤ m * (c.usableSize / 5 + 1) + 3 := by
    unfold mapPage
    dsimp only
    split_ifs <;> omega
  obtain ⟨j, hj, hnext⟩ : ∃ j, j < c.usableSize / 5 + 1 ∧
      nextPage c (m * (c.usableSize / 5 + 1) + 2 + k) = m * (c.usableSize / 5 + 1) + 2 + j :=
    ⟨nextPage c (m * (c.usableSize / 5 + 1) + 2 + k) - (m * (c.usableSize / 5 + 1) + 2), by omega,
      by omega⟩
  rw [decide_eq_false_iff_not, hnext, ptrmapPageno_eq hj]
  omega

/-- A new page behind the end, with the pages and the list as they were. -/
structure Grown (c : Config) (s s2 : BtShared) (p : ℕ) : Prop where
  nPage : s2.nPage = p
  lt : s.nPage < p
  le : p ≤ c.mxPgno
  pending : p ≠ PENDING_BYTE_PAGE c
  map : c.autoVacuum → PTRMAP_ISPAGE c p = false
  page : ∀ q, q ≠ 1 → q ≤ s.nPage → s2.page q = s.page q
  header : ∀ a, a + 4 ≤ 28 ∨ 32 ≤ a → get4byte s2.page 1 a = get4byte s.page 1 a

theorem getPage_new {p : ℕ} (hp : p ≠ 0) (hpending : p ≠ PENDING_BYTE_PAGE c) :
    btreeGetPage c s p true = if c.mxPgno < p then (.SQLITE_FULL, s)
      else (.SQLITE_OK, { s with page := Function.update s.page p fun _ => 0 }) := by
  simp [btreeGetPage, hp, hpending]

/-- The file grows, or it has all pages that it can have. -/
theorem allocateAtEnd_spec (hn : 1 ≤ s.nPage) :
    (∃ p s2, allocateAtEnd c s = (.SQLITE_FULL, p, s2)) ∨
      ∃ p s2, allocateAtEnd c s = (.SQLITE_OK, p, s2) ∧ Grown c s s2 p := by
  obtain ⟨hlt, -, hpending⟩ := nextPage_spec (c := c) s.nPage
  have hheader (P : Pages) (p v : ℕ) (hp : 2 ≤ p) {a : ℕ} (ha : a + 4 ≤ 28 ∨ 32 ≤ a) :
      get4byte (Function.update (put4byte P 1 28 v) p fun _ => 0) 1 a = get4byte P 1 a := by
    have hone : Function.update (put4byte P 1 28 v) p (fun _ => 0) 1 = put4byte P 1 28 v 1 :=
      Function.update_of_ne (by omega) _ _
    rw [get4byte_congr hone, get4byte_put4byte_of_ne ha]
  unfold allocateAtEnd
  dsimp only
  by_cases hmap : c.autoVacuum ∧ PTRMAP_ISPAGE c (nextPage c s.nPage)
  · rw [if_pos hmap, getPage_new (by omega) hpending]
    obtain ⟨hlt2, -, hpending2⟩ := nextPage_spec (c := c) (nextPage c s.nPage)
    have hnot := isPage_nextPage (by omega) hmap.2
    generalize nextPage c (nextPage c s.nPage) = n2 at *
    generalize nextPage c s.nPage = n1 at *
    by_cases hmax : c.mxPgno < n1
    · left
      rw [if_pos hmax]
      exact ⟨_, _, rfl⟩
    rw [if_neg hmax, if_neg (by simp), getPage_new (by omega) hpending2]
    by_cases hmax2 : c.mxPgno < n2
    · left
      rw [if_pos hmax2]
      exact ⟨_, _, rfl⟩
    rw [if_neg hmax2]
    refine .inr ⟨n2, _, rfl, rfl, by omega, by omega, hpending2, fun _ => hnot, fun q h1 hq => ?_,
      fun a ha => ?_⟩
    · dsimp only
      rw [Function.update_of_ne (by omega), put4byte_of_ne h1, Function.update_of_ne (by omega)]
    · dsimp only
      rw [hheader _ _ _ (by omega) ha]
      exact get4byte_congr (Function.update_of_ne (by omega) _ _)
  · rw [if_neg hmap, getPage_new (by omega) hpending]
    generalize nextPage c s.nPage = n1 at *
    by_cases hmax : c.mxPgno < n1
    · left
      rw [if_pos hmax]
      exact ⟨_, _, rfl⟩
    rw [if_neg hmax]
    refine .inr ⟨n1, _, rfl, rfl, hlt, by omega, hpending, fun ha => ?_, fun q h1 hq => ?_,
      fun a ha => hheader _ _ _ (by omega) ha⟩
    · simpa [ha] using hmap
    · dsimp only
      rw [Function.update_of_ne (by omega), put4byte_of_ne h1]

theorem Grown.ptrmapGet_eq {s2 : BtShared} {p q : ℕ} (h : Grown c s s2 p) (hq : Ordinary c s q)
    (ha : c.autoVacuum) : ptrmapGet c s2 q = ptrmapGet c s q := by
  have hge := ptrmapPageno_ge (c := c) hq.ge
  have hlt := hq.ptrmapPageno_lt ha
  have hle := hq.le
  exact ptrmapGet_congr (h.page _ (by omega) (by omega))

/-- There is no unused page. -/
theorem Inv.of_grown (h : Inv c s []) {s2 : BtShared} {p : ℕ} (hg : Grown c s s2 p) :
    Inv c s2 [] ∧ Keeps c s [] s2 p ∧ Ordinary c s2 p := by
  have hn := hg.nPage
  have hpos := h.nPage_pos
  have hlt := hg.lt
  refine ⟨⟨?_, ?_, List.nodup_nil, by simp [free], by simp, by simp [free], by omega, ?_⟩,
    fun q hq _ => ?_, by omega, by omega, hg.pending, hg.map⟩
  · exact (hg.header 32 (by omega)).trans h.linked
  · rw [hg.header 36 (by omega)]
    exact h.count
  · rw [hn]
    exact hg.le
  · have hge := hq.1.ge
    exact ⟨hg.page q (by omega) hq.1.le, hg.ptrmapGet_eq hq.1⟩

/-- The page that is allocated was unused and is not any more, or is behind the old end. -/
structure Allocated (c : Config) (s : BtShared) (L : Chain) (p : ℕ) (s2 : BtShared) (L2 : Chain) :
    Prop where
  inv : Inv c s2 L2
  ordinary : Ordinary c s2 p
  out : p ∉ free L2
  source : (free L).Perm (p :: free L2) ∧ s2.nPage = s.nPage ∨
    free L = [] ∧ free L2 = [] ∧ s.nPage < p ∧ s2.nPage = p
  keeps : Keeps c s L s2 p

theorem allocateBtreePage_spec (h : Inv c s L) {exact : Bool} (hreq : Request c s L nearby exact) :
    (L = [] ∧ ∃ p s2, allocateBtreePage c s nearby exact = some (.SQLITE_FULL, p, s2)) ∨
      ∃ p s2 L2, allocateBtreePage c s nearby exact = some (.SQLITE_OK, p, s2) ∧
        Allocated c s L p s2 L2 ∧ (exact = true → nearby ∈ free L → p = nearby) := by
  by_cases hL : L = []
  · subst hL
    have hcount := h.count
    have hpos := h.nPage_pos
    have heq : allocateBtreePage c s nearby exact = some (allocateAtEnd c s) := by
      unfold allocateBtreePage
      dsimp only
      rw [hcount, if_neg (by simp [free]; omega), if_neg (by simp [free])]
    rw [heq]
    rcases allocateAtEnd_spec (c := c) h.nPage_pos with ⟨p, s2, hfull⟩ | ⟨p, s2, hok, hg⟩
    · exact .inl ⟨rfl, p, s2, congrArg some hfull⟩
    · obtain ⟨hinv, hkeeps, hord⟩ := h.of_grown hg
      exact .inr ⟨p, s2, [], congrArg some hok,
        ⟨hinv, hord, by simp [free], .inr ⟨rfl, rfl, hg.lt, hg.nPage⟩, hkeeps⟩, by simp [free]⟩
  · obtain ⟨p, s2, L2, hok, hinv, hkeeps, hout, hperm, hn, hexact⟩ := allocate_from_list h hreq hL
    have hp : p ∈ free L := hperm.mem_iff.mpr List.mem_cons_self
    exact .inr ⟨p, s2, L2, hok, ⟨hinv, (h.ordinary p hp).congr hn, hout, .inl ⟨hperm, hn⟩, hkeeps⟩,
      hexact⟩

end

end

/-! The list of unused pages stays in order over allocating and freeing. -/

/-- The trunks from `iTrunk` on, with their leaves. -/
def chainFrom (p : Pages) : ℕ → ℕ → Chain
  | 0, _ => []
  | n + 1, iTrunk =>
    if iTrunk = 0 then []
    else (iTrunk, (List.range (get4byte p iTrunk 4)).map (leafAt p iTrunk)) ::
      chainFrom p n (get4byte p iTrunk 0)

/-- The list of unused pages as the file has it. -/
def chain (s : BtShared) : Chain := chainFrom s.page s.nPage (get4byte s.page 1 32)

section
variable (c : Config)

/-- The list is well formed. -/
def WellFormed (s : BtShared) : Prop := Inv c s (chain s)

def InUse (s : BtShared) (p : ℕ) : Prop := Used c s (chain s) p

/-- What callers may change: the pages in use, their entries, and what is said of content. -/
structure Writes (s s' : BtShared) : Prop where
  nPage : s'.nPage = s.nPage
  unused : ∀ p ∈ free (chain s), s'.page p = s.page p
  header : get4byte s'.page 1 32 = get4byte s.page 1 32 ∧ get4byte s'.page 1 36 = get4byte s.page 1 36
  entry : c.autoVacuum → ∀ p ∈ free (chain s), ptrmapGet c s' p = ptrmapGet c s p

/-- Calls and writes in any order, where a call that fails is the last one. -/
inductive Run : BtShared → BtShared → Prop
  | refl (s : BtShared) : Run s s
  | write {s s1 s2 : BtShared} : Run s s1 → Writes c s1 s2 → Run s s2
  | allocate {s s1 s2 : BtShared} {nearby p : ℕ} {exact : Bool} : Run s s1 →
      Request c s1 (chain s1) nearby exact →
      allocateBtreePage c s1 nearby exact = some (.SQLITE_OK, p, s2) → Run s s2
  | free {s s1 s2 : BtShared} {iPage : ℕ} {rc : Rc} : Run s s1 → InUse c s1 iPage →
      freePage2 c s1 iPage = (rc, s2) → Run s s2

/-- The list is well formed, and the next call keeps it so and gives the page it should. -/
structure Sound (s : BtShared) : Prop where
  wellFormed : WellFormed c s
  allocate : ∀ nearby exact, Request c s (chain s) nearby exact →
    (chain s = [] ∧ ∃ p s2, allocateBtreePage c s nearby exact = some (.SQLITE_FULL, p, s2)) ∨
      ∃ p s2, allocateBtreePage c s nearby exact = some (.SQLITE_OK, p, s2) ∧
        Allocated c s (chain s) p s2 (chain s2) ∧ ¬ InUse c s p ∧
          (exact = true → nearby ∈ free (chain s) → p = nearby)
  free : ∀ iPage, InUse c s iPage → ∃ s2, freePage2 c s iPage = (.SQLITE_OK, s2) ∧
    WellFormed c s2 ∧ (free (chain s2)).Perm (iPage :: free (chain s)) ∧ s2.nPage = s.nPage ∧
      Keeps c s (chain s) s2 iPage

end

section
variable {c : Config} {s s' : BtShared} {L : Chain}

theorem TrunkIs.map_leafAt {p : Pages} {t : ℕ} {ls : List ℕ} (h : TrunkIs p t ls) :
    (List.range (get4byte p t 4)).map (leafAt p t) = ls := by
  rw [h.count]
  apply List.ext_getElem (by simp)
  intro i _ hi
  rw [List.getElem_map, List.getElem_range]
  exact h.leaf i _ (List.getElem?_eq_getElem hi)

theorem Seg.chainFrom_eq {p : Pages} {n v : ℕ} (h : Seg p v L 0) (hn : L.length ≤ n)
    (hpos : ∀ x ∈ L, x.1 ≠ 0) : chainFrom p n v = L := by
  induction L generalizing n v with
  | nil =>
    obtain rfl : v = 0 := h
    cases n <;> simp [chainFrom]
  | cons x L ih =>
    obtain ⟨t, ls⟩ := x
    obtain ⟨rfl, ht, hrest⟩ := h
    obtain ⟨m, rfl⟩ : ∃ m, n = m + 1 := ⟨n - 1, by simp at hn; omega⟩
    rw [chainFrom, if_neg (hpos (v, ls) List.mem_cons_self), ht.map_leafAt,
      ih hrest (by simpa using hn) fun y hy => hpos y (List.mem_cons_of_mem _ hy)]

/-- The file has one list of unused pages only. -/
theorem Inv.chain_eq (h : Inv c s L) : chain s = L := by
  have hlt := h.length_lt
  have hlen := length_le_free L
  refine h.linked.chainFrom_eq (by omega) fun x hx => ?_
  have hge := (h.ordinary _ (trunk_mem_free hx)).ge
  omega

theorem Inv.wellFormed (h : Inv c s L) : WellFormed c s := by
  rw [WellFormed, h.chain_eq]
  exact h

theorem WellFormed.write (h : WellFormed c s) (hw : Writes c s s') : WellFormed c s' := by
  have hn := hw.nPage
  have hlink : link s'.page none = link s.page none := hw.header.1
  refine Inv.wellFormed (L := chain s) ⟨?_, hw.header.2.trans h.count, h.nodup,
    fun p hp => (h.ordinary p hp).congr hn, h.room, fun ha p hp => ?_, hn ▸ h.nPage_pos,
    hn ▸ h.nPage_le⟩
  · rw [hlink]
    exact h.linked.congr fun x hx => hw.unused _ (trunk_mem_free hx)
  · rw [hw.entry ha p hp]
    exact h.entry ha p hp

/-- An allocated page was not in use. -/
theorem Allocated.not_inUse {p : ℕ} {s2 : BtShared} {L2 : Chain}
    (h : Allocated c s L p s2 L2) : ¬ Used c s L p := by
  intro hused
  rcases h.source with ⟨hperm, -⟩ | ⟨-, -, hlt, -⟩
  · exact hused.2 (hperm.mem_iff.mpr List.mem_cons_self)
  · exact absurd hused.1.le (not_le.mpr hlt)

theorem WellFormed.sound (h : WellFormed c s) : Sound c s where
  wellFormed := h
  allocate nearby exact hreq := by
    rcases allocateBtreePage_spec h hreq with hfull | ⟨p, s2, L2, hok, halloc, hexact⟩
    · exact .inl hfull
    · have heq := halloc.inv.chain_eq
      exact .inr ⟨p, s2, hok, heq ▸ halloc, halloc.not_inUse, hexact⟩
  free i hi := by
    obtain ⟨s2, L2, hok, hinv, hperm, hn, hkeeps⟩ := freePage2_spec h hi
    exact ⟨s2, hok, hinv.wellFormed, hinv.chain_eq ▸ hperm, hn, hkeeps⟩

theorem Run.wellFormed (hrun : Run c s s') (h : WellFormed c s) : WellFormed c s' := by
  induction hrun with
  | refl => exact h
  | write _ hw ih => exact ih.write hw
  | allocate _ hreq hcall ih =>
    rcases ih.sound.allocate _ _ hreq with ⟨-, p, s2, hfull⟩ | ⟨p, s2, hok, halloc, -, -⟩
    · rw [hfull] at hcall
      cases hcall
    · rw [hok] at hcall
      cases hcall
      exact halloc.inv
  | free _ huse hcall ih =>
    obtain ⟨s2, hok, hwf, -⟩ := ih.sound.free _ huse
    rw [hok] at hcall
    cases hcall
    exact hwf

/-- From a well-formed file on, whatever was called before. -/
theorem freelist_sound (h : WellFormed c s) (hrun : Run c s s') : Sound c s' :=
  (hrun.wellFormed h).sound

end

/-- Four pages, none of them unused. -/
def fourPages : BtShared := { page := fun _ _ => 0, nPage := 4 }

theorem fourPages_wellFormed : WellFormed smallConfig fourPages := by
  refine Inv.wellFormed (L := []) ⟨rfl, rfl, List.nodup_nil, ?_, ?_, ?_, by decide, by decide⟩
  · simp [free]
  · simp
  · simp [free]

theorem inUse_fourPages : InUse smallConfig fourPages 3 := by
  have hnone : chain fourPages = [] := by decide
  exact ⟨⟨by decide, by decide, by decide, fun _ => by decide⟩, by simp [hnone, free]⟩

theorem freelist_sound_fourPages :
    (allocateBtreePage smallConfig
        (freePage2 smallConfig (freePage2 smallConfig fourPages 3).2 4).2 0 false).map
      (fun r => (r.1, r.2.1, chain r.2.2)) = some (.SQLITE_OK, 4, [(3, [])]) ∧
    ∀ p s', allocateBtreePage smallConfig
        (freePage2 smallConfig (freePage2 smallConfig fourPages 3).2 4).2 0 false =
      some (.SQLITE_OK, p, s') → Sound smallConfig s' := by
  refine ⟨by decide +kernel, fun p s' hcall => ?_⟩
  have hrun : Run smallConfig fourPages (freePage2 smallConfig fourPages 3).2 :=
    .free (.refl fourPages) inUse_fourPages rfl
  have hchain : chain (freePage2 smallConfig fourPages 3).2 = [(3, [])] := by decide +kernel
  have huse : InUse smallConfig (freePage2 smallConfig fourPages 3).2 4 := by
    refine ⟨⟨by decide, by decide +kernel, by decide, fun _ => by decide⟩, ?_⟩
    rw [hchain]
    decide
  exact freelist_sound fourPages_wellFormed
    (.allocate (.free hrun huse rfl) (fun h => absurd h (by decide)) hcall)

/-- Both ordinary pages are freed, page 4 is allocated, and then it is asked for once more: its
entry still says that it is unused. -/
theorem freelist_exact_corrupt :
    let s1 := (freePage2 smallConfig fourPages 3).2
    let s2 := (freePage2 smallConfig s1 4).2
    WellFormed smallConfig fourPages ∧ InUse smallConfig fourPages 3 ∧ chain s2 = [(3, [4])] ∧
      (allocateBtreePage smallConfig s2 0 false).map (fun r => (r.1, r.2.1)) =
        some (.SQLITE_OK, 4) ∧
      ((allocateBtreePage smallConfig s2 0 false).bind fun r =>
        (allocateBtreePage smallConfig r.2.2 4 true).map fun r =>
          (r.1, get4byte r.2.2.page 1 36, chain r.2.2)) = some (.SQLITE_CORRUPT, 0, [(3, [])]) := by
  refine ⟨fourPages_wellFormed, inUse_fourPages, ?_, ?_, ?_⟩
  · decide +kernel
  · decide +kernel
  · decide +kernel

end Sqlite.Freelist

import Sqlite.Freelist.Invariant

/-! A page that is freed is one more unused page. -/
namespace Sqlite.Freelist
open Sqlite.Foundation

/-- Content and entries of the pages in use, other than `p`, are as before. -/
def Keeps (c : Config) (s : BtShared) (L : Chain) (s' : BtShared) (p : ℕ) : Prop :=
  ∀ q, Used c s L q → q ≠ p →
    s'.page q = s.page q ∧ (c.autoVacuum → ptrmapGet c s' q = ptrmapGet c s q)

/-- The state of a page before it is linked: counted, and marked as unused. -/
structure Marked (c : Config) (s s' : BtShared) (i : ℕ) : Prop where
  nPage : s'.nPage = s.nPage
  hasContent : s'.pHasContent = s.pHasContent
  count : get4byte s'.page 1 36 = get4byte s.page 1 36 + 1
  head : get4byte s'.page 1 32 = get4byte s.page 1 32
  page : ∀ q, q ≠ 1 → q ≠ i → (c.autoVacuum → PTRMAP_ISPAGE c q = false) → s'.page q = s.page q
  entry : c.autoVacuum → ptrmapGet c s' i = (.SQLITE_OK, PTRMAP_FREEPAGE, 0)
  entries : c.autoVacuum → ∀ q, Ordinary c s q → q ≠ i → ptrmapGet c s' q = ptrmapGet c s q

section
variable {c : Config} {s s' : BtShared} {L : Chain} {i : ℕ}

theorem Ordinary.congr (h : Ordinary c s i) (hn : s'.nPage = s.nPage) : Ordinary c s' i :=
  ⟨h.ge, hn ▸ h.le, h.pending, h.map⟩

/-- The pages of the list are fewer than those of the file. -/
theorem Inv.length_lt (h : Inv c s L) : (free L).length < s.nPage := by
  have hsub : free L ⊆ List.range' 2 (s.nPage - 1) := by
    intro p hp
    have hge := (h.ordinary p hp).ge
    have hle := (h.ordinary p hp).le
    rw [List.mem_range'_1]
    omega
  have hlen := (List.subperm_of_subset h.nodup hsub).length_le
  rw [List.length_range'] at hlen
  have hpos := h.nPage_pos
  omega

theorem markFree_spec (hi : Ordinary c s i) (hcount : get4byte s.page 1 36 + 1 < 2 ^ 32) :
    ∃ s', markFree c s i = (.SQLITE_OK, s') ∧ Marked c s s' i := by
  have hge := hi.ge
  let p : Pages := put4byte s.page 1 36 (get4byte s.page 1 36 + 1)
  let q : Pages := if c.secureDelete then Function.update p i fun _ => 0 else p
  let s1 : BtShared := { s with page := q }
  have hq : ∀ u, u ≠ i → q u = p u := by
    intro u hu
    simp only [q]
    split_ifs
    · exact Function.update_of_ne hu _ _
    · rfl
  have hq1 : q 1 = p 1 := hq 1 (by omega)
  have hc36 : get4byte q 1 36 = get4byte s.page 1 36 + 1 := by
    rw [get4byte_congr hq1]
    exact get4byte_put4byte hcount
  have hc32 : get4byte q 1 32 = get4byte s.page 1 32 := by
    rw [get4byte_congr hq1]
    exact get4byte_put4byte_of_ne (by omega)
  have hpage : ∀ u, u ≠ 1 → u ≠ i → q u = s.page u := by
    intro u h1 hu
    rw [hq u hu]
    exact put4byte_of_ne h1
  by_cases ha : c.autoVacuum
  · have hs1 : Ordinary c s1 i := hi.congr rfl
    obtain ⟨s', hput, hn, hh, hentry, hpages, hentries⟩ := ptrmapPut_spec hs1 ha
      PTRMAP_FREEPAGE 0 (by decide) (by decide)
    have hone : PTRMAP_ISPAGE c 1 = false := by simp [PTRMAP_ISPAGE, ptrmapPageno]
    have hmark : markFree c s i = (.SQLITE_OK, s') := by
      unfold markFree
      dsimp only
      rw [if_pos ha]
      exact hput
    refine ⟨s', hmark, hn, hh, ?_, ?_, fun u h1 hu hmap => ?_, fun _ => hentry, fun _ u hu hne => ?_⟩
    · rw [get4byte_congr (hpages 1 hone), hc36]
    · rw [get4byte_congr (hpages 1 hone), hc32]
    · rw [hpages u (hmap ha)]
      exact hpage u h1 hu
    · rw [hentries u (hu.congr rfl) hne]
      apply ptrmapGet_congr
      have hmapge := ptrmapPageno_ge (c := c) hu.ge
      exact hpage _ (by omega) (hi.ne_ptrmapPageno ha hu.ge)
  · have hmark : markFree c s i = (.SQLITE_OK, s1) := by
      unfold markFree
      dsimp only
      rw [if_neg ha]
    exact ⟨s1, hmark, rfl, rfl, hc36, hc32, fun u h1 hu _ => hpage u h1 hu, fun h => absurd h ha,
      fun h => absurd h ha⟩

theorem mem_free_cons {p : ℕ} {x : ℕ × List ℕ} : p ∈ free (x :: L) ↔ (p = x.1 ∨ p ∈ x.2) ∨ p ∈ free L := by
  rw [free_cons, List.mem_append, List.mem_cons]

/-- What a marked page leaves of the list. -/
theorem Marked.linked (h : Inv c s L) (hi : Used c s L i) (hm : Marked c s s' i) :
    Seg s'.page (link s'.page none) L 0 := by
  have hlink : link s'.page none = link s.page none := hm.head
  rw [hlink]
  apply h.linked.congr
  intro x hx
  have hmem := trunk_mem_free hx
  have hord := h.ordinary _ hmem
  have hge := hord.ge
  exact hm.page _ (by omega) (fun e => hi.2 (e ▸ hmem)) hord.map

/-- The invariant for one more page, from what is known of the new chain. -/
theorem Inv.of_marked (h : Inv c s L) (hi : Used c s L i) (hm : Marked c s s' i) {s2 : BtShared}
    {L2 : Chain} (hn : s2.nPage = s'.nPage) (hperm : (free L2).Perm (i :: free L))
    (hlinked : Seg s2.page (link s2.page none) L2 0)
    (hcount : get4byte s2.page 1 36 = get4byte s'.page 1 36)
    (hroom : ∀ x ∈ L2, x.2.length ≤ c.usableSize / 4 - 2)
    (hmap : c.autoVacuum → ∀ q, 2 ≤ q → ptrmapGet c s2 q = ptrmapGet c s' q) : Inv c s2 L2 where
  linked := hlinked
  count := by
    rw [hcount, hm.count, h.count, hperm.length_eq, List.length_cons]
  nodup := hperm.nodup_iff.mpr (List.nodup_cons.mpr ⟨hi.2, h.nodup⟩)
  ordinary p hp := by
    have hn' := hn.trans hm.nPage
    rcases List.mem_cons.mp (hperm.mem_iff.mp hp) with rfl | hp
    · exact hi.1.congr hn'
    · exact (h.ordinary p hp).congr hn'
  room := hroom
  entry ha p hp := by
    rcases List.mem_cons.mp (hperm.mem_iff.mp hp) with rfl | hp
    · rw [hmap ha _ hi.1.ge, hm.entry ha]
    · have hord := h.ordinary p hp
      have hne : p ≠ i := fun e => hi.2 (e ▸ hp)
      rw [hmap ha _ hord.ge, hm.entries ha p hord hne, h.entry ha p hp]
  nPage_pos := by
    rw [hn, hm.nPage]
    exact h.nPage_pos
  nPage_le := by
    rw [hn, hm.nPage]
    exact h.nPage_le

theorem Marked.keeps (hm : Marked c s s' i) {s2 : BtShared}
    (hpage : ∀ q, q ≠ 1 → q ≠ i → q ∉ free L → s2.page q = s'.page q)
    (hmap : c.autoVacuum → ∀ q, 2 ≤ q → ptrmapGet c s2 q = ptrmapGet c s' q) :
    Keeps c s L s2 i := by
  intro q hq hne
  have hge := hq.1.ge
  refine ⟨?_, fun ha => ?_⟩
  · rw [hpage q (by omega) hne hq.2]
    exact hm.page q (by omega) hne hq.1.map
  · rw [hmap ha q hge]
    exact hm.entries ha q hq.1 hne

/-- Pages that are not written keep the entries that are on them. -/
theorem ptrmapGet_of_pages {s2 : BtShared}
    (hpage : ∀ q, q ≠ 1 → PTRMAP_ISPAGE c q = true → s2.page q = s'.page q) {q : ℕ} (hq : 2 ≤ q) :
    ptrmapGet c s2 q = ptrmapGet c s' q := by
  have hge := ptrmapPageno_ge (c := c) hq
  exact ptrmapGet_congr (hpage _ (by omega) (isPage_ptrmapPageno hq))

theorem Ordinary.ne_of_isPage (h : Ordinary c s i) (ha : c.autoVacuum) {q : ℕ}
    (hq : PTRMAP_ISPAGE c q = true) : q ≠ i := by
  rintro rfl
  rw [h.map ha] at hq
  cases hq

/-- The page becomes a new trunk. -/
theorem Inv.newTrunk (h : Inv c s L) (hi : Used c s L i) (hm : Marked c s s' i) {s2 : BtShared}
    (hn : s2.nPage = s'.nPage) (hs2 : s2.page =
      put4byte (put4byte (put4byte s'.page i 0 (link s'.page none)) i 4 0) 1 32 i) :
    Inv c s2 ((i, []) :: L) ∧ Keeps c s L s2 i := by
  have hge := hi.1.ge
  have hlt := hi.1.lt h.nPage_le
  have hout : ∀ q, q ≠ 1 → q ≠ i → s2.page q = s'.page q := by
    intro q h1 hq
    rw [hs2, put4byte_of_ne h1, put4byte_of_ne hq, put4byte_of_ne hq]
  have hmap : c.autoVacuum → ∀ q, 2 ≤ q → ptrmapGet c s2 q = ptrmapGet c s' q := fun ha q hq =>
    ptrmapGet_of_pages (fun u h1 hu => hout u h1 (hi.1.ne_of_isPage ha hu)) hq
  have hfield {a : ℕ} : get4byte s2.page i a =
      get4byte (put4byte (put4byte s'.page i 0 (link s'.page none)) i 4 0) i a := by
    rw [hs2]
    exact get4byte_put4byte_of_page (by omega)
  refine ⟨h.of_marked hi hm hn ?_ ?_ ?_ ?_ hmap, hm.keeps (fun q h1 hq _ => hout q h1 hq) hmap⟩
  · simp [free_cons]
  · have hlink : link s2.page none = i := by
      rw [hs2]
      exact get4byte_put4byte hlt
    have hnext : get4byte s2.page i 0 = link s'.page none := by
      rw [hfield, get4byte_put4byte_of_ne (by omega), get4byte_put4byte]
      exact get4byte_lt
    refine ⟨hlink, ⟨?_, fun j x hx => by simp at hx⟩, ?_⟩
    · rw [hfield, get4byte_put4byte (by decide)]
      rfl
    · rw [hnext]
      apply (hm.linked h hi).congr
      intro x hx
      have hmem := trunk_mem_free hx
      have hxge := (h.ordinary _ hmem).ge
      exact hout _ (by omega) fun e => hi.2 (e ▸ hmem)
  · rw [hs2, get4byte_put4byte_of_ne (by omega), get4byte_put4byte_of_page (by omega),
      get4byte_put4byte_of_page (by omega)]
  · intro x hx
    rcases List.mem_cons.mp hx with rfl | hx
    · exact Nat.zero_le _
    · exact h.room x hx

theorem perm_newLeaf (t i : ℕ) (ls rest : List ℕ) :
    (t :: (ls ++ [i]) ++ rest).Perm (i :: (t :: ls ++ rest)) := by
  have hlast : (ls ++ [i]).Perm (i :: ls) := List.perm_append_singleton i ls
  have hswap : (t :: i :: ls).Perm (i :: t :: ls) := List.Perm.swap i t ls
  exact ((hlast.cons t).trans hswap).append_right rest

/-- The page becomes a leaf of the first trunk. -/
theorem Inv.newLeaf {t : ℕ} {ls : List ℕ} (h : Inv c s ((t, ls) :: L))
    (hi : Used c s ((t, ls) :: L) i) (hm : Marked c s s' i) (hroom : ls.length < c.usableSize / 4 - 2)
    {s2 : BtShared} (hn : s2.nPage = s'.nPage)
    (hs2 : s2.page = put4byte (put4byte s'.page t 4 (ls.length + 1)) t (8 + ls.length * 4) i) :
    Inv c s2 ((t, ls ++ [i]) :: L) ∧ Keeps c s ((t, ls) :: L) s2 i := by
  have hlt := hi.1.lt h.nPage_le
  have htmem : t ∈ free ((t, ls) :: L) := trunk_mem_free List.mem_cons_self
  have ht := h.ordinary t htmem
  have htge := ht.ge
  have hout : ∀ q, q ≠ t → s2.page q = s'.page q := by
    intro q hq
    rw [hs2, put4byte_of_ne hq, put4byte_of_ne hq]
  have hmap : c.autoVacuum → ∀ q, 2 ≤ q → ptrmapGet c s2 q = ptrmapGet c s' q := fun ha q hq =>
    ptrmapGet_of_pages (fun u h1 hu => hout u (ht.ne_of_isPage ha hu)) hq
  have husable := c.usableSize_le
  have hpageSize := c.pageSize_le
  obtain ⟨hlink, hts, hrest⟩ := hm.linked h hi
  refine ⟨h.of_marked hi hm hn ?_ ?_ ?_ ?_ hmap, hm.keeps (fun q h1 hq hqf => ?_) hmap⟩
  · rw [free_cons, free_cons]
    exact perm_newLeaf t i ls (free L)
  · have hhead : link s2.page none = t := by
      rw [← hlink]
      exact get4byte_congr (hout 1 (by omega))
    have hnext : get4byte s2.page t 0 = get4byte s'.page t 0 := by
      rw [hs2, get4byte_put4byte_of_ne (by omega), get4byte_put4byte_of_ne (by omega)]
    refine ⟨hhead, hs2 ▸ hts.append hlt (by omega), ?_⟩
    rw [hnext]
    apply hrest.congr
    intro x hx
    refine hout _ fun e => ?_
    have hnodup := h.nodup
    rw [free_cons] at hnodup
    have hmem := trunk_mem_free hx
    exact (List.nodup_append.mp hnodup).2.2 t List.mem_cons_self t (e ▸ hmem) rfl
  · rw [hs2, get4byte_put4byte_of_page (by omega), get4byte_put4byte_of_page (by omega)]
  · intro x hx
    rcases List.mem_cons.mp hx with rfl | hx
    · simp
      omega
    · exact h.room x (List.mem_cons_of_mem _ hx)
  · exact hout q fun e => hqf (e ▸ htmem)

/-- A page in use becomes an unused one, and nothing else changes. -/
theorem freePage2_spec (h : Inv c s L) (hi : Used c s L i) :
    ∃ s2 L2, freePage2 c s i = (.SQLITE_OK, s2) ∧ Inv c s2 L2 ∧ (free L2).Perm (i :: free L) ∧
      s2.nPage = s.nPage ∧ Keeps c s L s2 i := by
  have hlen := h.length_lt
  have hmx := c.mxPgno_le
  have hnP := h.nPage_le
  have hcount := h.count
  obtain ⟨s', hmark, hm⟩ := markFree_spec hi.1 (by omega)
  have hget : (btreeGetPage c s' i false).1 = .SQLITE_OK := (hi.1.congr hm.nPage).getPage
  have hfree : freePage2 c s i = linkFree c s' (free L).length i := by
    unfold freePage2
    rw [hmark, hcount]
    simp
  have hseg := hm.linked h hi
  cases L with
  | nil =>
    have hzero : link s'.page none = 0 := hseg
    let s2 : BtShared := { s' with page := put4byte (put4byte (put4byte s'.page i 0 0) i 4 0) 1 32 i }
    have hlink : linkFree c s' 0 i = (.SQLITE_OK, s2) := by
      simp [linkFree, hget, s2]
    have hnew : Inv c s2 [(i, [])] ∧ Keeps c s [] s2 i := h.newTrunk hi hm rfl (by rw [hzero])
    exact ⟨s2, _, hfree.trans hlink, hnew.1, by simp [free_cons], hm.nPage, hnew.2⟩
  | cons x L =>
    obtain ⟨t, ls⟩ := x
    obtain ⟨hlink, hts, hrest⟩ := hseg
    have ht := (h.ordinary t (trunk_mem_free List.mem_cons_self)).congr hm.nPage
    have hroom : ls.length ≤ c.usableSize / 4 - 2 := h.room (t, ls) List.mem_cons_self
    have hsome : (free ((t, ls) :: L)).length ≠ 0 := by simp [free_cons]
    have hhead : get4byte s'.page 1 32 = t := hlink
    have hgetT : (btreeGetPage c s' t false).1 = .SQLITE_OK := ht.getPage
    by_cases hspace : ls.length < c.usableSize / 4 - 8
    · let p : Pages := put4byte s'.page t 4 (ls.length + 1)
      let s1 : BtShared := { s' with page := put4byte p t (8 + ls.length * 4) i }
      have hlinked : linkFree c s' (free ((t, ls) :: L)).length i =
          (.SQLITE_OK, btreeSetHasContent s1 i) := by
        simp only [linkFree, if_pos hsome, hhead, hts.count]
        rw [if_neg (by simp [hgetT]), if_neg (by omega), if_pos ⟨hsome, hspace⟩]
      have hnew : Inv c (btreeSetHasContent s1 i) ((t, ls ++ [i]) :: L) ∧
          Keeps c s ((t, ls) :: L) (btreeSetHasContent s1 i) i :=
        h.newLeaf hi hm (by omega) rfl rfl
      refine ⟨_, _, hfree.trans hlinked, hnew.1, ?_, hm.nPage, hnew.2⟩
      rw [free_cons, free_cons]
      exact perm_newLeaf t i ls (free L)
    · let p : Pages := put4byte (put4byte s'.page i 0 t) i 4 0
      let s2 : BtShared := { s' with page := put4byte p 1 32 i }
      have hlinked : linkFree c s' (free ((t, ls) :: L)).length i = (.SQLITE_OK, s2) := by
        simp only [linkFree, if_pos hsome, hhead, hts.count]
        rw [if_neg (by simp [hgetT]), if_neg (by omega), if_neg (by omega), if_neg (by simp [hget])]
      have hnew : Inv c s2 ((i, []) :: (t, ls) :: L) ∧ Keeps c s ((t, ls) :: L) s2 i :=
        h.newTrunk hi hm rfl (by rw [hlink])
      exact ⟨s2, _, hfree.trans hlinked, hnew.1, by simp [free_cons], hm.nPage, hnew.2⟩

end

end Sqlite.Freelist

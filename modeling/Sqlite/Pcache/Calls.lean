import Sqlite.Pcache.Pages

/-! The calls that put a page on the list of dirty pages or take it off. -/
namespace Sqlite.Pcache

open Foundation

variable {s s' : PCache} {l l' : List ℕ} {p lost : ℕ} {h' : PgHdr}

theorem mem_cons_erase (hnd : l.Nodup) {q : ℕ} (hq : q ≠ p) : q ∈ p :: l.erase p ↔ q ∈ l := by
  rw [List.mem_cons, hnd.mem_erase_iff]
  exact ⟨fun hc => (hc.resolve_left hq).2, fun hc => Or.inr ⟨hq, hc⟩⟩

theorem mem_erase_of_ne (hnd : l.Nodup) {q : ℕ} (hq : q ≠ p) : q ∈ l.erase p ↔ q ∈ l := by
  rw [hnd.mem_erase_iff]
  exact ⟨fun hc => hc.2, fun hc => ⟨hq, hc⟩⟩

/-- Moving a dirty page to the front of the list. -/
theorem Listed.front (h : Listed s l) (hs : SyncedBut s l (some p)) (hp : p ∈ l) :
    ∃ s', pcacheRemoveFromDirtyList s p = some s' ∧
      Listed (pcacheAddToDirtyList s' p) (p :: l.erase p) ∧
      Synced (pcacheAddToDirtyList s' p) (p :: l.erase p) ∧
      SameRest s (pcacheAddToDirtyList s' p) := by
  obtain ⟨s', h1, h2, h3, h4⟩ := h.remove hs hp
  have hmem : p ∈ s'.held := by
    rw [h4.held]
    exact h.held p hp
  obtain ⟨g1, g2, g3⟩ := h2.add h3 (fun hc => (h.nodup.mem_erase_iff.mp hc).1 rfl) hmem
  refine ⟨s', h1, g1, g2, ⟨?_, ?_, ?_, ?_, ?_, ?_, ?_⟩⟩
  · rw [g3.pg, h4.pg]
  · rw [g3.nRef, h4.nRef]
  · rw [g3.bPurgeable, h4.bPurgeable]
  · rw [g3.pCache, h4.pCache]
  · rw [g3.held, h4.held]
  · rw [g3.pinned, h4.pinned]
  · rw [g3.iKey, h4.iKey]

/-- `t` is `s` with another header of page `p`, but for the list and the count of references. -/
structure Differs (s t : PCache) (p : ℕ) (h' : PgHdr) : Prop where
  pg : t.pg = Function.update s.pg p h'
  held : t.held = s.held
  iKey : t.iKey = s.iKey
  bPurgeable : t.bPurgeable = s.bPurgeable
  pinned : t.pinned = s.pinned

theorem Differs.of_setPg (s : PCache) (p : ℕ) (h' : PgHdr) : Differs s (setPg s p h') p h' :=
  ⟨rfl, rfl, rfl, rfl, rfl⟩

theorem Differs.rest {u : PCache} (h : Differs s s' p h') (hr : SameRest s' u) :
    Differs s u p h' := by
  constructor
  · rw [hr.pg, h.pg]
  · rw [hr.held, h.held]
  · rw [hr.iKey, h.iKey]
  · rw [hr.bPurgeable, h.bPurgeable]
  · rw [hr.pinned, h.pinned]

theorem Differs.self (h : Differs s s' p h') : s'.pg p = h' := by
  rw [h.pg]
  exact Function.update_self ..

theorem Differs.of_ne (h : Differs s s' p h') {q : ℕ} (hq : q ≠ p) : s'.pg q = s.pg q := by
  rw [h.pg]
  exact Function.update_of_ne hq _ _

/-- The page stays in use, in its place in the new list. -/
theorem Inv.keep (h : Inv s l lost) (hp : p ∈ s.held) (hd : Differs s s' p h') (hl : Listed s' l')
    (hs : Synced s' l') (hmem : ∀ q, q ≠ p → (q ∈ l' ↔ q ∈ l)) (hdirty : h'.dirty = true ↔ p ∈ l')
    (hinit : h'.pPage = (s.pg p).pPage) (hno : h'.pgno = (s.pg p).pgno)
    (hr : 0 ≤ h'.nRef ∧ h'.nRef ≤ 32767)
    (hn : s'.nRef + (if 0 < (s.pg p).nRef then 1 else 0) =
      s.nRef + (if 0 < h'.nRef then 1 else 0))
    (hu : inUse h') (hpin : p ∈ s.pinned) : Inv s' l' lost := by
  refine ⟨hl, hs, h.pages.change hp hd.held hd.pg hd.iKey hd.bPurgeable hmem hdirty hinit hno hr hn
    (fun q _ => ?_) (fun _ => ?_) (fun _ _ => hu)⟩
  · rw [hd.pinned]
  · rwa [hd.pinned]

/-- The page is clean and unreferenced, and gets unpinned. -/
theorem Inv.unpin (h : Inv s l lost) (hp : p ∈ s.held) (hd : Differs s s' p h') (hl : Listed s' l')
    (hs : Synced s' l') (hmem : ∀ q, q ≠ p → (q ∈ l' ↔ q ∈ l)) (hpl : p ∉ l')
    (hdirty : h'.dirty = false) (hinit : h'.pPage = (s.pg p).pPage)
    (hno : h'.pgno = (s.pg p).pgno) (hr : h'.nRef = 0)
    (hn : s'.nRef + (if 0 < (s.pg p).nRef then 1 else 0) = s.nRef) :
    Inv (pcacheUnpin s' p) l' lost := by
  obtain ⟨g1, g2, g3, g4, g5⟩ := pcacheUnpin_list s' p
  obtain ⟨u1, u2, u3, u4, u5, -, u7⟩ := pcacheUnpin_rest s' p
  rw [hd.bPurgeable, hd.pinned] at u7
  refine ⟨hl.congr g1 g2 g3 g4 u2, hs.congr g5 (fun q _ hb _ => u1.symm ▸ hb), ?_⟩
  refine h.pages.change hp (u2.trans hd.held) (u1.trans hd.pg) (u3.trans hd.iKey)
    (u5.trans hd.bPurgeable) hmem ?_ hinit hno ?_ ?_ (fun q hq => ?_) (fun hu => ?_)
    (fun hb hq => ?_)
  · rw [hdirty]
    exact ⟨fun hc => absurd hc Bool.false_ne_true, fun hc => absurd hc hpl⟩
  · omega
  · rw [u4, hn, hr, if_neg (Int.lt_irrefl 0)]
    exact (Int.add_zero _).symm
  · rw [u7]
    split
    · exact ⟨Finset.mem_of_mem_erase, fun hc => Finset.mem_erase.mpr ⟨hq, hc⟩⟩
    · exact Iff.rfl
  · rcases hu with hu | hu
    · exact absurd (hdirty.symm.trans hu) Bool.false_ne_true
    · omega
  · rw [u7, hb, if_pos rfl] at hq
    exact absurd hq (Finset.notMem_erase p _)

theorem Inv.release (h : Inv s l lost) (hp : p ∈ s.held) (h0 : 0 < (s.pg p).nRef) :
    ∃ s' l', sqlite3PcacheRelease s p = some s' ∧ Inv s' l' lost := by
  obtain ⟨-, hmax⟩ := h.pages.range p hp
  have hr : i16 ((s.pg p).nRef - 1) = (s.pg p).nRef - 1 := i16_eq (by omega) (by omega)
  have hpin := h.pages.pin p hp (Or.inr h0)
  have hd := Differs.of_setPg s p { s.pg p with nRef := (s.pg p).nRef - 1 }
  have hlist : Listed (setPg s p { s.pg p with nRef := (s.pg p).nRef - 1 }) l :=
    h.toListed.congr rfl rfl rfl rfl rfl
  have hbut : SyncedBut (setPg s p { s.pg p with nRef := (s.pg p).nRef - 1 }) l (some p) :=
    h.synced.but rfl (fun q hq => hd.of_ne hq)
  have hcount : (setPg s p { s.pg p with nRef := (s.pg p).nRef - 1 }).nRef = s.nRef := rfl
  unfold sqlite3PcacheRelease
  rw [hr]
  dsimp only
  generalize setPg s p { s.pg p with nRef := (s.pg p).nRef - 1 } = t at hd hlist hbut hcount
  rw [hd.self]
  dsimp only
  by_cases hz : (s.pg p).nRef - 1 = 0
  · -- the page has lost its last reference
    have hd' : Differs s { t with nRef := t.nRef - 1 } p { s.pg p with nRef := (s.pg p).nRef - 1 } :=
      ⟨hd.pg, hd.held, hd.iKey, hd.bPurgeable, hd.pinned⟩
    have hlist' : Listed { t with nRef := t.nRef - 1 } l := hlist.congr rfl rfl rfl rfl rfl
    have hbut' : SyncedBut { t with nRef := t.nRef - 1 } l (some p) :=
      hbut.congr rfl (fun _ _ hb _ => hb)
    have hcount' : ({ t with nRef := t.nRef - 1 } : PCache).nRef = s.nRef - 1 :=
      congrArg (· - 1) hcount
    rw [if_pos hz]
    generalize ({ t with nRef := t.nRef - 1 } : PCache) = u at hd' hlist' hbut' hcount'
    cases hdirty : (s.pg p).dirty with
    | false =>
      have hpl : p ∉ l := by
        intro hc
        rw [(h.pages.dirty p hp).mpr hc] at hdirty
        cases hdirty
      rw [if_pos rfl]
      refine ⟨_, l, rfl, h.unpin hp hd' hlist' ?_ (fun _ _ => Iff.rfl) hpl hdirty rfl rfl hz ?_⟩
      · obtain ⟨a, b, hab, e1, e2⟩ := hbut'
        refine ⟨a, b, hab, e1, fun q hq _ => e2 q hq (fun e => hpl ?_)⟩
        rw [hab, Option.some.inj e]
        exact List.mem_append_right _ hq
      · rw [hcount', if_pos h0]
        omega
    | true =>
      obtain ⟨v, g1, g2, g3, g4⟩ := hlist'.front hbut' ((h.pages.dirty p hp).mp hdirty)
      rw [if_neg nofun, g1]
      refine ⟨_, _, rfl, h.keep hp (hd'.rest g4) g2 g3
        (fun q hq => mem_cons_erase h.nodup hq) ?_ rfl rfl ⟨?_, ?_⟩ ?_ (Or.inl hdirty) hpin⟩
      · exact ⟨fun _ => List.mem_cons_self, fun _ => hdirty⟩
      · dsimp only
        omega
      · dsimp only
        omega
      · dsimp only
        rw [g4.nRef, hcount', if_pos h0, if_neg (by omega)]
        omega
  · rw [if_neg hz]
    refine ⟨t, l, rfl, h.keep hp hd hlist ?_ (fun _ _ => Iff.rfl) (h.pages.dirty p hp) rfl rfl
      ⟨?_, ?_⟩ ?_ (Or.inr ?_) hpin⟩
    · obtain ⟨a, b, hab, e1, e2⟩ := hbut
      refine ⟨a, b, hab, e1, fun q hq _ => ?_⟩
      by_cases hqp : p = q
      · rw [← hqp, hd.self]
        exact Or.inl hz
      · exact e2 q hq (fun e => hqp (Option.some.inj e))
    · dsimp only
      omega
    · dsimp only
      omega
    · dsimp only
      rw [hcount, if_pos h0, if_pos (by omega)]
    · dsimp only
      omega

theorem Inv.makeClean (h : Inv s l lost) (hp : p ∈ s.held) :
    ∃ s', sqlite3PcacheMakeClean s p = some s' ∧ Inv s' (l.erase p) lost ∧ s'.held = s.held ∧
      s'.pCache = s.pCache ∧ s'.iKey = s.iKey ∧ ∀ q, (s'.pg q).nRef = (s.pg q).nRef := by
  unfold sqlite3PcacheMakeClean
  cases hdirty : (s.pg p).dirty with
  | false =>
    have hpl : p ∉ l := by
      intro hc
      rw [(h.pages.dirty p hp).mpr hc] at hdirty
      cases hdirty
    rw [List.erase_of_not_mem hpl]
    exact ⟨s, if_neg nofun, h, rfl, rfl, rfl, fun _ => rfl⟩
  | true =>
    have hpl : p ∈ l := (h.pages.dirty p hp).mp hdirty
    obtain ⟨t, g1, g2, g3, g4⟩ := h.toListed.remove (h.synced.but rfl (fun _ _ => rfl)) hpl
    rw [if_pos rfl, g1]
    have hd : Differs s (setPg t p { s.pg p with dirty := false, needSync := false }) p
        { s.pg p with dirty := false, needSync := false } := by
      refine ⟨?_, g4.held, g4.iKey, g4.bPurgeable, g4.pinned⟩
      rw [← g4.pg]
      rfl
    have hl : Listed (setPg t p { s.pg p with dirty := false, needSync := false }) (l.erase p) :=
      g2.congr rfl rfl rfl rfl rfl
    have hs : Synced (setPg t p { s.pg p with dirty := false, needSync := false }) (l.erase p) := by
      refine g3.congr rfl (fun q hq hb _ => ?_)
      rw [setPg_of_ne t _ (h.nodup.mem_erase_iff.mp hq).1]
      exact hb
    have hn : (setPg t p { s.pg p with dirty := false, needSync := false }).nRef = s.nRef := g4.nRef
    have hc : (setPg t p { s.pg p with dirty := false, needSync := false }).pCache = s.pCache :=
      g4.pCache
    have hperase : p ∉ l.erase p := fun hc => (h.nodup.mem_erase_iff.mp hc).1 rfl
    dsimp only
    rw [g4.pg]
    generalize setPg t p { s.pg p with dirty := false, needSync := false } = u at hd hl hs hn hc
    have hrefs : ∀ q, (u.pg q).nRef = (s.pg q).nRef := by
      intro q
      by_cases hq : q = p
      · rw [hq, hd.self]
      · rw [hd.of_ne hq]
    rw [hd.self]
    dsimp only
    by_cases hz : (s.pg p).nRef = 0
    · obtain ⟨u1, u2, u3, -, -, u6, -⟩ := pcacheUnpin_rest u p
      rw [if_pos hz]
      refine ⟨_, rfl, h.unpin hp hd hl hs (fun q hq => mem_erase_of_ne h.nodup hq) hperase rfl rfl
        rfl hz ?_, u2.trans hd.held, u6.trans hc, u3.trans hd.iKey, fun q => ?_⟩
      · rw [hn, hz, if_neg (Int.lt_irrefl 0)]
        exact Int.add_zero _
      · rw [u1]
        exact hrefs q
    · obtain ⟨hmin, hmax⟩ := h.pages.range p hp
      have hpos : 0 < (s.pg p).nRef := by omega
      rw [if_neg hz]
      refine ⟨u, rfl, h.keep hp hd hl hs (fun q hq => mem_erase_of_ne h.nodup hq) ?_ rfl rfl
        ⟨hmin, hmax⟩ ?_ (Or.inr hpos) (h.pages.pin p hp (Or.inr hpos)), hd.held, hc, hd.iKey,
        hrefs⟩
      · exact ⟨fun hc => absurd hc Bool.false_ne_true, fun hc => absurd hc hperase⟩
      · rw [hn]

theorem Inv.makeDirty (h : Inv s l lost) (hp : p ∈ s.held) (h0 : 0 < (s.pg p).nRef) :
    ∃ l', Inv (sqlite3PcacheMakeDirty s p) l' lost := by
  have hpin := h.pages.pin p hp (Or.inr h0)
  have hrange := h.pages.range p hp
  unfold sqlite3PcacheMakeDirty
  dsimp only
  rw [setPg_self]
  dsimp only
  cases hdirty : (s.pg p).dirty with
  | true =>
    rw [if_neg nofun]
    refine ⟨l, h.keep hp (Differs.of_setPg s p _) (h.toListed.congr rfl rfl rfl rfl rfl) ?_
      (fun _ _ => Iff.rfl) (hdirty ▸ h.pages.dirty p hp) rfl rfl hrange rfl (Or.inr h0) hpin⟩
    refine h.synced.congr rfl (fun q _ hb _ => ?_)
    by_cases hqp : q = p
    · rw [hqp, setPg_self]
      exact Or.inl h0.ne'
    · rwa [setPg_of_ne s _ hqp]
  | false =>
    have hpl : p ∉ l := by
      intro hc
      rw [(h.pages.dirty p hp).mpr hc] at hdirty
      cases hdirty
    rw [if_pos rfl, setPg_setPg]
    have hd := Differs.of_setPg s p { s.pg p with dirty := true, dontWrite := false }
    have hl : Listed (setPg s p { s.pg p with dirty := true, dontWrite := false }) l :=
      h.toListed.congr rfl rfl rfl rfl rfl
    have hs : Synced (setPg s p { s.pg p with dirty := true, dontWrite := false }) l := by
      refine h.synced.congr rfl (fun q hq hb _ => ?_)
      rwa [setPg_of_ne s _ (ne_of_mem_of_not_mem hq hpl)]
    obtain ⟨g1, g2, g3⟩ := hl.add hs hpl hp
    refine ⟨p :: l, h.keep hp (hd.rest g3) g1 g2 (fun q hq => ?_) ?_ rfl rfl hrange ?_ (Or.inr h0)
      hpin⟩
    · rw [List.mem_cons]
      exact ⟨fun hc => hc.resolve_left hq, Or.inr⟩
    · exact ⟨fun _ => List.mem_cons_self, fun _ => rfl⟩
    · rw [g3.nRef]
      rfl

theorem Inv.drop (h : Inv s l lost) (hp : p ∈ s.held) (h0 : (s.pg p).nRef = 1) :
    ∃ s', sqlite3PcacheDrop s p = some s' ∧ Inv s' (l.erase p) lost := by
  -- the list without the page
  have hlist : ∃ t, (if (s.pg p).dirty then pcacheRemoveFromDirtyList s p else some s) = some t ∧
      Listed t (l.erase p) ∧ Synced t (l.erase p) ∧ SameRest s t := by
    cases hdirty : (s.pg p).dirty with
    | true =>
      rw [if_pos rfl]
      exact h.toListed.remove (h.synced.but rfl (fun _ _ => rfl)) ((h.pages.dirty p hp).mp hdirty)
    | false =>
      have hpl : p ∉ l := by
        intro hc
        rw [(h.pages.dirty p hp).mpr hc] at hdirty
        cases hdirty
      rw [List.erase_of_not_mem hpl]
      exact ⟨s, if_neg nofun, h.toListed, h.synced, rfl, rfl, rfl, rfl, rfl, rfl, rfl⟩
  obtain ⟨t, h1, h2, h3, h4⟩ := hlist
  have hpl : p ∉ l.erase p := fun hc => (h.nodup.mem_erase_iff.mp hc).1 rfl
  have hsub : ∀ q ∈ s.held.erase p, q ≠ p ∧ q ∈ s.held := fun q hq => Finset.mem_erase.mp hq
  unfold sqlite3PcacheDrop
  dsimp only
  rw [h1]
  dsimp only
  rw [h4.nRef, h4.held, h4.pinned]
  refine ⟨_, rfl, ⟨h2.links, h2.first, h2.tail, h2.nodup, fun q hq => ?_, fun q hq hql => ?_⟩,
    h3.congr rfl (fun _ _ hb _ => hb), ?_⟩
  · exact Finset.mem_erase.mpr ⟨ne_of_mem_of_not_mem hq hpl, h4.held ▸ h2.held q hq⟩
  · exact h2.off q (h4.held ▸ (hsub q hq).2) hql
  · constructor
    · intro q hq
      show (t.pg q).dirty = true ↔ _
      rw [h4.pg, h.pages.dirty q (hsub q hq).2, mem_erase_of_ne h.nodup (hsub q hq).1]
    · have hfilter : (s.held.erase p).filter (fun q => 0 < (t.pg q).nRef) =
          (s.held.filter (fun q => 0 < (s.pg q).nRef)).erase p := by
        rw [h4.pg, Finset.filter_erase]
      have hmem : p ∈ s.held.filter (fun q => 0 < (s.pg q).nRef) :=
        Finset.mem_filter.mpr ⟨hp, by omega⟩
      have hcard := Finset.card_erase_add_one hmem
      have hrefs := h.pages.refs
      show s.nRef - 1 = (((s.held.erase p).filter (fun q => 0 < (t.pg q).nRef)).card : ℤ) + lost
      rw [hfilter]
      omega
    · intro q hq
      show 0 ≤ (t.pg q).nRef ∧ (t.pg q).nRef ≤ 32767
      rw [h4.pg]
      exact h.pages.range q (hsub q hq).2
    · exact Finset.erase_subset_erase p h.pages.pinned
    · intro q hq hu
      rw [show (t.pg q) = s.pg q from congrFun h4.pg q] at hu
      exact Finset.mem_erase.mpr ⟨(hsub q hq).1, h.pages.pin q (hsub q hq).2 hu⟩
    · intro hb q hq
      show inUse (t.pg q)
      rw [h4.pg]
      exact h.pages.unpin (h4.bPurgeable ▸ hb) q (Finset.mem_of_mem_erase hq)
    · intro q hq
      show (t.pg q).pPage = true
      rw [h4.pg]
      exact h.pages.init q (hsub q hq).2
    · intro q hq
      show t.iKey q = (t.pg q).pgno
      rw [h4.pg, h4.iKey]
      exact h.pages.key q (hsub q hq).2
    · intro q hq r hr he
      change t.iKey q = t.iKey r at he
      rw [h4.iKey] at he
      exact h.pages.inj q (hsub q hq).2 r (hsub r hr).2 he

/-- The pages depend on the list only by its members. -/
theorem Pages.rest (h : Pages s l lost) (hr : SameRest s s') (hl : ∀ q, q ∈ l' ↔ q ∈ l) :
    Pages s' l' lost := by
  constructor
  · rw [hr.held, hr.pg]
    exact fun q hq => (h.dirty q hq).trans (hl q).symm
  · rw [hr.nRef, hr.held, hr.pg]
    exact h.refs
  · rw [hr.held, hr.pg]
    exact h.range
  · rw [hr.held, hr.pinned]
    exact h.pinned
  · rw [hr.held, hr.pinned, hr.pg]
    exact h.pin
  · rw [hr.bPurgeable, hr.pinned, hr.pg]
    exact h.unpin
  · rw [hr.held, hr.pg]
    exact h.init
  · rw [hr.held, hr.iKey, hr.pg]
    exact h.key
  · rw [hr.held, hr.iKey]
    exact h.inj

theorem Pages.rekey (h : Pages s l lost) {newPgno : ℕ}
    (hnew : ∀ q ∈ s.held, q ≠ p → s.iKey q ≠ newPgno) :
    Pages (setPg { s with iKey := Function.update s.iKey p newPgno } p
      { s.pg p with pgno := newPgno }) l lost := by
  have hself := setPg_self { s with iKey := Function.update s.iKey p newPgno } p
    { s.pg p with pgno := newPgno }
  have hne := fun q (hq : q ≠ p) => setPg_of_ne { s with iKey := Function.update s.iKey p newPgno }
    { s.pg p with pgno := newPgno } hq
  generalize ht : setPg { s with iKey := Function.update s.iKey p newPgno } p
    { s.pg p with pgno := newPgno } = t at hself hne
  obtain ⟨h1, h2, h3, h4, h5⟩ : t.held = s.held ∧ t.pinned = s.pinned ∧ t.nRef = s.nRef ∧
      t.bPurgeable = s.bPurgeable ∧ t.iKey = Function.update s.iKey p newPgno := by
    rw [← ht]
    exact ⟨rfl, rfl, rfl, rfl, rfl⟩
  have hflags : ∀ q, (t.pg q).dirty = (s.pg q).dirty ∧ (t.pg q).nRef = (s.pg q).nRef ∧
      (t.pg q).pPage = (s.pg q).pPage := by
    intro q
    by_cases hq : q = p
    · rw [hq, hself]
      exact ⟨rfl, rfl, rfl⟩
    · rw [hne q hq]
      exact ⟨rfl, rfl, rfl⟩
  have huse : ∀ q, inUse (t.pg q) ↔ inUse (s.pg q) := by
    intro q
    unfold inUse
    rw [(hflags q).1, (hflags q).2.1]
  constructor
  · intro q hq
    rw [(hflags q).1]
    exact h.dirty q (h1 ▸ hq)
  · have hfilter : t.held.filter (fun q => 0 < (t.pg q).nRef) =
        s.held.filter (fun q => 0 < (s.pg q).nRef) := by
      rw [h1]
      apply Finset.filter_congr
      intro q _
      rw [(hflags q).2.1]
    rw [h3, hfilter]
    exact h.refs
  · intro q hq
    rw [(hflags q).2.1]
    exact h.range q (h1 ▸ hq)
  · rw [h1, h2]
    exact h.pinned
  · intro q hq hu
    rw [h2]
    exact h.pin q (h1 ▸ hq) ((huse q).mp hu)
  · intro hb q hq
    rw [h2] at hq
    exact (huse q).mpr (h.unpin (h4 ▸ hb) q hq)
  · intro q hq
    rw [(hflags q).2.2]
    exact h.init q (h1 ▸ hq)
  · intro q hq
    rw [h5, Function.update_apply]
    by_cases hqp : q = p
    · rw [if_pos hqp, hqp, hself]
    · rw [if_neg hqp, hne q hqp]
      exact h.key q (h1 ▸ hq)
  · intro q hq r hr he
    rw [h1] at hq hr
    rw [h5, Function.update_apply, Function.update_apply] at he
    by_cases hqp : q = p
    · by_cases hrp : r = p
      · rw [hqp, hrp]
      · rw [if_pos hqp, if_neg hrp] at he
        exact absurd he.symm (hnew r hr hrp)
    · by_cases hrp : r = p
      · rw [if_neg hqp, if_pos hrp] at he
        exact absurd he (hnew q hq hqp)
      · rw [if_neg hqp, if_neg hrp] at he
        exact h.inj q hq r hr he

/-- A page gets a number that no other page in the cache has. -/
theorem Inv.move (h : Inv s l lost) (hp : p ∈ s.held) (h0 : 0 < (s.pg p).nRef) {newPgno : ℕ}
    (hnew : ∀ q ∈ s.held, q ≠ p → s.iKey q ≠ newPgno) :
    ∃ s' l', sqlite3PcacheMove s p newPgno = some s' ∧ Inv s' l' lost := by
  have hpages := h.pages.rekey hnew
  have hlist : Listed (setPg { s with iKey := Function.update s.iKey p newPgno } p
      { s.pg p with pgno := newPgno }) l := h.toListed.congr rfl rfl rfl rfl rfl
  have hsync : Synced (setPg { s with iKey := Function.update s.iKey p newPgno } p
      { s.pg p with pgno := newPgno }) l := by
    refine h.synced.congr rfl (fun q _ hb _ => ?_)
    by_cases hqp : q = p
    · rw [hqp, setPg_self]
      exact Or.inl h0.ne'
    · rwa [setPg_of_ne _ _ hqp]
  have hheld : (setPg { s with iKey := Function.update s.iKey p newPgno } p
      { s.pg p with pgno := newPgno }).held = s.held := rfl
  unfold sqlite3PcacheMove
  dsimp only
  generalize setPg { s with iKey := Function.update s.iKey p newPgno } p
    { s.pg p with pgno := newPgno } = t at hpages hlist hsync hheld
  by_cases hc : (t.pg p).dirty = true ∧ (t.pg p).needSync = true
  · have hpl : p ∈ l := (hpages.dirty p (hheld ▸ hp)).mp hc.1
    obtain ⟨u, g1, g2, g3, g4⟩ := hlist.front (hsync.but rfl (fun _ _ => rfl)) hpl
    rw [if_pos hc, g1]
    refine ⟨_, _, rfl, g2, g3, hpages.rest g4 (fun q => ?_)⟩
    by_cases hqp : q = p
    · rw [hqp]
      exact ⟨fun _ => hpl, fun _ => List.mem_cons_self⟩
    · exact mem_cons_erase h.nodup hqp
  · rw [if_neg hc]
    exact ⟨t, l, rfl, hlist, hsync, hpages⟩

end Sqlite.Pcache

import Sqlite.Pcache1.Fetch

/-! The calls other than fetching: unpinning, rekeying, truncation, and the caches' limits. -/
namespace Sqlite.Pcache1
open Foundation

section

/-! Each call keeps the invariant, and leaves alone the pinned pages it does not name. -/

variable {s s' : State} {S P : Finset ℕ} {l : List ℕ} {x : UInt32} {a c : ℕ} {iKey : UInt32}

/-- The invariant between calls, for the set `P` of pinned pages. -/
structure Inv (s : State) (P : Finset ℕ) : Prop where
  core : ∃ l, Core s s.pages P l 0
  bounded : KeysBounded s s.pages
  limits : Limits s

/-- The page is still there, in the same cache and under the same key. -/
def Keeps (s s' : State) (a : ℕ) : Prop :=
  a ∈ s'.pages ∧ s'.pCache a = s.pCache a ∧ s'.iKey a = s.iKey a

theorem Frame.keeps (h : Frame s s') (ha : a ∈ s'.pages) : Keeps s s' a :=
  ⟨ha, by rw [h.pCache], by rw [h.iKey]⟩

theorem Core.pinned_mem (h : Core s S P l x) (ha : a ∈ P) : a ∈ s.pages := (h.pinned a ha).1

/-- A step that only frees pages. -/
theorem Inv.of_frame (h : Inv s P) (hf : Frame s s') (hsub : s'.pages ⊆ s.pages) {Q : Finset ℕ}
    (hc : Core s' s'.pages Q l 0) : Inv s' Q :=
  ⟨⟨l, hc⟩, hf.keysBounded hsub h.bounded, hf.limits h.limits⟩

/-- `iMaxKey` can be changed at will as long as it bounds the keys. -/
theorem Core.setMaxKey (h : Core s S P l x) (c : ℕ) (k : UInt32) :
    Core (s.setCache c { s.cache c with iMaxKey := k }) S P l x := by
  have hc : ∀ d, (Function.update s.cache c { s.cache c with iMaxKey := k } d).nHash =
        (s.cache d).nHash ∧
      (Function.update s.cache c { s.cache c with iMaxKey := k } d).apHash = (s.cache d).apHash ∧
      (Function.update s.cache c { s.cache c with iMaxKey := k } d).nPage = (s.cache d).nPage := by
    intro d
    by_cases hd : d = c <;> simp [hd]
  refine ⟨h.hashed.congr rfl rfl rfl rfl hc, h.lru.congr rfl rfl rfl rfl rfl rfl (fun d => ?_),
    h.sub, h.mem_lru, h.pinned, h.nCurrentPage.trans ?_⟩
  · by_cases hd : d = c <;> simp [State.setCache, hd]
  · refine congrArg (fun n => UInt32.ofNat (Finset.card n) + x) (Finset.filter_congr (fun b _ => ?_))
    by_cases hb : s.pCache b = c <;> simp [State.setCache, hb]

theorem setMaxKey_limits (h : Limits s) (c : ℕ) (k : UInt32) :
    Limits (s.setCache c { s.cache c with iMaxKey := k }) := by
  refine h.congr rfl (fun d => ?_) rfl rfl rfl
  by_cases hd : d = c <;> simp [State.setCache, hd, PCache1.fixed]

/-- `fetch_out` raises `iMaxKey` to the key of the page returned. -/
theorem fetchOut_spec (c : ℕ) (iKey : UInt32) (r : Option ℕ) (h : Core s s.pages P l 0) (hl : Limits s)
    (hk : ∀ b ∈ s.pages, s.iKey b ≤ (s.cache (s.pCache b)).iMaxKey ∨
      (r ≠ none ∧ s.pCache b = c ∧ s.iKey b = iKey)) :
    (fetchOut s c iKey r).2 = r ∧ Inv (fetchOut s c iKey r).1 P ∧
      ∀ b ∈ s.pages, Keeps s (fetchOut s c iKey r).1 b := by
  unfold fetchOut
  split_ifs with hr
  · refine ⟨rfl, ⟨⟨l, h.setMaxKey c iKey⟩, fun b hb => ?_, setMaxKey_limits hl c iKey⟩,
      fun b hb => ⟨hb, rfl, rfl⟩⟩
    by_cases hbc : s.pCache b = c
    · simp only [State.setCache, hbc, Function.update_self]
      rcases hk b hb with hle | ⟨-, -, he⟩
      · rw [hbc] at hle
        exact UInt32.le_trans hle (UInt32.le_of_lt hr.2)
      · exact he ▸ UInt32.le_refl _
    · simp only [State.setCache, Function.update_of_ne hbc]
      exact (hk b hb).resolve_right (fun e => hbc e.2.1)
  · refine ⟨rfl, ⟨⟨l, h⟩, fun b hb => ?_, hl⟩, fun b hb => ⟨hb, rfl, rfl⟩⟩
    rcases hk b hb with hle | ⟨hne, hbc, he⟩
    · exact hle
    · rw [hbc, he]
      exact UInt32.not_lt.mp (fun hlt => hr ⟨hne, hlt⟩)

/-- The page a fetch returns is pinned. -/
def pinPage (P : Finset ℕ) : Option ℕ → Finset ℕ
  | none => P
  | some a => insert a P

/-- What a fetch returns and what it keeps. -/
structure Fetched (s s' : State) (P : Finset ℕ) (c : ℕ) (iKey : UInt32) (r : Option ℕ) : Prop where
  inv : Inv s' (pinPage P r)
  pinned : ∀ b ∈ P, Keeps s s' b
  page : ∀ a, r = some a → a ∈ s'.pages ∧ s'.pCache a = c ∧ s'.iKey a = iKey
  hit : ∀ a ∈ s.pages, s.pCache a = c → s.iKey a = iKey → r = some a

theorem Inv.fetch_none (h : Inv s P) (hf : Frame s s') (hsub : s'.pages ⊆ s.pages)
    (hc : Core s' s'.pages P l 0) (hmiss : ∀ a ∈ s.owned s.pages c, s.iKey a ≠ iKey) :
    Fetched s (fetchOut s' c iKey none).1 P c iKey none := by
  have hi := h.of_frame hf hsub hc
  obtain ⟨-, h1, h2⟩ := fetchOut_spec c iKey none hc hi.limits
    (fun b hb => Or.inl (hi.bounded b hb))
  refine ⟨h1, fun b hb => ?_, nofun, fun a ha hac hak => ?_⟩
  · obtain ⟨g1, g2, g3⟩ := h2 b (hc.pinned_mem hb)
    exact ⟨g1, g2.trans (by rw [hf.pCache]), g3.trans (by rw [hf.iKey])⟩
  · exact absurd hak (hmiss a (State.mem_owned.mpr ⟨ha, hac⟩))

theorem fetchOut_snd (s : State) (c : ℕ) (iKey : UInt32) (r : Option ℕ) :
    (fetchOut s c iKey r).2 = r := by
  unfold fetchOut
  split_ifs <;> rfl

theorem Inv.fetch_hit (h : Inv s P) (ha : a ∈ s.owned s.pages c) (hk : s.iKey a = iKey) :
    Fetched s (fetchOut (pcache1PinPage s a) c iKey (some a)).1 P c iKey (some a) := by
  obtain ⟨l, hc⟩ := h.core
  obtain ⟨hap, hac⟩ := State.mem_owned.mp ha
  have hpin := hc.pin hap
  have hf := pcache1PinPage_frame s a
  have hp := pcache1PinPage_pages s a
  rw [← hp] at hpin
  have hb := hf.keysBounded (S := s.pages) (Finset.Subset.refl _) h.bounded
  obtain ⟨-, h1, h2⟩ := fetchOut_spec c iKey (some a) hpin (hf.limits h.limits)
    (fun b hb' => Or.inl (hb b (hp ▸ hb')))
  have hkeep : ∀ b ∈ s.pages, Keeps s (fetchOut (pcache1PinPage s a) c iKey (some a)).1 b := by
    intro b hb
    obtain ⟨g1, g2, g3⟩ := h2 b (hp ▸ hb)
    exact ⟨g1, g2.trans (by rw [hf.pCache]), g3.trans (by rw [hf.iKey])⟩
  refine ⟨h1, fun b hb => hkeep b (hc.pinned_mem hb), fun b hb => ?_,
    fun b hb hbc hbk => ?_⟩
  · obtain rfl := Option.some.inj hb
    obtain ⟨g1, g2, g3⟩ := hkeep a hap
    exact ⟨g1, g2.trans hac, g3.trans hk⟩
  · exact congrArg some (hc.hashed.key_inj a hap b hb (hac.trans hbc.symm) (hk.trans hbk.symm))

/-- A page brought in under a key that the cache did not hold. -/
theorem Inv.fetch_enter {t : State} {Q : Finset ℕ} (h : Inv s P) (hf : Frame s t)
    (hpages : insert a S = insert a t.pages) (hsub : S ⊆ s.pages) (haP : a ∉ P)
    (hQ : insert a Q = insert a P) (haS : a ∉ S) (hal : a ∉ l)
    (hc : Core t S Q l (t.cache c).bPurgeable.toUInt32) (hcs : c ∈ s.caches)
    (hn : (t.cache c).nHash ≠ 0) (hmiss : ∀ a ∈ s.owned s.pages c, s.iKey a ≠ iKey) :
    Fetched s (fetchOut (enterPage { t with pages := insert a t.pages } c iKey a) c iKey (some a)).1
      P c iKey (some a) := by
  have hmiss' : ∀ b ∈ t.owned S c, t.iKey b ≠ iKey := fun b hb => by
    obtain ⟨hbS, hbc⟩ := State.mem_owned.mp hb
    rw [hf.iKey]
    exact hmiss b (State.mem_owned.mpr ⟨hsub hbS, hf.pCache ▸ hbc⟩)
  have hcore := hc.enter (hf.caches ▸ hcs) haS hal hn hmiss'
  have hE := entered_enters t c iKey a
  have hpE : (entered t c iKey a).pages = insert a S := hpages.symm
  rw [hQ, ← hpE] at hcore
  have hlim : Limits (entered t c iKey a) :=
    h.limits.congr hf.caches (fun d => (entered_fixed t c iKey a d).trans (hf.fixed d)) hf.nMaxPage
      hf.nMinPage hf.mxPinned
  have hmax : ∀ d, ((entered t c iKey a).cache d).iMaxKey = (s.cache d).iMaxKey := fun d => by
    rw [← hf.maxKey]
    by_cases hd : d = c
    · rw [hd, entered_cache_self]
    · rw [entered_cache_of_ne t iKey a hd]
  obtain ⟨-, h1, h2⟩ := fetchOut_spec c iKey (some a) hcore hlim
    (fun b hb => by
      rw [hmax, hE.pCache_apply, hE.iKey_apply]
      by_cases hba : b = a
      · rw [if_pos hba, if_pos hba]
        exact Or.inr ⟨by simp, rfl, rfl⟩
      · rw [if_neg hba, if_neg hba, hf.pCache, hf.iKey]
        exact Or.inl (h.bounded b (hsub (Finset.mem_of_mem_insert_of_ne (hpE ▸ hb) hba))))
  have haE : a ∈ (entered t c iKey a).pages := hpE ▸ Finset.mem_insert_self a S
  refine ⟨h1, fun b hb => ?_, fun b hb => ?_, fun b hb hbc hbk => ?_⟩
  · have hba : b ≠ a := ne_of_mem_of_not_mem hb haP
    have hbE : b ∈ (entered t c iKey a).pages :=
      hcore.pinned_mem (Finset.mem_insert_of_mem hb)
    obtain ⟨g1, g2, g3⟩ := h2 b hbE
    rw [hE.pCache_apply, if_neg hba, hf.pCache] at g2
    rw [hE.iKey_apply, if_neg hba, hf.iKey] at g3
    exact ⟨g1, g2, g3⟩
  · obtain rfl := Option.some.inj hb
    obtain ⟨g1, g2, g3⟩ := h2 a haE
    rw [hE.pCache_apply, if_pos rfl] at g2
    rw [hE.iKey_apply, if_pos rfl] at g3
    exact ⟨g1, g2, g3⟩
  · exact absurd hbk (hmiss b (State.mem_owned.mpr ⟨hb, hbc⟩))

/-- Before a page is entered there is a hash table. -/
theorem Core.ensureHash (h : Core s S P l x) (hc : c ∈ s.caches) (hashMem : Bool) :
    ∃ t ok, (if (s.cache c).nHash ≤ (s.cache c).nPage then pcache1ResizeHash s c hashMem
        else some (s, true)) = some (t, ok) ∧ Frame s t ∧ t.pages = s.pages ∧ Core t S P l x ∧
      (ok = true → (t.cache c).nHash ≠ 0) := by
  by_cases hle : (s.cache c).nHash ≤ (s.cache c).nPage
  · rw [if_pos hle]
    exact h.resize hc hashMem
  · rw [if_neg hle]
    refine ⟨s, true, rfl, Frame.refl s, rfl, h, fun _ e => hle ?_⟩
    rw [e]
    exact UInt32.zero_le

theorem Inv.fetch (h : Inv s P) (hc : c ∈ s.caches) (iKey : UInt32) (createFlag : ℕ) (e : Env) :
    ∃ s' r, pcache1Fetch s c iKey createFlag e = some (s', r) ∧ Fetched s s' P c iKey r := by
  obtain ⟨l, hcore⟩ := h.core
  obtain ⟨r, hr, hfind⟩ := lookup_spec hcore.hashed (Finset.Subset.refl _) hc iKey
  unfold pcache1Fetch
  dsimp only
  rw [hr]
  simp only [Option.bind_eq_bind, Option.bind_some]
  have hout : ∀ (t : State) (r : Option ℕ), fetchOut t c iKey r = ((fetchOut t c iKey r).1, r) :=
    fun t r => Prod.ext rfl (fetchOut_snd t c iKey r)
  cases r with
  | some a =>
    obtain ⟨ha, hk⟩ := (hfind a).mp rfl
    exact ⟨_, some a, congrArg some (hout _ _), h.fetch_hit ha hk⟩
  | none =>
    have hmiss : ∀ b ∈ s.owned s.pages c, s.iKey b ≠ iKey := by
      intro b hb hk
      cases (hfind b).mpr ⟨hb, hk⟩
    have hnone : ∀ t l', Frame s t → t.pages ⊆ s.pages → Core t t.pages P l' 0 →
        ∃ s' r, some (fetchOut t c iKey none) = some (s', r) ∧ Fetched s s' P c iKey r :=
      fun t l' hf hsub ht => ⟨_, none, congrArg some (hout t none), h.fetch_none hf hsub ht hmiss⟩
    dsimp only
    by_cases h0 : createFlag = 0
    · rw [if_pos h0]
      exact hnone s l (Frame.refl s) (Finset.Subset.refl _) hcore
    rw [if_neg h0]
    by_cases h1 : createFlag = 1 ∧ (s.grp.mxPinned ≤ (s.cache c).nPage - (s.cache c).nRecyclable ∨
        (s.cache c).n90pct ≤ (s.cache c).nPage - (s.cache c).nRecyclable ∨ e.pressure₁ = true)
    · rw [if_pos h1]
      exact hnone s l (Frame.refl s) (Finset.Subset.refl _) hcore
    rw [if_neg h1]
    obtain ⟨t, ok, ht, hf, hp, hct, hok⟩ := hcore.ensureHash hc e.hashMem
    rw [ht]
    simp only [Option.bind_some]
    rw [← hp] at hct
    cases ok with
    | false => exact hnone t l hf (hp ▸ Finset.Subset.refl _) hct
    | true =>
      simp only [not_true_eq_false, if_false]
      obtain ⟨u, r, hu, ⟨rfl, hfu, hsub, l', hcu⟩ |
        ⟨a, v, S, Q, l', rfl, rfl, hfv, hpages, hsub, haP, hQ, haS, hal, hcv⟩⟩ := obtainPage_spec hct c e
      · rw [hu]
        exact hnone u l' (hf.trans hfu) (hp ▸ hsub) hcu
      · rw [hu]
        refine ⟨_, some a, congrArg some (hout _ _), h.fetch_enter (hf.trans hfv) hpages (hp ▸ hsub) haP
          hQ haS hal hcv hc (hfv.hash_pos c (hok rfl)) hmiss⟩

end

variable {s s' : State} {S P : Finset ℕ} {l : List ℕ} {x : UInt32} {a c : ℕ}

/-- The page at the head of the LRU list. -/
def enlisted (s : State) (c a : ℕ) : State :=
  let s := match s.grp.pLruHead with
    | some head =>
      { s with
        pLruPrev := Function.update s.pLruPrev head (some a)
        pLruNext := Function.update s.pLruNext a (some head)
        grp := { s.grp with pLruHead := some a } }
    | none => s.setGrp { s.grp with pLruTail := some a, pLruHead := some a }
  s.setCache c { s.cache c with nRecyclable := (s.cache c).nRecyclable + 1 }

theorem enlisted_frame (s : State) (c a : ℕ) : Frame s (enlisted s c a) := by
  unfold enlisted
  cases s.grp.pLruHead <;>
    refine ⟨rfl, rfl, rfl, fun d => ?_, fun d => ?_, fun d => ?_, rfl, rfl, rfl⟩ <;>
      by_cases hd : d = c <;> simp [State.setCache, State.setGrp, hd, PCache1.fixed]

theorem enlisted_pages (s : State) (c a : ℕ) : (enlisted s c a).pages = s.pages := by
  unfold enlisted
  cases s.grp.pLruHead <;> rfl

theorem enlisted_nCurrentPage (s : State) (c a : ℕ) :
    (enlisted s c a).grp.nCurrentPage = s.grp.nCurrentPage := by
  unfold enlisted
  cases s.grp.pLruHead <;> rfl

theorem Hashed.enlist (h : Hashed s S) (c a : ℕ) : Hashed (enlisted s c a) S := by
  have hf := enlisted_frame s c a
  have hn : (enlisted s c a).pNext = s.pNext := by
    unfold enlisted
    cases s.grp.pLruHead <;> rfl
  refine h.congr hf.iKey hn hf.pCache hf.caches (fun d => ?_)
  unfold enlisted
  cases s.grp.pLruHead <;> by_cases hd : d = c <;> simp [State.setCache, State.setGrp, hd]

theorem Lru.enlist (h : Lru s l) (hc : c ∈ s.caches) (hac : s.pCache a = c) (hal : a ∉ l)
    (hn : s.pLruNext a = none) (hp : s.pLruPrev a = none) : Lru (enlisted s c a) (a :: l) := by
  have hf := enlisted_frame s c a
  have hlinks : Links (enlisted s c a).pLruNext (enlisted s c a).pLruPrev none (a :: l) ∧
      (enlisted s c a).grp.pLruHead = some a ∧
      (enlisted s c a).grp.pLruTail = (a :: l).getLast? := by
    have hhead := h.head
    have htail := h.tail
    unfold enlisted
    cases l with
    | nil =>
      rw [hhead]
      exact ⟨⟨hp, hn, trivial⟩, rfl, rfl⟩
    | cons w t =>
      have haw : a ≠ w := fun e => hal (by simp [e])
      rw [hhead]
      refine ⟨h.links.push hal (Function.update_self _ _ _) ?_ (fun y hy => ?_) (fun y hy => ?_)
        h.nodup, rfl, ?_⟩
      · exact (Function.update_of_ne haw _ _).trans hp
      · exact Function.update_of_ne (ne_of_mem_of_not_mem hy hal) _ _
      · simp [State.setCache, Function.update_apply, eq_comm]
      · rw [List.getLast?_cons_cons]
        exact htail
  obtain ⟨h1, h2, h3⟩ := hlinks
  refine ⟨fun b hb => ?_, h1, List.nodup_cons.mpr ⟨hal, h.nodup⟩, h2, h3, fun d hd => ?_⟩
  · rw [hf.pCache, hf.caches]
    rcases List.mem_cons.mp hb with rfl | hb
    · rwa [hac]
    · exact h.owner b hb
  · have hr : ((enlisted s c a).cache d).nRecyclable =
        if d = c then (s.cache c).nRecyclable + 1 else (s.cache d).nRecyclable := by
      unfold enlisted
      cases s.grp.pLruHead <;> by_cases hd : d = c <;> simp [State.setCache, State.setGrp, hd]
    rw [hr, hf.pCache, List.countP_cons]
    by_cases hdc : d = c
    · subst hdc
      rw [if_pos rfl, h.nRecyclable d hc]
      simp [hac]
    · rw [if_neg hdc, h.nRecyclable d (hf.caches ▸ hd)]
      simp [hac, Ne.symm hdc]

theorem Core.enlist (h : Core s s.pages P l x) (ha : a ∈ P) (hac : s.pCache a = c) :
    Core (enlisted s c a) (enlisted s c a).pages (P.erase a) (a :: l) x := by
  have hf := enlisted_frame s c a
  have hal : a ∉ l := fun e => ((h.mem_lru a).mp e).2 ha
  obtain ⟨h1, h2, h3⟩ := h.pinned a ha
  have hc : c ∈ s.caches := hac ▸ h.hashed.owner a h1
  rw [enlisted_pages]
  refine ⟨h.hashed.enlist c a, h.lru.enlist hc hac hal h2 h3, ?_, fun b => ?_, fun b hb => ?_, ?_⟩
  · rw [enlisted_pages]
  · rw [enlisted_pages, List.mem_cons, h.mem_lru, Finset.mem_erase]
    have hba : b = a → b ∈ s.pages := fun e => e ▸ h1
    tauto
  · obtain ⟨hba, hbP⟩ := Finset.mem_erase.mp hb
    obtain ⟨g1, g2, g3⟩ := h.pinned b hbP
    have hbl : b ∉ l := fun e => ((h.mem_lru b).mp e).2 hbP
    rw [enlisted_pages]
    unfold enlisted
    have hhead := h.lru.head
    cases hh : s.grp.pLruHead with
    | none => exact ⟨g1, g2, g3⟩
    | some w =>
      have hbw : b ≠ w := fun e => hbl (List.mem_of_head? (e ▸ hhead ▸ hh))
      exact ⟨g1, (Function.update_of_ne hba _ _).trans g2, (Function.update_of_ne hbw _ _).trans g3⟩
  · rw [enlisted_nCurrentPage, hf.purgeable]
    exact h.nCurrentPage

/-- An unpinned page is freed at once when asked for or when the group is over its limit. -/
theorem Inv.unpin (h : Inv s P) (ha : a ∈ P) (hac : s.pCache a = c) (reuseUnlikely : Bool) :
    ∃ s', pcache1Unpin s c a reuseUnlikely = some s' ∧ Inv s' (P.erase a) ∧
      (∀ b ∈ P, b ≠ a → Keeps s s' b) ∧
      (¬ (reuseUnlikely = true ∨ s.grp.nMaxPage < s.grp.nCurrentPage) → Keeps s s' a) := by
  obtain ⟨l, hc⟩ := h.core
  have hap := hc.pinned_mem ha
  unfold pcache1Unpin
  by_cases hd : reuseUnlikely = true ∨ s.grp.nMaxPage < s.grp.nCurrentPage
  · obtain ⟨t, ht, hf, hp, hc'⟩ := hc.discard hap ha
    rw [if_pos hd, ht]
    rw [← hp] at hc'
    refine ⟨pcache1FreePage t a, rfl, h.of_frame hf (hp ▸ Finset.erase_subset _ _) hc',
      fun b hb hba => hf.keeps ?_, fun hnd => absurd hd hnd⟩
    rw [hp]
    exact Finset.mem_erase.mpr ⟨hba, hc.pinned_mem hb⟩
  · rw [if_neg hd]
    have hf := enlisted_frame s c a
    have hp := enlisted_pages s c a
    exact ⟨enlisted s c a, rfl, h.of_frame hf (hp ▸ Finset.Subset.refl _) (hc.enlist ha hac),
      fun b hb _ => hf.keeps (hp ▸ hc.pinned_mem hb), fun _ => hf.keeps (hp ▸ hap)⟩

/-- Truncation, whether or not any key is large enough for it to look. -/
theorem Inv.truncate (h : Inv s P) (hc : c ∈ s.caches) (iLimit : UInt32) :
    ∃ s', pcache1Truncate s c iLimit = some s' ∧ Inv s' (P ∩ s'.pages) ∧
      (∀ a, a ∈ s'.pages ↔ a ∈ s.pages ∧ ¬ (s.pCache a = c ∧ iLimit ≤ s.iKey a)) ∧
      s'.pCache = s.pCache ∧ s'.iKey = s.iKey := by
  obtain ⟨l, hcore⟩ := h.core
  unfold pcache1Truncate
  by_cases hle : iLimit ≤ (s.cache c).iMaxKey
  · rw [if_pos hle]
    obtain ⟨t, l', ht, hf, hp, hct⟩ := hcore.truncate hc iLimit
    have hsub : t.pages ⊆ s.pages := fun a ha => ((hp a).mp ha).1
    have hb := hf.keysBounded hsub h.bounded
    rw [ht]
    refine ⟨t.setCache c { t.cache c with iMaxKey := iLimit - 1 }, rfl,
      ⟨⟨l', hct.setMaxKey c (iLimit - 1)⟩, fun b hb' => ?_, setMaxKey_limits (hf.limits h.limits) c _⟩,
      hp, hf.pCache, hf.iKey⟩
    by_cases hbc : t.pCache b = c
    · simp only [State.setCache, hbc, Function.update_self]
      have hlt : ¬ iLimit ≤ t.iKey b := fun e => ((hp b).mp hb').2 ⟨hf.pCache ▸ hbc, hf.iKey ▸ e⟩
      rw [UInt32.le_iff_toNat_le] at hlt ⊢
      have h1 : (1 : UInt32) ≤ iLimit := by
        rw [UInt32.le_iff_toNat_le]
        change 1 ≤ iLimit.toNat
        omega
      rw [UInt32.toNat_sub_of_le _ _ h1]
      change (t.iKey b).toNat ≤ iLimit.toNat - 1
      omega
    · simp only [State.setCache, Function.update_of_ne hbc]
      exact hb b hb'
  · rw [if_neg hle]
    refine ⟨s, rfl, ⟨⟨l, ?_⟩, h.bounded, h.limits⟩, fun a => ?_, rfl, rfl⟩
    · rw [Finset.inter_eq_left.mpr (fun b hb => hcore.pinned_mem hb)]
      exact hcore
    · refine ⟨fun ha => ⟨ha, fun e => hle ?_⟩, fun e => e.1⟩
      exact UInt32.le_trans e.2 (e.1 ▸ h.bounded a ha)

/-- Changing the limits of the group leaves everything else as it was. -/
theorem Core.setGrp_limits (h : Core s S P l x) (g : PGroup) (hn : g.nCurrentPage = s.grp.nCurrentPage)
    (hh : g.pLruHead = s.grp.pLruHead) (ht : g.pLruTail = s.grp.pLruTail) :
    Core (s.setGrp g) S P l x :=
  ⟨h.hashed.congr rfl rfl rfl rfl (fun _ => ⟨rfl, rfl, rfl⟩),
    h.lru.congr rfl rfl rfl rfl hh ht (fun _ => rfl), h.sub, h.mem_lru, h.pinned,
    hn.trans h.nCurrentPage⟩

theorem Inv.shrink (h : Inv s P) (c : ℕ) :
    ∃ s', pcache1Shrink s c = some s' ∧ Inv s' P ∧ ∀ b ∈ P, Keeps s s' b := by
  obtain ⟨l, hc⟩ := h.core
  unfold pcache1Shrink
  by_cases hp : (s.cache c).bPurgeable = true
  · rw [if_pos hp]
    have h₀ : Core (s.setGrp { s.grp with nMaxPage := 0 }) s.pages P l 0 :=
      hc.setGrp_limits _ rfl rfl rfl
    obtain ⟨t, l', ht, hf, hsub, hct⟩ := Core.enforce h₀
    have hf' : Frame s (t.setGrp { t.grp with nMaxPage := s.grp.nMaxPage }) :=
      ⟨hf.iKey, hf.pCache, hf.caches, hf.fixed, hf.maxKey, hf.hash_pos, rfl, hf.nMinPage, hf.mxPinned⟩
    have hct' := hct.setGrp_limits { t.grp with nMaxPage := s.grp.nMaxPage } rfl rfl rfl
    simp only [ht, Option.bind_eq_bind, Option.bind_some]
    exact ⟨_, rfl, h.of_frame hf' hsub hct', fun b hb => hf'.keeps (hct.pinned_mem hb)⟩
  · rw [if_neg hp]
    exact ⟨s, rfl, h, fun b hb => ⟨hc.pinned_mem hb, rfl, rfl⟩⟩

/-- The old share of a cache in a sum over the caches is replaced by a new one. -/
theorem sum_update (f : ℕ → UInt32) {C : Finset ℕ} (hc : c ∈ C) (v : UInt32) :
    ∑ d ∈ C, Function.update f c v d = ∑ d ∈ C, f d + (v - f c) := by
  rw [← Finset.add_sum_erase C f hc, ← Finset.add_sum_erase C _ hc, Function.update_self,
    Finset.sum_congr rfl (fun d hd => Function.update_of_ne (Finset.ne_of_mem_erase hd) v f)]
  rw [add_right_comm, add_sub_cancel]

theorem Inv.cachesize (h : Inv s P) (hc : c ∈ s.caches) (nMax : UInt32) :
    ∃ s', pcache1Cachesize s c nMax = some s' ∧ Inv s' P ∧ ∀ b ∈ P, Keeps s s' b := by
  obtain ⟨l, hcore⟩ := h.core
  unfold pcache1Cachesize
  dsimp only
  by_cases hp : (s.cache c).bPurgeable = true
  · rw [if_pos hp]
    have hcache : ∀ d, Function.update s.cache c
        { s.cache c with nMax := nMax, n90pct := nMax * 9 / 10 } d =
          if d = c then { s.cache c with nMax := nMax, n90pct := nMax * 9 / 10 } else s.cache d :=
      fun d => Function.update_apply _ _ _ _
    have h₀ : Core ((s.setGrp (mxPinned { s.grp with
        nMaxPage := s.grp.nMaxPage + (nMax - (s.cache c).nMax) })).setCache c
        { s.cache c with nMax := nMax, n90pct := nMax * 9 / 10 }) s.pages P l 0 := by
      refine ⟨hcore.hashed.congr rfl rfl rfl rfl (fun d => ?_),
        hcore.lru.congr rfl rfl rfl rfl rfl rfl (fun d => ?_), hcore.sub, hcore.mem_lru,
        hcore.pinned, hcore.nCurrentPage.trans ?_⟩
      · by_cases hd : d = c <;> simp [State.setCache, State.setGrp, hd]
      · by_cases hd : d = c <;> simp [State.setCache, State.setGrp, hd]
      · refine congrArg (fun n => UInt32.ofNat (Finset.card n) + 0) (Finset.filter_congr (fun b _ => ?_))
        by_cases hb : s.pCache b = c <;> simp [State.setCache, State.setGrp, hb]
    have hlim : Limits ((s.setGrp (mxPinned { s.grp with
        nMaxPage := s.grp.nMaxPage + (nMax - (s.cache c).nMax) })).setCache c
        { s.cache c with nMax := nMax, n90pct := nMax * 9 / 10 }) := by
      obtain ⟨g1, g2, g3, g4, g5, g6⟩ := h.limits
      refine ⟨fun d hd => ?_, fun d hd => ?_, fun d hd hpd => ?_, ?_, ?_, rfl⟩
      · by_cases hdc : d = c <;> simp [State.setCache, State.setGrp, hdc, g1 d hd]
      · by_cases hdc : d = c
        · simpa [State.setCache, State.setGrp, hdc] using g2 c hc
        · simpa [State.setCache, State.setGrp, hdc] using g2 d hd
      · by_cases hdc : d = c
        · simp [State.setCache, State.setGrp, hdc, hp] at hpd
        · simpa [State.setCache, State.setGrp, hdc] using g3 d hd (by
            simpa [State.setCache, State.setGrp, hdc] using hpd)
      · have hsum := sum_update (fun d => (s.cache d).nMax) hc nMax
        rw [← g4] at hsum
        refine hsum.symm.trans (Finset.sum_congr rfl (fun d _ => ?_))
        by_cases hdc : d = c <;> simp [State.setCache, State.setGrp, hdc]
      · refine g5.trans (Finset.sum_congr rfl (fun d _ => ?_))
        by_cases hdc : d = c <;> simp [State.setCache, State.setGrp, hdc]
    have hbound : KeysBounded ((s.setGrp (mxPinned { s.grp with
        nMaxPage := s.grp.nMaxPage + (nMax - (s.cache c).nMax) })).setCache c
        { s.cache c with nMax := nMax, n90pct := nMax * 9 / 10 }) s.pages := by
      intro b hb
      have hk := h.bounded b hb
      by_cases hbc : s.pCache b = c
      · simpa [State.setCache, State.setGrp, hbc] using hk
      · simpa [State.setCache, State.setGrp, hbc] using hk
    obtain ⟨t, l', ht, hf, hsub, hct⟩ := Core.enforce h₀
    exact ⟨t, ht, ⟨⟨l', hct⟩, hf.keysBounded hsub hbound, hf.limits hlim⟩, fun b hb =>
      ⟨hct.pinned_mem hb, congrFun hf.pCache b, congrFun hf.iKey b⟩⟩
  · rw [if_neg hp]
    exact ⟨s, rfl, h, fun b hb => ⟨hcore.pinned_mem hb, rfl, rfl⟩⟩

/-- A cache without pages can be dropped from the group. -/
theorem Core.dropCache (h : Core s s.pages P l x) (hno : ∀ a ∈ s.pages, s.pCache a ≠ c) :
    Core { s with caches := s.caches.erase c } s.pages P l x := by
  obtain ⟨⟨o1, o2, o3, o4, o5⟩, ⟨q1, q2, q3, q4, q5, q6⟩, h3, h4, h5, h6⟩ := h
  refine ⟨⟨fun a ha => Finset.mem_erase.mpr ⟨hno a ha, o1 a ha⟩, o2, o3,
      fun d hd => o4 d (Finset.mem_of_mem_erase hd), fun d hd => o5 d (Finset.mem_of_mem_erase hd)⟩,
    ⟨fun a ha => Finset.mem_erase.mpr ⟨hno a ((h4 a).mp ha).1, q1 a ha⟩, q2, q3, q4, q5,
      fun d hd => q6 d (Finset.mem_of_mem_erase hd)⟩, h3, h4, h5, h6⟩

theorem Inv.destroy (h : Inv s P) (hc : c ∈ s.caches) :
    ∃ s', pcache1Destroy s c = some s' ∧ Inv s' (P ∩ s'.pages) ∧
      (∀ b ∈ P, s.pCache b ≠ c → Keeps s s' b) ∧ ∀ b ∈ s'.pages, s'.pCache b ≠ c := by
  obtain ⟨l, hcore⟩ := h.core
  obtain ⟨t, l₁, ht, hf, hp, hct⟩ := hcore.truncate hc 0
  have hgone : ∀ a ∈ t.pages, t.pCache a ≠ c := fun a ha e =>
    ((hp a).mp ha).2 ⟨hf.pCache ▸ e, UInt32.zero_le⟩
  have hsub : t.pages ⊆ s.pages := fun a ha => ((hp a).mp ha).1
  have h₀ := hct.setGrp_limits (mxPinned { t.grp with
    nMaxPage := t.grp.nMaxPage - (t.cache c).nMax
    nMinPage := t.grp.nMinPage - (t.cache c).nMin }) rfl rfl rfl
  obtain ⟨u, l₂, hu, hfu, hsubu, hcu⟩ := Core.enforce h₀
  have hnou : ∀ a ∈ u.pages, u.pCache a ≠ c := fun a ha => by
    rw [hfu.pCache]
    exact hgone a (hsubu ha)
  have hct' : c ∈ t.caches := hf.caches ▸ hc
  have hlim : Limits { u with caches := u.caches.erase c } := by
    obtain ⟨g1, g2, g3, g4, g5, g6⟩ := hf.limits h.limits
    have hcu : u.caches = t.caches := hfu.caches
    have hfix : ∀ d, (u.cache d).fixed = (t.cache d).fixed := hfu.fixed
    have e1 : ∀ d, (u.cache d).nMax = (t.cache d).nMax := fun d => by
      have he := congrArg PCache1.nMax (hfix d)
      exact he
    have e2 : ∀ d, (u.cache d).nMin = (t.cache d).nMin := fun d => by
      have he := congrArg PCache1.nMin (hfix d)
      exact he
    have e3 : ∀ d, (u.cache d).n90pct = (t.cache d).n90pct := fun d => by
      have he := congrArg PCache1.n90pct (hfix d)
      exact he
    have e4 : ∀ d, (u.cache d).bPurgeable = (t.cache d).bPurgeable := fun d => by
      have he := congrArg PCache1.bPurgeable (hfix d)
      exact he
    have m1 : u.grp.nMaxPage = t.grp.nMaxPage - (t.cache c).nMax := hfu.nMaxPage
    have m2 : u.grp.nMinPage = t.grp.nMinPage - (t.cache c).nMin := hfu.nMinPage
    have m3 : u.grp.mxPinned = t.grp.nMaxPage - (t.cache c).nMax + 10 -
      (t.grp.nMinPage - (t.cache c).nMin) := hfu.mxPinned
    have hmem : ∀ d, d ∈ u.caches.erase c → d ∈ t.caches := fun d hd =>
      hcu ▸ Finset.mem_of_mem_erase hd
    refine ⟨fun d hd => ?_, fun d hd => ?_, fun d hd hpd => ?_, ?_, ?_, ?_⟩
    · dsimp only
      rw [e1, e3]
      exact g1 d (hmem d hd)
    · dsimp only
      rw [e2, e4]
      exact g2 d (hmem d hd)
    · dsimp only at hpd ⊢
      rw [e1]
      exact g3 d (hmem d hd) (e4 d ▸ hpd)
    · dsimp only
      rw [m1, g4, hcu, ← Finset.add_sum_erase _ _ hct', add_sub_cancel_left]
      exact Finset.sum_congr rfl (fun d _ => (e1 d).symm)
    · dsimp only
      rw [m2, g5, hcu, ← Finset.add_sum_erase _ _ hct', add_sub_cancel_left]
      exact Finset.sum_congr rfl (fun d _ => (e2 d).symm)
    · dsimp only
      rw [m1, m2, m3]
  have hbound : KeysBounded u u.pages := hfu.keysBounded hsubu (hf.keysBounded hsub h.bounded)
  have hPu : P ∩ t.pages = P ∩ u.pages := by
    ext b
    rw [Finset.mem_inter, Finset.mem_inter]
    exact ⟨fun hb => ⟨hb.1, hcu.pinned_mem (Finset.mem_inter.mpr hb)⟩,
      fun hb => ⟨hb.1, hsubu hb.2⟩⟩
  have hcu' := hcu.dropCache hnou
  rw [hPu] at hcu'
  refine ⟨{ u with caches := u.caches.erase c }, ?_, ⟨⟨l₂, hcu'⟩, hbound, hlim⟩, fun b hb hbc => ?_, hnou⟩
  · unfold pcache1Destroy
    simp only [ht, Option.bind_eq_bind, Option.bind_some]
    rw [hu]
    rfl
  · have hbt : b ∈ t.pages := (hp b).mpr ⟨hcore.pinned_mem hb, fun e => hbc e.1⟩
    exact ⟨hcu.pinned_mem (Finset.mem_inter.mpr ⟨hb, hbt⟩), by
      change u.pCache b = _; rw [hfu.pCache]; exact congrFun hf.pCache b, by
      change u.iKey b = _; rw [hfu.iKey]; exact congrFun hf.iKey b⟩

section Rekey
variable {h : ℕ} {pp : Option ℕ} {iNew : UInt32}

/-- `pcache1Rekey` from the removal on. -/
def rekeyed (s : State) (c h : ℕ) (pp : Option ℕ) (a : ℕ) (iNew : UInt32) : State :=
  let s := s.assign c h pp (s.pNext a)
  let p := s.cache c
  let h := (iNew % p.nHash).toNat
  let s := { s with
    iKey := Function.update s.iKey a iNew
    pNext := Function.update s.pNext a (p.apHash h) }
  s.setCache c { p with
    apHash := Function.update p.apHash h (some a)
    iMaxKey := if p.iMaxKey < iNew then iNew else p.iMaxKey }

theorem rekeyed_enters (s : State) (c h : ℕ) (pp : Option ℕ) (iNew : UInt32) (hac : s.pCache a = c) :
    Enters (spliced s c h pp a) (rekeyed s c h pp a iNew) c iNew a := by
  have hpc : Function.update s.pCache a c = s.pCache := by rw [← hac, Function.update_eq_self]
  cases pp with
  | none =>
    rw [spliced_none]
    refine ⟨rfl, ?_, hpc.symm, rfl, fun d => ?_, ?_, fun d hd => ?_⟩
    · simp [rekeyed, State.assign, State.setCache]
    · by_cases hd : d = c <;> simp [rekeyed, State.assign, State.setCache, hd]
    · simp [rekeyed, State.assign, State.setCache]
    · simp [rekeyed, State.assign, State.setCache, hd]
  | some y =>
    rw [spliced_some]
    refine ⟨rfl, ?_, hpc.symm, rfl, fun d => ?_, ?_, fun d hd => ?_⟩
    · simp [rekeyed, State.assign, State.setCache]
    · by_cases hd : d = c <;> simp [rekeyed, State.assign, State.setCache, hd]
    · simp [rekeyed, State.assign, State.setCache]
    · simp [rekeyed, State.assign, State.setCache, hd]

/-- Rekeying keeps pages in their caches and off or on the LRU list. -/
theorem rekeyed_same (s : State) (c h : ℕ) (pp : Option ℕ) (a : ℕ) (iNew : UInt32) :
    (rekeyed s c h pp a iNew).pLruNext = s.pLruNext ∧
      (rekeyed s c h pp a iNew).pLruPrev = s.pLruPrev ∧
      (rekeyed s c h pp a iNew).grp = s.grp ∧ (rekeyed s c h pp a iNew).pages = s.pages ∧
      (rekeyed s c h pp a iNew).pCache = s.pCache ∧ (rekeyed s c h pp a iNew).caches = s.caches := by
  cases pp <;> exact ⟨rfl, rfl, rfl, rfl, rfl, rfl⟩

theorem rekeyed_cache (s : State) (c h : ℕ) (pp : Option ℕ) (a : ℕ) (iNew : UInt32) (d : ℕ) :
    ((rekeyed s c h pp a iNew).cache d).fixed = (s.cache d).fixed ∧
      ((rekeyed s c h pp a iNew).cache d).nRecyclable = (s.cache d).nRecyclable := by
  cases pp <;> by_cases hd : d = c <;>
    simp [rekeyed, State.assign, State.setCache, hd, PCache1.fixed]

theorem rekeyed_maxKey (s : State) (c h : ℕ) (pp : Option ℕ) (a : ℕ) (iNew : UInt32) (d : ℕ) :
    (s.cache d).iMaxKey ≤ ((rekeyed s c h pp a iNew).cache d).iMaxKey ∧
      (d = c → iNew ≤ ((rekeyed s c h pp a iNew).cache d).iMaxKey) := by
  by_cases hd : d = c
  · have hm : ((rekeyed s c h pp a iNew).cache d).iMaxKey =
        if (s.cache c).iMaxKey < iNew then iNew else (s.cache c).iMaxKey := by
      subst hd
      cases pp with
      | none => simp only [rekeyed, State.assign, State.setCache, Function.update_self]
      | some y =>
        change (Function.update s.cache d _ d).iMaxKey = _
        rw [Function.update_self]
        rfl
    rw [hm, hd]
    split_ifs with hlt
    · exact ⟨UInt32.le_of_lt hlt, fun _ => UInt32.le_refl _⟩
    · exact ⟨UInt32.le_refl _, fun _ => UInt32.not_lt.mp hlt⟩
  · have hm : ((rekeyed s c h pp a iNew).cache d).iMaxKey = (s.cache d).iMaxKey := by
      cases pp <;> simp [rekeyed, State.assign, State.setCache, hd]
    rw [hm]
    exact ⟨UInt32.le_refl _, fun e => absurd e hd⟩

theorem Inv.rekey (hi : Inv s P) (ha : a ∈ s.owned s.pages c)
    (hnew : ∀ b ∈ s.owned s.pages c, s.iKey b ≠ iNew) :
    ∃ s', pcache1Rekey s c a (s.iKey a) iNew = some s' ∧ Inv s' P ∧ s'.pages = s.pages ∧
      s'.pCache = s.pCache ∧ s'.iKey = Function.update s.iKey a iNew := by
  obtain ⟨l, hcore⟩ := hi.core
  obtain ⟨hap, rfl⟩ := State.mem_owned.mp ha
  have hc := hcore.hashed.owner a hap
  obtain ⟨pp, hl, hd, hp⟩ := locate_spec hcore.hashed hcore.sub hap rfl
  have hE := rekeyed_enters s _ (s.slot (s.cache (s.pCache a)).nHash a) pp iNew (a := a) rfl
  obtain ⟨g1, g2, g3, g4, g5, g6⟩ := rekeyed_same s (s.pCache a)
    (s.slot (s.cache (s.pCache a)).nHash a) pp a iNew
  have g7 := rekeyed_cache s (s.pCache a) (s.slot (s.cache (s.pCache a)).nHash a) pp a iNew
  have g8 := rekeyed_maxKey s (s.pCache a) (s.slot (s.cache (s.pCache a)).nHash a) pp a iNew
  have hsp := hcore.hashed.splice hap rfl rfl hd hp
  have hf := spliced_frame s (s.pCache a) (s.slot (s.cache (s.pCache a)).nHash a) pp a
  have hh := hE.hashed hsp (hf.caches ▸ hc) (Finset.notMem_erase a s.pages)
    (hf.hash_pos _ (hcore.hashed.hash_pos a hap)) (fun b hb => by
      rw [hf.owned, owned_erase] at hb
      rw [hf.iKey]
      exact hnew b (Finset.mem_of_mem_erase hb))
  rw [Finset.insert_erase hap] at hh
  have hk : (rekeyed s (s.pCache a) (s.slot (s.cache (s.pCache a)).nHash a) pp a iNew).iKey =
      Function.update s.iKey a iNew := hE.iKey.trans (by rw [hf.iKey])
  have hrun : pcache1Rekey s (s.pCache a) a (s.iKey a) iNew =
      some (rekeyed s (s.pCache a) (s.slot (s.cache (s.pCache a)).nHash a) pp a iNew) := by
    unfold pcache1Rekey
    have hl' : loop (fun pp => if s.deref (s.pCache a)
        (s.iKey a % (s.cache (s.pCache a)).nHash).toNat pp ≠ some a then
        .inl (s.deref (s.pCache a) (s.iKey a % (s.cache (s.pCache a)).nHash).toNat pp)
        else .inr pp) s.fuel none = some pp := hl
    simp only [hl', Option.bind_eq_bind, Option.bind_some]
    rfl
  generalize rekeyed s (s.pCache a) (s.slot (s.cache (s.pCache a)).nHash a) pp a iNew = t at *
  refine ⟨t, hrun, ⟨⟨l, g4.symm ▸ hh, ?_, ?_, ?_, ?_, ?_⟩, fun b hb => ?_, ?_⟩, g4, g5, hk⟩
  · exact hcore.lru.congr g1 g2 g5 g6 (by rw [g3]) (by rw [g3]) (fun d => (g7 d).2)
  · exact Finset.Subset.refl _
  · rw [g4]
    exact hcore.mem_lru
  · rw [g1, g2, g4]
    exact hcore.pinned
  · have hpur : t.purgeable t.pages = s.purgeable s.pages := by
      unfold State.purgeable
      rw [g4, g5]
      refine Finset.filter_congr (fun b _ => ?_)
      have he := congrArg PCache1.bPurgeable (g7 (s.pCache b)).1
      rw [show (t.cache (s.pCache b)).bPurgeable = _ from he]
      rfl
    rw [g3, hpur]
    exact hcore.nCurrentPage
  · rw [g5, hk, Function.update_apply]
    split_ifs with hba
    · exact (g8 (s.pCache b)).2 (by rw [hba])
    · exact UInt32.le_trans (hi.bounded b (g4 ▸ hb)) (g8 (s.pCache b)).1
  · exact hi.limits.congr g6 (fun d => (g7 d).1) (by rw [g3]) (by rw [g3]) (by rw [g3])

end Rekey

section Create

/-- A new cache has no pages yet. -/
theorem Core.addCache (h : Core s s.pages P l x) (hc : c ∉ s.caches) {p : PCache1}
    (h1 : p.nRecyclable = 0) (h2 : p.nPage = 0) (h3 : p.apHash = fun _ => none) :
    Core (State.setCache { s with caches := insert c s.caches } c p) s.pages P l x := by
  have hne : ∀ a ∈ s.pages, s.pCache a ≠ c := fun a ha e => hc (e ▸ h.hashed.owner a ha)
  have hnel : ∀ a ∈ l, s.pCache a ≠ c := fun a ha e => hc (e ▸ h.lru.owner a ha)
  have howned : s.owned s.pages c = ∅ := Finset.filter_eq_empty_iff.mpr hne
  have hold : ∀ d ∈ s.caches, Function.update s.cache c p d = s.cache d := fun d hd =>
    Function.update_of_ne (ne_of_mem_of_not_mem hd hc) _ _
  obtain ⟨⟨o1, o2, o3, o4, o5⟩, ⟨q1, q2, q3, q4, q5, q6⟩, g3, g4, g5, g6⟩ := h
  refine ⟨⟨fun a ha => Finset.mem_insert_of_mem (o1 a ha), o2, fun a ha => ?_, fun d hd => ?_,
    fun d hd => ?_⟩, ⟨fun a ha => Finset.mem_insert_of_mem (q1 a ha), q2, q3, q4, q5, fun d hd => ?_⟩,
    g3, g4, g5, g6.trans ?_⟩
  · change (Function.update s.cache c p (s.pCache a)).nHash ≠ 0
    rw [hold _ (o1 a ha)]
    exact o3 a ha
  · change Table s.pNext (Function.update s.cache c p d).apHash
      (s.slot (Function.update s.cache c p d).nHash) {a | a ∈ s.owned s.pages d}
    rcases Finset.mem_insert.mp hd with rfl | hd
    · rw [Function.update_self, h3, howned]
      simpa using Table.empty
    · rw [hold d hd]
      exact o4 d hd
  · change (Function.update s.cache c p d).nPage = .ofNat (s.owned s.pages d).card
    rcases Finset.mem_insert.mp hd with rfl | hd
    · rw [Function.update_self, h2, howned]
      rfl
    · rw [hold d hd]
      exact o5 d hd
  · change (Function.update s.cache c p d).nRecyclable = .ofNat (l.countP (fun a => s.pCache a = d))
    rcases Finset.mem_insert.mp hd with rfl | hd
    · rw [Function.update_self, h1, List.countP_eq_zero.mpr (fun a ha => by simpa using hnel a ha)]
      rfl
    · rw [hold d hd]
      exact q6 d hd
  · refine congrArg (fun n => UInt32.ofNat (Finset.card n) + x) (Finset.filter_congr (fun a ha => ?_))
    change _ ↔ (Function.update s.cache c p (s.pCache a)).bPurgeable = true
    rw [hold _ (o1 a ha)]

theorem Limits.addCache (h : Limits s) (hc : c ∉ s.caches) {p : PCache1} (h1 : p.nMax = 0)
    (h2 : p.n90pct = 0) (h3 : p.nMin = if p.bPurgeable then 10 else 0) {g : PGroup}
    (hg1 : g.nMaxPage = s.grp.nMaxPage) (hg2 : g.nMinPage = s.grp.nMinPage + p.nMin)
    (hg3 : g.mxPinned = g.nMaxPage + 10 - g.nMinPage) :
    Limits ((State.setCache { s with caches := insert c s.caches } c p).setGrp g) := by
  have hold : ∀ d ∈ s.caches, Function.update s.cache c p d = s.cache d := fun d hd =>
    Function.update_of_ne (ne_of_mem_of_not_mem hd hc) _ _
  obtain ⟨g1, g2, g3, g4, g5, -⟩ := h
  have hsum : ∀ f : PCache1 → UInt32, ∑ d ∈ insert c s.caches, f (Function.update s.cache c p d) =
      f p + ∑ d ∈ s.caches, f (s.cache d) := fun f => by
    rw [Finset.sum_insert hc, Function.update_self]
    exact congrArg (f p + ·) (Finset.sum_congr rfl (fun d hd => by rw [hold d hd]))
  refine ⟨fun d hd => ?_, fun d hd => ?_, fun d hd => ?_, ?_, ?_, hg3⟩
  · change (Function.update s.cache c p d).n90pct = (Function.update s.cache c p d).nMax * 9 / 10
    rcases Finset.mem_insert.mp hd with rfl | hd
    · rw [Function.update_self, h1, h2]
      decide
    · rw [hold d hd]
      exact g1 d hd
  · change (Function.update s.cache c p d).nMin =
      if (Function.update s.cache c p d).bPurgeable then 10 else 0
    rcases Finset.mem_insert.mp hd with rfl | hd
    · rw [Function.update_self, h3]
    · rw [hold d hd]
      exact g2 d hd
  · change (Function.update s.cache c p d).bPurgeable = false → (Function.update s.cache c p d).nMax = 0
    rcases Finset.mem_insert.mp hd with rfl | hd
    · rw [Function.update_self]
      exact fun _ => h1
    · rw [hold d hd]
      exact g3 d hd
  · have he := hsum PCache1.nMax
    rw [h1, zero_add, ← g4, ← hg1] at he
    exact he.symm
  · have he := hsum PCache1.nMin
    rw [← g5, add_comm, ← hg2] at he
    exact he.symm

theorem Inv.create (h : Inv s P) (szPage szExtra : ℕ) (bPurgeable : Bool) {mem : Option ℕ}
    (hm : ∀ c, mem = some c → c ∉ s.caches) :
    Inv (pcache1Create s szPage szExtra bPurgeable mem).1 P ∧
      (pcache1Create s szPage szExtra bPurgeable mem).1.pages = s.pages ∧
      (pcache1Create s szPage szExtra bPurgeable mem).1.pCache = s.pCache ∧
      (pcache1Create s szPage szExtra bPurgeable mem).1.iKey = s.iKey := by
  cases mem with
  | none => exact ⟨h, rfl, rfl, rfl⟩
  | some c =>
    have hc := hm c rfl
    obtain ⟨l, hcore⟩ := h.core
    have hbound : ∀ p : PCache1,
        KeysBounded (State.setCache { s with caches := insert c s.caches } c p) s.pages := by
      intro p a ha
      have hne : s.pCache a ≠ c := fun e => hc (e ▸ hcore.hashed.owner a ha)
      change s.iKey a ≤ (Function.update s.cache c p (s.pCache a)).iMaxKey
      rw [Function.update_of_ne hne]
      exact h.bounded a ha
    cases bPurgeable with
    | true =>
      refine ⟨⟨⟨l, (hcore.addCache hc rfl rfl rfl).setGrp_limits _ rfl rfl rfl⟩, hbound _, ?_⟩,
        rfl, rfl, rfl⟩
      exact h.limits.addCache hc rfl rfl rfl rfl rfl rfl
    | false =>
      refine ⟨⟨⟨l, hcore.addCache hc rfl rfl rfl⟩, hbound _, ?_⟩, rfl, rfl, rfl⟩
      exact h.limits.addCache hc rfl rfl rfl rfl (add_zero _).symm h.limits.mxPinned

end Create

end Sqlite.Pcache1

import Sqlite.Pcache1.Hash

/-! Discarding pages: one page, those over the limit, those from a key on. -/
namespace Sqlite.Pcache1
open Foundation

variable {s : State} {S P : Finset ℕ} {l : List ℕ} {x : UInt32} {a c : ℕ}

theorem pcache1FreePage_frame (s : State) (a : ℕ) : Frame s (pcache1FreePage s a) := by
  unfold pcache1FreePage
  dsimp only
  split_ifs <;> exact ⟨rfl, rfl, rfl, fun _ => rfl, fun _ => rfl, fun _ h => h, rfl, rfl, rfl⟩

theorem pcache1FreePage_pages (s : State) (a : ℕ) : (pcache1FreePage s a).pages = s.pages.erase a := by
  unfold pcache1FreePage
  dsimp only
  split_ifs <;> rfl

theorem pcache1PinPage_pages (s : State) (a : ℕ) : (pcache1PinPage s a).pages = s.pages := by
  by_cases h : s.pLruNext a ≠ none ∨ s.grp.pLruTail = some a
  · rw [pcache1PinPage_eq h]
  · rw [pcache1PinPage, if_neg h]

/-- A pinned page is taken out of its table and freed. -/
theorem Core.discard (h : Core s S P l x) (ha : a ∈ S) (hP : a ∈ P) :
    ∃ s', pcache1RemoveFromHash s a = some s' ∧ Frame s (pcache1FreePage s' a) ∧
      (pcache1FreePage s' a).pages = s.pages.erase a ∧
      Core (pcache1FreePage s' a) (S.erase a) (P.erase a) l x := by
  obtain ⟨s', hr, hf, hp, h'⟩ := h.remove ha
  refine ⟨s', hr, hf.trans (pcache1FreePage_frame s' a), ?_, ?_⟩
  · rw [pcache1FreePage_pages, hp]
  · have hx := h'.free hP (Finset.notMem_erase a S)
    rw [hf.pCache, hf.bPurgeable, add_sub_cancel_right] at hx
    exact hx

/-- An unpinned page is taken off the LRU list, out of its table, and freed. -/
theorem Core.evict (h : Core s S P l x) (ha : a ∈ S) (hl : a ∈ l) :
    ∃ s', pcache1RemoveFromHash (pcache1PinPage s a) a = some s' ∧ Frame s (pcache1FreePage s' a) ∧
      (pcache1FreePage s' a).pages = s.pages.erase a ∧
      Core (pcache1FreePage s' a) (S.erase a) P (l.erase a) x := by
  obtain ⟨s', hr, hf, hp, h'⟩ := (h.pin (h.sub ha)).discard ha (Finset.mem_insert_self a P)
  rw [Finset.erase_insert ((h.mem_lru a).mp hl).2] at h'
  exact ⟨s', hr, (pcache1PinPage_frame s a).trans hf, by rw [hp, pcache1PinPage_pages], h'⟩

/-- Only unpinned pages go when the group is over its limit. -/
theorem Core.enforce (h : Core s s.pages P l x) :
    ∃ s' l', pcache1EnforceMaxPage s = some s' ∧ Frame s s' ∧ s'.pages ⊆ s.pages ∧
      Core s' s'.pages P l' x := by
  obtain ⟨r, hr, s', l', rfl, hq⟩ := loop_total
    (f := enforceRound)
    (fun n (r : Option State) => ∃ s' l', r = some s' ∧ n = s'.pages.card ∧ Frame s s' ∧
      s'.pages ⊆ s.pages ∧ Core s' s'.pages P l' x)
    (fun r : Option State => ∃ s' l', r = some s' ∧ Frame s s' ∧ s'.pages ⊆ s.pages ∧
      Core s' s'.pages P l' x)
    (by
      rintro n r r' ⟨t, l', rfl, rfl, hf, hsub, ht⟩ hb
      dsimp only [enforceRound] at hb
      cases htail : t.grp.pLruTail with
      | none =>
        rw [htail] at hb
        cases hb
      | some p =>
        rw [htail] at hb
        dsimp only at hb
        split_ifs at hb
        obtain rfl := Sum.inl.inj hb
        have hpl : p ∈ l' := List.mem_of_getLast? (ht.lru.tail ▸ htail)
        have hpp := ((ht.mem_lru p).mp hpl).1
        obtain ⟨u, hu, hfu, hpu, hcu⟩ := ht.evict hpp hpl
        refine ⟨(t.pages.erase p).card, Finset.card_erase_lt_of_mem hpp, pcache1FreePage u p, _,
          by rw [hu]; rfl, by rw [hpu], hf.trans hfu, ?_, by rw [hpu]; exact hcu⟩
        rw [hpu]
        exact (Finset.erase_subset p _).trans hsub)
    (by
      rintro n r r' ⟨t, l', rfl, -, hf, hsub, ht⟩ hb
      dsimp only [enforceRound] at hb
      cases htail : t.grp.pLruTail with
      | none =>
        rw [htail] at hb
        exact ⟨t, l', (Sum.inr.inj hb).symm, hf, hsub, ht⟩
      | some p =>
        rw [htail] at hb
        dsimp only at hb
        split_ifs at hb
        exact ⟨t, l', (Sum.inr.inj hb).symm, hf, hsub, ht⟩)
    s.fuel s.pages.card (some s) ⟨s, l, rfl, rfl, Frame.refl s, Finset.Subset.refl _, h⟩
    (Nat.lt_succ_self _)
  refine ⟨s', l', ?_, hq⟩
  unfold pcache1EnforceMaxPage
  rw [hr]
  rfl

section Truncate
variable {h : ℕ} {pp : Option ℕ}

/-- One removal of `pcache1TruncateUnsafe`. -/
def dropped (s : State) (c h : ℕ) (pp : Option ℕ) (a : ℕ) : State :=
  let s := s.setCache c { s.cache c with nPage := (s.cache c).nPage - 1 }
  pcache1FreePage (pcache1PinPage (s.assign c h pp (s.pNext a)) a) a

theorem dropped_eq (s : State) (c h : ℕ) (pp : Option ℕ) (a : ℕ) :
    dropped s c h pp a = pcache1FreePage (pcache1PinPage (spliced s c h pp a) a) a := by
  unfold dropped
  dsimp only
  congr 2
  cases pp with
  | none => simp [spliced_none, State.assign, State.setCache]
  | some y => simp [spliced_some, State.assign, State.setCache]

theorem dropped_nHash (s : State) (c h : ℕ) (pp : Option ℕ) (a d : ℕ) :
    ((dropped s c h pp a).cache d).nHash = (s.cache d).nHash := by
  have hfree : ∀ t : State, (pcache1FreePage t a).cache = t.cache := fun t => by
    unfold pcache1FreePage
    dsimp only
    split_ifs <;> rfl
  have hpin : ∀ t : State, ((pcache1PinPage t a).cache d).nHash = (t.cache d).nHash := fun t => by
    by_cases ht : t.pLruNext a ≠ none ∨ t.grp.pLruTail = some a
    · rw [pcache1PinPage_eq ht]
      by_cases hd : d = t.pCache a <;> simp [hd]
    · rw [pcache1PinPage, if_neg ht]
  rw [dropped_eq, hfree, hpin]
  cases pp with
  | none =>
    rw [spliced_none]
    by_cases hd : d = c <;> simp [hd]
  | some y =>
    rw [spliced_some]
    by_cases hd : d = c <;> simp [hd]

theorem dropped_pNext (s : State) (c h : ℕ) (pp : Option ℕ) (a : ℕ) :
    (dropped s c h pp a).pNext = (spliced s c h pp a).pNext := by
  have hfree : ∀ t : State, (pcache1FreePage t a).pNext = t.pNext := fun t => by
    unfold pcache1FreePage
    dsimp only
    split_ifs <;> rfl
  rw [dropped_eq, hfree]
  by_cases ht : (spliced s c h pp a).pLruNext a ≠ none ∨ (spliced s c h pp a).grp.pLruTail = some a
  · rw [pcache1PinPage_eq ht]
  · rw [pcache1PinPage, if_neg ht]

theorem dropped_deref (s : State) (c h : ℕ) (pp : Option ℕ) (a : ℕ) :
    (dropped s c h pp a).deref c h pp = s.pNext a := by
  cases pp with
  | some y =>
    change (dropped s c h (some y) a).pNext y = _
    rw [dropped_pNext, spliced_some]
    exact Function.update_self _ _ _
  | none =>
    have hfree : ∀ t : State, (pcache1FreePage t a).cache = t.cache := fun t => by
      unfold pcache1FreePage
      dsimp only
      split_ifs <;> rfl
    have hpin : ∀ t : State, ((pcache1PinPage t a).cache c).apHash = (t.cache c).apHash := fun t => by
      by_cases ht : t.pLruNext a ≠ none ∨ t.grp.pLruTail = some a
      · rw [pcache1PinPage_eq ht]
        by_cases hd : c = t.pCache a <;> simp [hd]
      · rw [pcache1PinPage, if_neg ht]
    change ((dropped s c h none a).cache c).apHash h = _
    rw [dropped_eq, hfree, hpin, spliced_none]
    simp

theorem Core.drop (hh : Core s S P l x) (ha : a ∈ S) (hca : s.pCache a = c)
    (hs : s.slot (s.cache c).nHash a = h) (hd : s.deref c h pp = some a) (hp : CursorOk s S c h pp) :
    Frame s (dropped s c h pp a) ∧ (dropped s c h pp a).pages = s.pages.erase a ∧
      Core (dropped s c h pp a) (S.erase a) (P.erase a) (l.erase a) x := by
  have hf := spliced_frame s c h pp a
  have hpages := (spliced_lru s c h pp a).2.2.2.1
  have hpin := pcache1PinPage_frame (spliced s c h pp a) a
  have h₁ := (hh.splice ha hca hs hd hp).pin (a := a) (by rw [hpages]; exact hh.sub ha)
  have h₂ := h₁.free (Finset.mem_insert_self a P) (Finset.notMem_erase a S)
  rw [Finset.erase_insert_eq_erase, hpin.pCache, hpin.bPurgeable, hf.pCache, hf.bPurgeable,
    add_sub_cancel_right] at h₂
  rw [dropped_eq]
  refine ⟨(hf.trans hpin).trans (pcache1FreePage_frame _ _), ?_, h₂⟩
  rw [pcache1FreePage_pages, pcache1PinPage_pages, hpages]

/-- The pages that the truncation of chain `h` discards. -/
def Doomed (s : State) (c h : ℕ) (iLimit : UInt32) (a : ℕ) : Prop :=
  s.pCache a = c ∧ s.slot (s.cache c).nHash a = h ∧ iLimit ≤ s.iKey a

/-- The truncation of chain `h` of `s` in the state `t` with the cursor at `pp`: `r` is what is
left of the chain. -/
structure Truncating (s : State) (P : Finset ℕ) (x : UInt32) (c h : ℕ) (iLimit : UInt32)
    (r l : List ℕ) (t : State) (pp : Option ℕ) : Prop where
  nodup : r.Nodup
  frame : Frame s t
  nHash : ∀ d, (t.cache d).nHash = (s.cache d).nHash
  chain : Chain t.pNext (t.deref c h pp) r
  cursor : CursorOk t t.pages c h pp
  behind : ∀ y, pp = some y → y ∉ r
  rest : ∀ a ∈ r, a ∈ t.pages ∧ s.pCache a = c ∧ s.slot (s.cache c).nHash a = h
  pages : ∀ a, a ∈ t.pages ↔ a ∈ s.pages ∧ ¬ (Doomed s c h iLimit a ∧ a ∉ r)
  core : Core t t.pages (P ∩ t.pages) l x

namespace Truncating
variable {iLimit : UInt32} {r : List ℕ} {t : State}

theorem slot (T : Truncating s P x c h iLimit (a :: r) l t pp) : t.slot (t.cache c).nHash a = h := by
  unfold State.slot
  rw [T.frame.iKey, T.nHash]
  exact (T.rest a (by simp)).2.2

theorem drop (T : Truncating s P x c h iLimit (a :: r) l t pp) (hlim : iLimit ≤ t.iKey a) :
    Truncating s P x c h iLimit r (l.erase a) (dropped t c h pp a) pp := by
  obtain ⟨har, hnd⟩ := List.nodup_cons.mp T.nodup
  obtain ⟨hd, hr⟩ := T.chain
  obtain ⟨hapg, hac, has⟩ := T.rest a (by simp)
  obtain ⟨hf, hp, hc⟩ := T.core.drop hapg (T.frame.pCache ▸ hac) T.slot hd T.cursor
  refine ⟨hnd, T.frame.trans hf, fun d => (dropped_nHash t c h pp a d).trans (T.nHash d), ?_,
    fun y hy => ?_, fun y hy e => T.behind y hy (by simp [e]), fun b hb => ?_, fun b => ?_, ?_⟩
  · rw [dropped_deref, dropped_pNext]
    cases pp with
    | none => rwa [spliced_none]
    | some y =>
      have hyr : y ∉ r := fun e => T.behind y rfl (by simp [e])
      rw [spliced_some]
      exact hr.congr (fun z hz => Function.update_of_ne (ne_of_mem_of_not_mem hz hyr) _ _)
  · obtain ⟨h1, h2⟩ := T.cursor y hy
    have hya : y ≠ a := fun e => T.behind y hy (by simp [e])
    rw [hp, hf.owned, owned_erase, dropped_nHash]
    refine ⟨Finset.mem_erase.mpr ⟨hya, h1⟩, ?_⟩
    unfold State.slot at h2 ⊢
    rwa [hf.iKey]
  · obtain ⟨h1, h2⟩ := T.rest b (by simp [hb])
    rw [hp]
    exact ⟨Finset.mem_erase.mpr ⟨ne_of_mem_of_not_mem hb har, h1⟩, h2⟩
  · have hdoom : Doomed s c h iLimit a := ⟨hac, has, T.frame.iKey ▸ hlim⟩
    rw [hp, Finset.mem_erase, T.pages, List.mem_cons]
    by_cases hba : b = a
    · subst hba
      tauto
    · tauto
  · rw [hp, Finset.inter_erase]
    exact hc

theorem skip (T : Truncating s P x c h iLimit (a :: r) l t pp) (hlim : ¬ iLimit ≤ t.iKey a) :
    Truncating s P x c h iLimit r l t (some a) := by
  obtain ⟨har, hnd⟩ := List.nodup_cons.mp T.nodup
  obtain ⟨hapg, hac, has⟩ := T.rest a (by simp)
  refine ⟨hnd, T.frame, T.nHash, T.chain.2, fun y hy => ?_, fun y hy => ?_,
    fun b hb => T.rest b (by simp [hb]), fun b => ?_, T.core⟩
  · obtain rfl := Option.some.inj hy
    exact ⟨State.mem_owned.mpr ⟨hapg, T.frame.pCache ▸ hac⟩, T.slot⟩
  · obtain rfl := Option.some.inj hy
    exact har
  · have hnot : b = a → ¬ Doomed s c h iLimit b := by
      rintro rfl hdoom
      exact hlim (T.frame.iKey ▸ hdoom.2.2)
    rw [T.pages, List.mem_cons]
    tauto

end Truncating

theorem truncateChain_spec (hh : Core s s.pages P l x) (hc : c ∈ s.caches) (iLimit : UInt32) (h : ℕ) :
    ∃ s', truncateChain s c iLimit h = some s' ∧ ∃ l', Frame s s' ∧
      (∀ d, (s'.cache d).nHash = (s.cache d).nHash) ∧
      (∀ a, a ∈ s'.pages ↔ a ∈ s.pages ∧ ¬ Doomed s c h iLimit a) ∧
      Core s' s'.pages (P ∩ s'.pages) l' x := by
  obtain ⟨l₀, hl₀, hnd₀, hm₀⟩ := (hh.hashed.table c hc).chain h
  have hlen : l₀.length ≤ s.pages.card :=
    length_le_card hnd₀ (fun b hb => (State.mem_owned.mp ((hm₀ b).mp hb).1).1)
  have hstart : Truncating s P x c h iLimit l₀ l s none := by
    refine ⟨hnd₀, Frame.refl s, fun _ => rfl, hl₀, nofun, nofun,
      fun a ha => ?_, fun a => ?_, ?_⟩
    · obtain ⟨h1, h2⟩ := (hm₀ a).mp ha
      exact ⟨(State.mem_owned.mp h1).1, (State.mem_owned.mp h1).2, h2⟩
    · have hin : a ∈ s.pages → Doomed s c h iLimit a → a ∈ l₀ := fun hp hd =>
        (hm₀ a).mpr ⟨State.mem_owned.mpr ⟨hp, hd.1⟩, hd.2.1⟩
      tauto
    · rw [Finset.inter_eq_left.mpr (fun b hb => (hh.pinned b hb).1)]
      exact hh
  refine loop_total
    (fun n (sp : State × Option ℕ) =>
      ∃ r l', n = r.length ∧ Truncating s P x c h iLimit r l' sp.1 sp.2)
    (fun s' => ∃ l', Frame s s' ∧ (∀ d, (s'.cache d).nHash = (s.cache d).nHash) ∧
      (∀ a, a ∈ s'.pages ↔ a ∈ s.pages ∧ ¬ Doomed s c h iLimit a) ∧
      Core s' s'.pages (P ∩ s'.pages) l' x)
    ?_ ?_ s.fuel l₀.length (s, none) ⟨l₀, l, rfl, hstart⟩ (by unfold State.fuel; omega)
  · rintro n ⟨t, pp⟩ sp ⟨r, l', rfl, T⟩ hb
    have hr := T.chain
    dsimp only at T hb hr
    cases r with
    | nil =>
      rw [show t.deref c h pp = none from hr] at hb
      cases hb
    | cons a r =>
      rw [hr.1] at hb
      dsimp only at hb
      by_cases hlim : iLimit ≤ t.iKey a
      · rw [if_pos hlim] at hb
        obtain rfl := Sum.inl.inj hb
        exact ⟨r.length, by simp, r, l'.erase a, rfl, T.drop hlim⟩
      · rw [if_neg hlim] at hb
        obtain rfl := Sum.inl.inj hb
        exact ⟨r.length, by simp, r, l', rfl, T.skip hlim⟩
  · rintro n ⟨t, pp⟩ s' ⟨r, l', rfl, T⟩ hb
    have hr := T.chain
    dsimp only at T hb hr
    cases r with
    | nil =>
      rw [show t.deref c h pp = none from hr] at hb
      obtain rfl := Sum.inr.inj hb
      exact ⟨l', T.frame, T.nHash, fun a => (T.pages a).trans (by simp), T.core⟩
    | cons a r =>
      rw [hr.1] at hb
      dsimp only at hb
      split_ifs at hb

theorem truncateChains_spec (hh : Core s s.pages P l x) (hc : c ∈ s.caches) (iLimit : UInt32)
    (n : ℕ) : ∃ s' l', truncateChains s c iLimit n = some s' ∧ Frame s s' ∧
      (∀ d, (s'.cache d).nHash = (s.cache d).nHash) ∧
      (∀ a, a ∈ s'.pages ↔ a ∈ s.pages ∧ ¬ ∃ h < n, Doomed s c h iLimit a) ∧
      Core s' s'.pages (P ∩ s'.pages) l' x := by
  induction n with
  | zero =>
    refine ⟨s, l, rfl, Frame.refl s, fun _ => rfl, fun a => by simp, ?_⟩
    rw [Finset.inter_eq_left.mpr (fun b hb => (hh.pinned b hb).1)]
    exact hh
  | succ n ih =>
    obtain ⟨t, l₁, ht, hf, hn, hp, hc₁⟩ := ih
    obtain ⟨u, hu, l₂, hf₂, hn₂, hp₂, hc₂⟩ := truncateChain_spec hc₁ (hf.caches.symm ▸ hc) iLimit n
    refine ⟨u, l₂, ?_, hf.trans hf₂, fun d => (hn₂ d).trans (hn d), fun a => ?_, ?_⟩
    · unfold truncateChains
      rw [ht]
      exact hu
    · have hd : Doomed t c n iLimit a ↔ Doomed s c n iLimit a := by
        unfold Doomed State.slot
        rw [hf.iKey, hf.pCache, hn]
      rw [hp₂, hp, hd, and_assoc, ← not_or]
      refine and_congr_right (fun _ => not_congr ?_)
      constructor
      · rintro (⟨h, hlt, hh⟩ | hh)
        · exact ⟨h, by omega, hh⟩
        · exact ⟨n, by omega, hh⟩
      · rintro ⟨h, hlt, hh⟩
        rcases Nat.lt_succ_iff_lt_or_eq.mp hlt with hlt | rfl
        · exact Or.inl ⟨h, hlt, hh⟩
        · exact Or.inr hh
    · have hsub : u.pages ⊆ t.pages := fun b hb => ((hp₂ b).mp hb).1
      rw [Finset.inter_assoc, Finset.inter_eq_right.mpr hsub] at hc₂
      exact hc₂

/-- Truncation discards the pages of the cache from key `iLimit` on, pinned or not. -/
theorem Core.truncate (hh : Core s s.pages P l x) (hc : c ∈ s.caches) (iLimit : UInt32) :
    ∃ s' l', pcache1TruncateUnsafe s c iLimit = some s' ∧ Frame s s' ∧
      (∀ a, a ∈ s'.pages ↔ a ∈ s.pages ∧ ¬ (s.pCache a = c ∧ iLimit ≤ s.iKey a)) ∧
      Core s' s'.pages (P ∩ s'.pages) l' x := by
  obtain ⟨s', l', hs, hf, -, hp, hc'⟩ := truncateChains_spec hh hc iLimit (s.cache c).nHash.toNat
  refine ⟨s', l', hs, hf, fun a => (hp a).trans (and_congr_right (fun ha => not_congr ?_)), hc'⟩
  constructor
  · rintro ⟨h, -, h1, -, h3⟩
    exact ⟨h1, h3⟩
  · rintro ⟨rfl, h3⟩
    exact ⟨s.slot (s.cache (s.pCache a)).nHash a, hh.hashed.slot_lt ha, rfl, rfl, h3⟩

end Truncate
end Sqlite.Pcache1

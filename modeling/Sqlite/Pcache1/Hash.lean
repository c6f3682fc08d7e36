import Sqlite.Pcache1.Invariant

/-! Taking a page out of its hash chain. -/
namespace Sqlite.Pcache1
open Foundation

variable {s : State} {S P : Finset ℕ} {l : List ℕ} {x : UInt32} {a c : ℕ}

/-- A cursor stands on the head of chain `h` or behind one of its pages. -/
def CursorOk (s : State) (S : Finset ℕ) (c h : ℕ) (pp : Option ℕ) : Prop :=
  ∀ y, pp = some y → y ∈ s.owned S c ∧ s.slot (s.cache c).nHash y = h

/-- `*pp = pPage->pNext; pCache->nPage--` -/
def spliced (s : State) (c h : ℕ) (pp : Option ℕ) (a : ℕ) : State :=
  let s := s.assign c h pp (s.pNext a)
  s.setCache c { s.cache c with nPage := (s.cache c).nPage - 1 }

theorem spliced_none (s : State) (c h a : ℕ) : spliced s c h none a =
    { s with cache := Function.update s.cache c { s.cache c with
        apHash := Function.update (s.cache c).apHash h (s.pNext a)
        nPage := (s.cache c).nPage - 1 } } := by
  simp [spliced, State.assign, State.setCache]

theorem spliced_some (s : State) (c h a y : ℕ) : spliced s c h (some y) a =
    { s with
      pNext := Function.update s.pNext y (s.pNext a)
      cache := Function.update s.cache c { s.cache c with nPage := (s.cache c).nPage - 1 } } := rfl

theorem spliced_frame (s : State) (c h : ℕ) (pp : Option ℕ) (a : ℕ) :
    Frame s (spliced s c h pp a) := by
  cases pp with
  | none =>
    rw [spliced_none]
    refine ⟨rfl, rfl, rfl, fun d => ?_, fun d => ?_, fun d => ?_, rfl, rfl, rfl⟩ <;>
      by_cases hd : d = c <;> simp [hd, PCache1.fixed]
  | some y =>
    rw [spliced_some]
    refine ⟨rfl, rfl, rfl, fun d => ?_, fun d => ?_, fun d => ?_, rfl, rfl, rfl⟩ <;>
      by_cases hd : d = c <;> simp [hd, PCache1.fixed]

theorem owned_erase (s : State) (S : Finset ℕ) (a c : ℕ) :
    s.owned (S.erase a) c = (s.owned S c).erase a := Finset.filter_erase _ _ _

theorem mem_owned_erase (s : State) (S : Finset ℕ) (a c : ℕ) :
    {b | b ∈ s.owned (S.erase a) c} = {b | b ∈ s.owned S c} \ {a} := by
  ext b
  rw [owned_erase]
  simp [and_comm]

theorem purgeable_erase (ha : a ∈ S) : UInt32.ofNat (s.purgeable S).card =
    .ofNat (s.purgeable (S.erase a)).card + (s.cache (s.pCache a)).bPurgeable.toUInt32 := by
  unfold State.purgeable
  rw [Finset.filter_erase]
  cases hb : (s.cache (s.pCache a)).bPurgeable with
  | false =>
    rw [Finset.erase_eq_of_notMem (by simp [hb])]
    exact (add_zero _).symm
  | true =>
    have hmem : a ∈ S.filter (fun b => (s.cache (s.pCache b)).bPurgeable) := by simp [ha, hb]
    have hpos := Finset.card_pos.mpr ⟨a, hmem⟩
    rw [Finset.card_erase_of_mem hmem, ← ofNat_sub_one hpos]
    exact (sub_add_cancel _ _).symm

section Splice
variable {h : ℕ} {pp : Option ℕ}

private theorem nPage_splice (hh : Hashed s S) (ha : a ∈ S) (hca : s.pCache a = c) (hc : c ∈ s.caches) :
    (s.cache c).nPage - 1 = .ofNat (s.owned (S.erase a) c).card := by
  have hmem : a ∈ s.owned S c := State.mem_owned.mpr ⟨ha, hca⟩
  rw [hh.nPage c hc, owned_erase, Finset.card_erase_of_mem hmem]
  exact ofNat_sub_one (Finset.card_pos.mpr ⟨a, hmem⟩)

private theorem owned_erase_of_ne {d : ℕ} (hca : s.pCache a = c) (hd : d ≠ c) :
    s.owned (S.erase a) d = s.owned S d := by
  rw [owned_erase, Finset.erase_eq_of_notMem]
  exact fun e => hd ((State.mem_owned.mp e).2.symm.trans hca)

theorem Hashed.splice (hh : Hashed s S) (ha : a ∈ S) (hca : s.pCache a = c)
    (hs : s.slot (s.cache c).nHash a = h) (hd : s.deref c h pp = some a) (hp : CursorOk s S c h pp) :
    Hashed (spliced s c h pp a) (S.erase a) := by
  have hc : c ∈ s.caches := hca ▸ hh.owner a ha
  have hT := hh.table c hc
  have hmem : ∀ {b}, b ∈ S.erase a → b ∈ S := fun hb => Finset.mem_of_mem_erase hb
  cases pp with
  | none =>
    rw [spliced_none]
    refine ⟨fun b hb => hh.owner b (hmem hb), fun b hb d hd => hh.key_inj b (hmem hb) d (hmem hd),
      fun b hb => ?_, fun d hd' => ?_, fun d hd' => ?_⟩
    · have hpos := hh.hash_pos b (hmem hb)
      by_cases hbc : s.pCache b = c
      · dsimp only
        rwa [hbc, Function.update_self, ← hbc]
      · dsimp only
        rwa [Function.update_of_ne hbc]
    · by_cases hdc : d = c
      · subst hdc
        have hr := hT.remove_head (x := a) (by rw [hs]; exact hd)
        rw [hs, ← mem_owned_erase] at hr
        simp only [Function.update_self]
        exact hr
      · simp only [Function.update_of_ne hdc]
        have hT' := hh.table d hd'
        rw [← owned_erase_of_ne hca hdc] at hT'
        exact hT'
    · by_cases hdc : d = c
      · subst hdc
        simp only [Function.update_self]
        exact nPage_splice hh ha hca hc
      · simp only [Function.update_of_ne hdc]
        rw [hh.nPage d hd']
        exact congrArg (fun S => UInt32.ofNat (Finset.card S)) (owned_erase_of_ne hca hdc).symm
  | some y =>
    obtain ⟨hy, hys⟩ := hp y rfl
    rw [spliced_some]
    refine ⟨fun b hb => hh.owner b (hmem hb), fun b hb d hd => hh.key_inj b (hmem hb) d (hmem hd),
      fun b hb => ?_, fun d hd' => ?_, fun d hd' => ?_⟩
    · have hpos := hh.hash_pos b (hmem hb)
      by_cases hbc : s.pCache b = c
      · dsimp only
        rwa [hbc, Function.update_self, ← hbc]
      · dsimp only
        rwa [Function.update_of_ne hbc]
    · by_cases hdc : d = c
      · subst hdc
        have hr := hT.remove_next (x := a) hy hd
        rw [← mem_owned_erase] at hr
        simp only [Function.update_self]
        exact hr
      · simp only [Function.update_of_ne hdc]
        have hT' := hh.table d hd'
        rw [← owned_erase_of_ne hca hdc] at hT'
        refine hT'.congr (fun b hb => Function.update_of_ne ?_ _ _) (fun _ _ => rfl)
        rintro rfl
        exact hdc ((State.mem_owned.mp hb).2.symm.trans (State.mem_owned.mp hy).2)
    · by_cases hdc : d = c
      · subst hdc
        simp only [Function.update_self]
        exact nPage_splice hh ha hca hc
      · simp only [Function.update_of_ne hdc]
        rw [hh.nPage d hd']
        exact congrArg (fun S => UInt32.ofNat (Finset.card S)) (owned_erase_of_ne hca hdc).symm

theorem spliced_lru (s : State) (c h : ℕ) (pp : Option ℕ) (a : ℕ) :
    (spliced s c h pp a).pLruNext = s.pLruNext ∧ (spliced s c h pp a).pLruPrev = s.pLruPrev ∧
      (spliced s c h pp a).grp = s.grp ∧ (spliced s c h pp a).pages = s.pages ∧
      ∀ d, ((spliced s c h pp a).cache d).nRecyclable = (s.cache d).nRecyclable := by
  cases pp with
  | none =>
    rw [spliced_none]
    refine ⟨rfl, rfl, rfl, rfl, fun d => ?_⟩
    by_cases hd : d = c <;> simp [hd]
  | some y =>
    rw [spliced_some]
    refine ⟨rfl, rfl, rfl, rfl, fun d => ?_⟩
    by_cases hd : d = c <;> simp [hd]

theorem Core.splice (hh : Core s S P l x) (ha : a ∈ S) (hca : s.pCache a = c)
    (hs : s.slot (s.cache c).nHash a = h) (hd : s.deref c h pp = some a) (hp : CursorOk s S c h pp) :
    Core (spliced s c h pp a) (S.erase a) P l (x + (s.cache (s.pCache a)).bPurgeable.toUInt32) := by
  have hf := spliced_frame s c h pp a
  obtain ⟨h1, h2, h3, h4, h5⟩ := spliced_lru s c h pp a
  refine ⟨hh.hashed.splice ha hca hs hd hp, hh.lru.congr h1 h2 hf.pCache hf.caches (by rw [h3])
    (by rw [h3]) h5, ?_, fun b => ?_, fun b hb => ?_, ?_⟩
  · rw [h4]
    exact (Finset.erase_subset a S).trans hh.sub
  · rw [h4]
    exact hh.mem_lru b
  · rw [h4, h1, h2]
    exact hh.pinned b hb
  · rw [h3, hf.purgeable, hh.nCurrentPage, purgeable_erase ha, add_assoc, add_comm x]

end Splice

/-- A chain is no longer than the number of pages. -/
theorem length_le_card {l : List ℕ} {S : Finset ℕ} (hnd : l.Nodup) (h : ∀ a ∈ l, a ∈ S) :
    l.length ≤ S.card := by
  rw [← List.toFinset_card_of_nodup hnd]
  exact Finset.card_le_card (fun a ha => h a (List.mem_toFinset.mp ha))

/-- The walk with a cursor stops in front of the page. -/
theorem locate_spec (hh : Hashed s S) (hsub : S ⊆ s.pages) (ha : a ∈ S) {h : ℕ}
    (hs : s.slot (s.cache (s.pCache a)).nHash a = h) :
    ∃ pp, loop (fun pp => if s.deref (s.pCache a) h pp ≠ some a then .inl (s.deref (s.pCache a) h pp)
        else .inr pp) s.fuel none = some pp ∧
      s.deref (s.pCache a) h pp = some a ∧ CursorOk s S (s.pCache a) h pp := by
  obtain ⟨l, hc, hnd, hm⟩ := (hh.table _ (hh.owner a ha)).chain h
  have hal : a ∈ l := (hm a).mpr ⟨State.mem_owned.mpr ⟨ha, rfl⟩, hs⟩
  have hlen : l.length ≤ s.pages.card :=
    length_le_card hnd (fun b hb => hsub (State.mem_owned.mp ((hm b).mp hb).1).1)
  refine loop_total
    (fun n pp => ∃ r, n = r.length ∧ a ∈ r ∧ (∀ b ∈ r, b ∈ l) ∧
      Chain s.pNext (s.deref (s.pCache a) h pp) r ∧ CursorOk s S (s.pCache a) h pp)
    (fun pp => s.deref (s.pCache a) h pp = some a ∧ CursorOk s S (s.pCache a) h pp)
    ?_ ?_ s.fuel l.length none ⟨l, rfl, hal, fun _ hb => hb, hc, fun y hy => by cases hy⟩
    (by unfold State.fuel; omega)
  · rintro n pp s' ⟨r, rfl, har, hrl, hr, -⟩ hb
    by_cases hne : s.deref (s.pCache a) h pp ≠ some a
    · rw [if_pos hne] at hb
      obtain rfl := Sum.inl.inj hb
      cases r with
      | nil => simp at har
      | cons y r =>
        obtain ⟨h1, h2⟩ := hr
        have hya : a ≠ y := fun e => hne (e ▸ h1)
        refine ⟨r.length, by simp, r, rfl, (List.mem_cons.mp har).resolve_left hya,
          fun b hb => hrl b (by simp [hb]), by rw [h1]; exact h2, fun z hz => ?_⟩
        rw [h1] at hz
        obtain rfl := Option.some.inj hz
        exact (hm y).mp (hrl y (by simp))
    · rw [if_neg hne] at hb
      cases hb
  · rintro n pp r ⟨q, -, -, -, -, hp⟩ hb
    by_cases hne : s.deref (s.pCache a) h pp ≠ some a
    · rw [if_pos hne] at hb
      cases hb
    · rw [if_neg hne] at hb
      obtain rfl := Sum.inr.inj hb
      exact ⟨not_not.mp hne, hp⟩

/-- A page is taken out of its table. -/
theorem Core.remove (hh : Core s S P l x) (ha : a ∈ S) :
    ∃ s', pcache1RemoveFromHash s a = some s' ∧ Frame s s' ∧ s'.pages = s.pages ∧
      Core s' (S.erase a) P l (x + (s.cache (s.pCache a)).bPurgeable.toUInt32) := by
  obtain ⟨pp, hl, hd, hp⟩ := locate_spec hh.hashed hh.sub ha rfl
  refine ⟨spliced s (s.pCache a) (s.slot (s.cache (s.pCache a)).nHash a) pp a, ?_,
    spliced_frame _ _ _ _ _, (spliced_lru _ _ _ _ _).2.2.2.1, hh.splice ha rfl rfl hd hp⟩
  unfold pcache1RemoveFromHash
  simp only [hl, Option.bind_eq_bind, Option.bind_some]
  rfl

theorem Hashed.slot_lt (h : Hashed s S) (ha : a ∈ S) :
    s.slot (s.cache (s.pCache a)).nHash a < (s.cache (s.pCache a)).nHash.toNat := by
  have hpos := h.hash_pos a ha
  have hnz : 0 < (s.cache (s.pCache a)).nHash.toNat :=
    Nat.pos_of_ne_zero (fun e => hpos (UInt32.toNat_inj.mp e))
  unfold State.slot
  rw [UInt32.toNat_mod]
  exact Nat.mod_lt _ hnz

end Sqlite.Pcache1

import Sqlite.Pcache1.Discard

/-! `pcache1Fetch`: lookup, recycling or allocating a page, and entering it under its key. -/
namespace Sqlite.Pcache1
open Foundation

section

/-! Growing a hash table: every page of the cache is moved to a chain of the new table. -/

variable {s t : State} {S P : Finset ℕ} {l : List ℕ} {x : UInt32} {a c : ℕ} {M : Set ℕ}
  {nNew : UInt32} {apNew : ℕ → Option ℕ}

/-- The pages of `M` have been moved; the links of the others are as they were. -/
structure Moved (s t : State) (nNew : UInt32) (apNew : ℕ → Option ℕ) (M : Set ℕ) : Prop where
  state : t = { s with pNext := t.pNext }
  kept : ∀ a, a ∉ M → t.pNext a = s.pNext a
  table : Table t.pNext apNew (s.slot nNew) M

theorem Moved.move (h : Moved s t nNew apNew M) (ha : a ∉ M) :
    Moved s { t with pNext := Function.update t.pNext a (apNew (t.slot nNew a)) } nNew
      (Function.update apNew (t.slot nNew a) (some a)) (insert a M) := by
  have hslot : t.slot nNew a = s.slot nNew a := by rw [h.state]; rfl
  rw [hslot]
  refine ⟨by rw [h.state], fun b hb => ?_, h.table.insert ha⟩
  rw [Set.mem_insert_iff, not_or] at hb
  exact (Function.update_of_ne hb.1 _ _).trans (h.kept b hb.2)

/-- One chain of the old table. -/
theorem rehashChain_spec {l : List ℕ} {p : Option ℕ} (h : Moved s t nNew apNew M)
    (hl : Chain s.pNext p l) (hnd : l.Nodup) (hM : ∀ a ∈ l, a ∉ M) (hlen : l.length ≤ s.pages.card) :
    ∃ r, rehashChain t nNew p apNew = some r ∧ Moved s r.1 nNew r.2 (M ∪ {a | a ∈ l}) := by
  refine loop_total
    (fun n (q : State × Option ℕ × (ℕ → Option ℕ)) => ∃ d r, l = d ++ r ∧ n = r.length ∧
      Chain s.pNext q.2.1 r ∧ Moved s q.1 nNew q.2.2 (M ∪ {a | a ∈ d}))
    (fun r : State × (ℕ → Option ℕ) => Moved s r.1 nNew r.2 (M ∪ {a | a ∈ l}))
    ?_ ?_ t.fuel l.length (t, p, apNew) ⟨[], l, rfl, rfl, hl, by simpa using h⟩ ?_
  · rintro n ⟨u, q, ap⟩ s' ⟨d, r, rfl, rfl, hr, hm⟩ hb
    dsimp only at hr hm hb
    cases r with
    | nil =>
      rw [show q = none from hr] at hb
      cases hb
    | cons a r =>
      obtain ⟨rfl, hr⟩ := hr
      obtain rfl := Sum.inl.inj hb
      have had : a ∉ d := fun e => by
        have := (List.nodup_append.mp hnd).2.2 a e a (by simp)
        exact this rfl
      have haM : a ∉ M ∪ {b | b ∈ d} := by
        rintro (e | e)
        · exact hM a (by simp) e
        · exact had e
      refine ⟨r.length, by simp, d ++ [a], r, by simp, rfl, ?_, ?_⟩
      · dsimp only
        rw [hm.kept a haM]
        exact hr
      · have hset : M ∪ {b | b ∈ d ++ [a]} = insert a (M ∪ {b | b ∈ d}) := by
          ext b
          simp only [Set.mem_union, Set.mem_ofPred_eq, List.mem_append, List.mem_singleton,
            Set.mem_insert_iff]
          tauto
        rw [hset]
        exact hm.move haM
  · rintro n ⟨u, q, ap⟩ r' ⟨d, r, rfl, rfl, hr, hm⟩ hb
    dsimp only at hr hm hb
    cases r with
    | nil =>
      rw [show q = none from hr] at hb
      obtain rfl := Sum.inr.inj hb
      simpa using hm
    | cons a r =>
      obtain ⟨rfl, hr⟩ := hr
      cases hb
  · have hp : t.pages = s.pages := by rw [h.state]
    unfold State.fuel
    rw [hp]
    omega

theorem rehash_spec (h : Hashed s S) (hsub : S ⊆ s.pages) (hc : c ∈ s.caches) (nNew : UInt32)
    (n : ℕ) : ∃ r, rehash s c nNew n = some r ∧ Moved s r.1 nNew r.2
      {a | a ∈ s.owned S c ∧ s.slot (s.cache c).nHash a < n} := by
  induction n with
  | zero =>
    refine ⟨(s, fun _ => none), rfl, rfl, fun _ _ => rfl, ?_⟩
    simpa using Table.empty
  | succ n ih =>
    obtain ⟨⟨t, ap⟩, hr, hm⟩ := ih
    dsimp only at hm
    obtain ⟨l, hl, hnd, hmem⟩ := (h.table c hc).chain n
    have hlen : l.length ≤ s.pages.card :=
      length_le_card hnd (fun b hb => hsub (State.mem_owned.mp ((hmem b).mp hb).1).1)
    obtain ⟨r, hr', hm'⟩ := rehashChain_spec hm hl hnd
      (fun b hb e => by have h1 := ((hmem b).mp hb).2; have h2 := e.2; omega) hlen
    refine ⟨r, ?_, ?_⟩
    · have hcache : t.cache = s.cache := by rw [hm.state]
      unfold rehash
      rw [hr]
      simp only [Option.bind_eq_bind, Option.bind_some, hcache]
      exact hr'
    · have hset : {a | a ∈ s.owned S c ∧ s.slot (s.cache c).nHash a < n + 1} =
          {a | a ∈ s.owned S c ∧ s.slot (s.cache c).nHash a < n} ∪ {a | a ∈ l} := by
        ext b
        have hb := hmem b
        simp only [Set.mem_ofPred_eq, Set.mem_union] at hb ⊢
        rw [hb, Nat.lt_succ_iff_lt_or_eq]
        tauto
      rw [hset]
      exact hm'

/-- The new table replaces the old one. -/
theorem Hashed.resize (h : Hashed s S) (hn : nNew ≠ 0)
    (hm : Moved s t nNew apNew {a | a ∈ s.owned S c}) :
    Hashed (t.setCache c { t.cache c with apHash := apNew, nHash := nNew }) S := by
  obtain ⟨f, rfl⟩ : ∃ f, t = { s with pNext := f } := ⟨_, hm.state⟩
  refine ⟨h.owner, h.key_inj, fun a ha => ?_, fun d hd => ?_, fun d hd => ?_⟩
  · by_cases hac : s.pCache a = c
    · simpa [State.setCache, hac] using hn
    · simpa [State.setCache, hac] using h.hash_pos a ha
  · by_cases hdc : d = c
    · subst hdc
      simp only [State.setCache, Function.update_self]
      exact hm.table
    · simp only [State.setCache, Function.update_of_ne hdc]
      refine (h.table d hd).congr (fun b hb => hm.kept b (fun e => ?_)) (fun _ _ => rfl)
      exact hdc ((State.mem_owned.mp hb).2.symm.trans (State.mem_owned.mp e).2)
  · have hp := h.nPage d hd
    by_cases hdc : d = c
    · subst hdc
      simp only [State.setCache, Function.update_self]
      exact hp
    · simp only [State.setCache, Function.update_of_ne hdc]
      exact hp

theorem resizeHash_eq {r : State × (ℕ → Option ℕ)} (hr : rehash s c
      (if (s.cache c).nHash * 2 < 256 then (256 : UInt32) else (s.cache c).nHash * 2)
      (s.cache c).nHash.toNat = some r) :
    pcache1ResizeHash s c true = some (r.1.setCache c { r.1.cache c with
      apHash := r.2
      nHash := if (s.cache c).nHash * 2 < 256 then (256 : UInt32) else (s.cache c).nHash * 2 },
      true) := by
  unfold pcache1ResizeHash
  simp only [if_true, hr, Option.bind_eq_bind, Option.bind_some]

theorem Core.resize (h : Core s S P l x) (hc : c ∈ s.caches) (hashMem : Bool) :
    ∃ s' ok, pcache1ResizeHash s c hashMem = some (s', ok) ∧ Frame s s' ∧ s'.pages = s.pages ∧
      Core s' S P l x ∧ (ok = true → (s'.cache c).nHash ≠ 0) := by
  cases hashMem with
  | false =>
    refine ⟨s, _, rfl, Frame.refl s, rfl, h, fun hok => ?_⟩
    exact of_decide_eq_true hok
  | true =>
    have hnew : (if (s.cache c).nHash * 2 < 256 then (256 : UInt32) else (s.cache c).nHash * 2) ≠ 0 := by
      split_ifs with hlt
      · decide
      · intro e
        rw [e] at hlt
        exact hlt (by decide)
    obtain ⟨⟨t, ap⟩, hr, hm⟩ := rehash_spec h.hashed h.sub hc
      (if (s.cache c).nHash * 2 < 256 then (256 : UInt32) else (s.cache c).nHash * 2)
      (s.cache c).nHash.toNat
    have hres := resizeHash_eq hr
    generalize (if (s.cache c).nHash * 2 < 256 then (256 : UInt32) else (s.cache c).nHash * 2) =
      nNew at hnew hres hm
    have hset : {a | a ∈ s.owned S c ∧ s.slot (s.cache c).nHash a < (s.cache c).nHash.toNat} =
        {a | a ∈ s.owned S c} := by
      ext b
      refine and_iff_left_of_imp (fun hb => ?_)
      obtain ⟨hbS, rfl⟩ := State.mem_owned.mp hb
      exact h.hashed.slot_lt hbS
    rw [hset] at hm
    have hh := h.hashed.resize hnew hm
    obtain ⟨f, rfl⟩ : ∃ f, t = { s with pNext := f } := ⟨_, hm.state⟩
    have hf : Frame s (State.setCache { s with pNext := f } c
        { s.cache c with apHash := ap, nHash := nNew }) := by
      refine ⟨rfl, rfl, rfl, fun d => ?_, fun d => ?_, fun d => ?_, rfl, rfl, rfl⟩ <;>
        by_cases hd : d = c <;> simp [State.setCache, hd, PCache1.fixed, hnew]
    refine ⟨_, true, hres, hf, rfl, ⟨hh, ?_, h.sub, h.mem_lru, h.pinned, ?_⟩, fun _ => ?_⟩
    · refine h.lru.congr rfl rfl rfl rfl rfl rfl (fun d => ?_)
      by_cases hd : d = c <;> simp [State.setCache, hd]
    · exact h.nCurrentPage.trans (by rw [← hf.purgeable S])
    · simpa [State.setCache] using hnew

end

variable {s : State} {S P : Finset ℕ} {l : List ℕ} {x : UInt32} {a c : ℕ} {iKey : UInt32}

theorem findPage_spec (h : Hashed s S) (hsub : S ⊆ s.pages) (hc : c ∈ s.caches) (iKey : UInt32) :
    ∃ r, findPage s iKey ((s.cache c).apHash (iKey % (s.cache c).nHash).toNat) = some r ∧
      ∀ a, r = some a ↔ a ∈ s.owned S c ∧ s.iKey a = iKey := by
  obtain ⟨l, hl, hnd, hm⟩ := (h.table c hc).chain (iKey % (s.cache c).nHash).toNat
  have hlen : l.length ≤ s.pages.card :=
    length_le_card hnd (fun b hb => hsub (State.mem_owned.mp ((hm b).mp hb).1).1)
  have hall : ∀ b, b ∈ s.owned S c → s.iKey b = iKey → b ∈ l := fun b hb hk =>
    (hm b).mpr ⟨hb, by rw [State.slot, hk]⟩
  refine loop_total
    (fun n p => ∃ r, n = r.length ∧ Chain s.pNext p r ∧ (∀ b ∈ r, b ∈ l) ∧
      ∀ b, b ∈ s.owned S c → s.iKey b = iKey → b ∈ r)
    (fun r => ∀ a, r = some a ↔ a ∈ s.owned S c ∧ s.iKey a = iKey)
    ?_ ?_ s.fuel l.length _ ⟨l, rfl, hl, fun _ hb => hb, hall⟩ (by unfold State.fuel; omega)
  · rintro n p p' ⟨r, rfl, hr, hrl, hin⟩ hb
    cases r with
    | nil =>
      rw [show p = none from hr] at hb
      cases hb
    | cons b r =>
      obtain ⟨rfl, hr⟩ := hr
      dsimp only at hb
      split_ifs at hb with hk
      obtain rfl := Sum.inl.inj hb
      refine ⟨r.length, by simp, r, rfl, hr, fun d hd => hrl d (by simp [hd]), fun d hd hdk => ?_⟩
      exact (List.mem_cons.mp (hin d hd hdk)).resolve_left (fun e => hk (e ▸ hdk))
  · rintro n p p' ⟨r, rfl, hr, hrl, hin⟩ hb
    cases r with
    | nil =>
      rw [show p = none from hr] at hb
      obtain rfl := Sum.inr.inj hb
      exact fun d => ⟨nofun, fun ⟨hd, hdk⟩ => absurd (hin d hd hdk) List.not_mem_nil⟩
    | cons b r =>
      obtain ⟨rfl, hr⟩ := hr
      dsimp only at hb
      split_ifs at hb with hk
      obtain rfl := Sum.inr.inj hb
      have hbo := ((hm b).mp (hrl b (by simp))).1
      refine fun d => ⟨fun e => ?_, fun ⟨hd, hdk⟩ => ?_⟩
      · obtain rfl := Option.some.inj e
        exact ⟨hbo, not_not.mp hk⟩
      · obtain ⟨hbS, hbc⟩ := State.mem_owned.mp hbo
        obtain ⟨hdS, hdc⟩ := State.mem_owned.mp hd
        exact congrArg some (h.key_inj b hbS d hdS (hbc.trans hdc.symm)
          ((not_not.mp hk).trans hdk.symm))

theorem lookup_spec (h : Hashed s S) (hsub : S ⊆ s.pages) (hc : c ∈ s.caches) (iKey : UInt32) :
    ∃ r, (if 0 < (s.cache c).nHash then
        findPage s iKey ((s.cache c).apHash (iKey % (s.cache c).nHash).toNat) else some none) = some r ∧
      ∀ a, r = some a ↔ a ∈ s.owned S c ∧ s.iKey a = iKey := by
  by_cases hn : 0 < (s.cache c).nHash
  · rw [if_pos hn]
    exact findPage_spec h hsub hc iKey
  · rw [if_neg hn]
    refine ⟨none, rfl, fun a => ⟨nofun, fun ha => ?_⟩⟩
    obtain ⟨haS, rfl⟩ := State.mem_owned.mp ha.1
    have hlt := h.slot_lt haS
    rw [UInt32.lt_iff_toNat_lt, UInt32.toNat_zero] at hn
    omega

/-- `nCurrentPage` may run ahead for a page that is about to be entered. -/
theorem Core.bump (h : Core s S P l x) (y : UInt32) :
    Core (s.setGrp { s.grp with nCurrentPage := s.grp.nCurrentPage + y }) S P l (x + y) := by
  refine ⟨h.hashed.congr rfl rfl rfl rfl (fun _ => ⟨rfl, rfl, rfl⟩),
    h.lru.congr rfl rfl rfl rfl rfl rfl (fun _ => rfl), h.sub, h.mem_lru, h.pinned, ?_⟩
  change s.grp.nCurrentPage + y = _
  rw [h.nCurrentPage, add_assoc]
  rfl

theorem bump_frame (s : State) (n : UInt32) :
    Frame s (s.setGrp { s.grp with nCurrentPage := n }) :=
  ⟨rfl, rfl, rfl, fun _ => rfl, fun _ => rfl, fun _ h => h, rfl, rfl, rfl⟩

theorem recycle_eq {t : State} (h : pcache1RemoveFromHash s a = some t) (c : ℕ) :
    recycle s c a =
      let u := pcache1PinPage t a
      let pOther := u.cache (u.pCache a)
      if pOther.szPage + pOther.szExtra ≠ (u.cache c).szPage + (u.cache c).szExtra then
        some (pcache1FreePage u a, none)
      else some (u.setGrp { u.grp with nCurrentPage := u.grp.nCurrentPage +
        ((u.cache c).bPurgeable.toUInt32 - pOther.bPurgeable.toUInt32) }, some a) := by
  unfold recycle
  simp only [h, Option.bind_eq_bind, Option.bind_some, sub_eq_add_neg (G := UInt32), neg_add_rev,
    neg_neg]

/-- The LRU tail either changes hands or is freed. -/
theorem Core.recycle (h : Core s s.pages P l 0) (ha : s.grp.pLruTail = some a) (c : ℕ) :
    ∃ s' r l', recycle s c a = some (s', r) ∧ Frame s s' ∧ a ∈ s.pages ∧ a ∉ P ∧
      ((r = none ∧ s'.pages = s.pages.erase a ∧ Core s' s'.pages P l' 0) ∨
        (r = some a ∧ s'.pages = s.pages ∧ a ∉ l' ∧ Core s' (s'.pages.erase a) (insert a P) l'
          (s'.cache c).bPurgeable.toUInt32)) := by
  have hal : a ∈ l := List.mem_of_getLast? (h.lru.tail ▸ ha)
  obtain ⟨hap, haP⟩ := (h.mem_lru a).mp hal
  obtain ⟨t, hr, hf, hp, h₁⟩ := h.remove hap
  have h₂ := h₁.pin (a := a) (by rw [hp]; exact hap)
  have hf₂ := hf.trans (pcache1PinPage_frame t a)
  have hp₂ : (pcache1PinPage t a).pages = s.pages := (pcache1PinPage_pages t a).trans hp
  have hfind := recycle_eq hr c
  dsimp only at hfind
  generalize pcache1PinPage t a = u at h₂ hf₂ hp₂ hfind
  by_cases hsz : (u.cache (u.pCache a)).szPage + (u.cache (u.pCache a)).szExtra ≠
      (u.cache c).szPage + (u.cache c).szExtra
  · rw [if_pos hsz] at hfind
    have h₃ := h₂.free (Finset.mem_insert_self a P) (Finset.notMem_erase a s.pages)
    rw [Finset.erase_insert haP, hf₂.pCache, hf₂.bPurgeable, add_sub_cancel_right] at h₃
    have hp₃ : (pcache1FreePage u a).pages = s.pages.erase a := by rw [pcache1FreePage_pages, hp₂]
    refine ⟨_, none, l.erase a, hfind, hf₂.trans (pcache1FreePage_frame u a), hap, haP,
      Or.inl ⟨rfl, hp₃, ?_⟩⟩
    rw [hp₃]
    exact h₃
  · rw [if_neg hsz] at hfind
    refine ⟨_, some a, l.erase a, hfind, hf₂.trans (bump_frame u _), hap, haP,
      Or.inr ⟨rfl, hp₂, fun e => (h.lru.nodup.mem_erase_iff.mp e).1 rfl, ?_⟩⟩
    have h₃ := h₂.bump ((u.cache c).bPurgeable.toUInt32 - (u.cache (u.pCache a)).bPurgeable.toUInt32)
    rw [zero_add, ← hf₂.bPurgeable, ← hf₂.pCache, add_sub_cancel] at h₃
    exact (congrArg (Finset.erase · a) hp₂).symm ▸ h₃

/-- What entering the page `a` into the table of `c` under `key` does to the hash fields. -/
structure Enters (s s' : State) (c : ℕ) (key : UInt32) (a : ℕ) : Prop where
  iKey : s'.iKey = Function.update s.iKey a key
  pNext : s'.pNext =
    Function.update s.pNext a ((s.cache c).apHash (key % (s.cache c).nHash).toNat)
  pCache : s'.pCache = Function.update s.pCache a c
  caches : s'.caches = s.caches
  nHash : ∀ d, (s'.cache d).nHash = (s.cache d).nHash
  self : (s'.cache c).apHash =
      Function.update (s.cache c).apHash (key % (s.cache c).nHash).toNat (some a) ∧
    (s'.cache c).nPage = (s.cache c).nPage + 1
  other : ∀ d ≠ c, (s'.cache d).apHash = (s.cache d).apHash ∧ (s'.cache d).nPage = (s.cache d).nPage

namespace Enters
variable {s' : State} {key : UInt32} (h : Enters s s' c key a)
include h

theorem pCache_apply (b : ℕ) : s'.pCache b = if b = a then c else s.pCache b := by
  rw [h.pCache, Function.update_apply]

theorem iKey_apply (b : ℕ) : s'.iKey b = if b = a then key else s.iKey b := by
  rw [h.iKey, Function.update_apply]

theorem owned_self (S : Finset ℕ) : s'.owned (insert a S) c = insert a (s.owned S c) := by
  ext b
  rw [State.mem_owned, h.pCache_apply, Finset.mem_insert, Finset.mem_insert, State.mem_owned]
  by_cases hb : b = a <;> simp [hb]

theorem owned_of_ne (haS : a ∉ S) {d : ℕ} (hd : d ≠ c) :
    s'.owned (insert a S) d = s.owned S d := by
  ext b
  rw [State.mem_owned, h.pCache_apply, Finset.mem_insert, State.mem_owned]
  by_cases hb : b = a
  · simp [hb, haS, hd.symm]
  · simp [hb]

theorem hashed (hh : Hashed s S) (hc : c ∈ s.caches) (haS : a ∉ S)
    (hn : (s.cache c).nHash ≠ 0) (hk : ∀ b ∈ s.owned S c, s.iKey b ≠ key) :
    Hashed s' (insert a S) := by
  have hne : ∀ b ∈ S, b ≠ a := fun b hb => ne_of_mem_of_not_mem hb haS
  have hslot : ∀ n, ∀ b ∈ S, s'.slot n b = s.slot n b := fun n b hb => by
    unfold State.slot
    rw [h.iKey_apply, if_neg (hne b hb)]
  refine ⟨fun b hb => ?_, fun b hb d hd => ?_, fun b hb => ?_, fun d hd => ?_, fun d hd => ?_⟩
  · rw [h.pCache_apply, h.caches]
    by_cases hba : b = a
    · rwa [if_pos hba]
    · rw [if_neg hba]
      exact hh.owner b (Finset.mem_of_mem_insert_of_ne hb hba)
  · rw [h.pCache_apply, h.pCache_apply, h.iKey_apply, h.iKey_apply]
    by_cases hba : b = a <;> by_cases hda : d = a
    · exact fun _ _ => hba.trans hda.symm
    · have hdS := Finset.mem_of_mem_insert_of_ne hd hda
      rw [if_pos hba, if_neg hda, if_pos hba, if_neg hda]
      exact fun ho hkey => absurd hkey.symm (hk d (State.mem_owned.mpr ⟨hdS, ho.symm⟩))
    · have hbS := Finset.mem_of_mem_insert_of_ne hb hba
      rw [if_neg hba, if_pos hda, if_neg hba, if_pos hda]
      exact fun ho hkey => absurd hkey (hk b (State.mem_owned.mpr ⟨hbS, ho⟩))
    · rw [if_neg hba, if_neg hda, if_neg hba, if_neg hda]
      exact hh.key_inj b (Finset.mem_of_mem_insert_of_ne hb hba) d
        (Finset.mem_of_mem_insert_of_ne hd hda)
  · rw [h.nHash, h.pCache_apply]
    by_cases hba : b = a
    · rwa [if_pos hba]
    · rw [if_neg hba]
      exact hh.hash_pos b (Finset.mem_of_mem_insert_of_ne hb hba)
  · rw [h.nHash, h.pNext]
    by_cases hdc : d = c
    · subst hdc
      have hT : Table s.pNext (s.cache d).apHash (s'.slot (s.cache d).nHash)
          {b | b ∈ s.owned S d} :=
        (hh.table d hc).congr (fun _ _ => rfl) (fun b hb => hslot _ b (State.mem_owned.mp hb).1)
      have hself : s'.slot (s.cache d).nHash a = (key % (s.cache d).nHash).toNat := by
        unfold State.slot
        rw [h.iKey_apply, if_pos rfl]
      have hi := hT.insert (x := a) (fun e => haS (State.mem_owned.mp e).1)
      have hset : {b | b ∈ insert a (s.owned S d)} = insert a {b | b ∈ s.owned S d} := by
        ext b
        simp
      rw [hself, ← hset] at hi
      rw [h.self.1, h.owned_self S]
      exact hi
    · rw [(h.other d hdc).1, h.owned_of_ne haS hdc]
      refine (hh.table d (h.caches ▸ hd)).congr (fun b hb => Function.update_of_ne ?_ _ _)
        (fun b hb => ?_)
      · exact hne b (State.mem_owned.mp hb).1
      · exact hslot _ b (State.mem_owned.mp hb).1
  · by_cases hdc : d = c
    · subst hdc
      rw [h.self.2, h.owned_self S,
        Finset.card_insert_of_notMem (fun e => haS (State.mem_owned.mp e).1), ← ofNat_add_one,
        hh.nPage d hc]
    · rw [(h.other d hdc).2, h.owned_of_ne haS hdc]
      exact hh.nPage d (h.caches ▸ hd)

end Enters

/-- The state after a page has been entered; `pages` may gain it at the same time. -/
def entered (s : State) (c : ℕ) (iKey : UInt32) (a : ℕ) : State :=
  enterPage { s with pages := insert a s.pages } c iKey a

section Enter

theorem entered_cache_self (s : State) (c : ℕ) (iKey : UInt32) (a : ℕ) :
    (entered s c iKey a).cache c = { s.cache c with
      nPage := (s.cache c).nPage + 1
      apHash := Function.update (s.cache c).apHash (iKey % (s.cache c).nHash).toNat (some a) } :=
  Function.update_self _ _ _

theorem entered_cache_of_ne (s : State) (iKey : UInt32) (a : ℕ) {d : ℕ} (hd : d ≠ c) :
    (entered s c iKey a).cache d = s.cache d :=
  Function.update_of_ne hd _ _

theorem entered_fixed (s : State) (c : ℕ) (iKey : UInt32) (a d : ℕ) :
    ((entered s c iKey a).cache d).fixed = (s.cache d).fixed := by
  by_cases hd : d = c
  · rw [hd, entered_cache_self]
    rfl
  · rw [entered_cache_of_ne s iKey a hd]

theorem entered_enters (s : State) (c : ℕ) (iKey : UInt32) (a : ℕ) :
    Enters s (entered s c iKey a) c iKey a := by
  refine ⟨rfl, rfl, rfl, rfl, fun d => ?_, ?_, fun d hd => ?_⟩
  · by_cases hd : d = c
    · rw [hd, entered_cache_self]
    · rw [entered_cache_of_ne s iKey a hd]
  · rw [entered_cache_self]
    exact ⟨rfl, rfl⟩
  · rw [entered_cache_of_ne s iKey a hd]
    exact ⟨rfl, rfl⟩

theorem entered_purgeable (haS : a ∉ S) :
    UInt32.ofNat ((entered s c iKey a).purgeable (insert a S)).card =
      .ofNat (s.purgeable S).card + (s.cache c).bPurgeable.toUInt32 := by
  have hp : ∀ d, ((entered s c iKey a).cache d).bPurgeable = (s.cache d).bPurgeable := fun d => by
    have he := congrArg PCache1.bPurgeable (entered_fixed s c iKey a d)
    exact he
  have hpc := (entered_enters s c iKey a).pCache_apply
  have hS : S.filter (fun b => (s.cache ((entered s c iKey a).pCache b)).bPurgeable) =
      s.purgeable S := by
    refine Finset.filter_congr (fun b hb => ?_)
    rw [hpc, if_neg (ne_of_mem_of_not_mem hb haS)]
  have ha : a ∉ s.purgeable S := fun e => haS (Finset.mem_filter.mp e).1
  unfold State.purgeable at hS ha ⊢
  simp only [hp]
  rw [Finset.filter_insert, hS, hpc, if_pos rfl]
  cases hb : (s.cache c).bPurgeable with
  | false => exact (add_zero _).symm
  | true =>
    rw [if_pos rfl, Finset.card_insert_of_notMem ha, ← ofNat_add_one]
    rfl

theorem Lru.enter (h : Lru s l) (hal : a ∉ l) : Lru (entered s c iKey a) l := by
  have hne : ∀ b ∈ l, b ≠ a := fun b hb => ne_of_mem_of_not_mem hb hal
  have hpc : ∀ b ∈ l, (entered s c iKey a).pCache b = s.pCache b := fun b hb => by
    rw [(entered_enters s c iKey a).pCache_apply, if_neg (hne b hb)]
  refine ⟨fun b hb => ?_, ?_, h.nodup, h.head, h.tail, fun d hd => ?_⟩
  · rw [hpc b hb]
    exact h.owner b hb
  · exact h.links.congr (fun b hb => Function.update_of_ne (hne b hb) _ _)
      (fun b hb => Function.update_of_ne (hne b hb) _ _)
  · have hr : ((entered s c iKey a).cache d).nRecyclable = (s.cache d).nRecyclable := by
      by_cases hdc : d = c
      · rw [hdc, entered_cache_self]
      · rw [entered_cache_of_ne s iKey a hdc]
    rw [hr, h.nRecyclable d hd]
    refine congrArg UInt32.ofNat (List.countP_congr (fun b hb => ?_))
    rw [hpc b hb]

theorem Core.enter (h : Core s S P l (s.cache c).bPurgeable.toUInt32) (hc : c ∈ s.caches)
    (haS : a ∉ S) (hal : a ∉ l) (hn : (s.cache c).nHash ≠ 0)
    (hk : ∀ b ∈ s.owned S c, s.iKey b ≠ iKey) :
    Core (entered s c iKey a) (insert a S) (insert a P) l 0 := by
  refine ⟨(entered_enters s c iKey a).hashed h.hashed hc haS hn hk, h.lru.enter hal,
    Finset.insert_subset_insert a h.sub, fun b => ?_, fun b hb => ?_, ?_⟩
  · change b ∈ l ↔ b ∈ insert a s.pages ∧ b ∉ insert a P
    rw [h.mem_lru, Finset.mem_insert, Finset.mem_insert]
    have hba : b = a → ¬ (b ∈ s.pages ∧ b ∉ P) := fun e hb => hal (e ▸ (h.mem_lru b).mpr hb)
    tauto
  · by_cases hba : b = a
    · subst hba
      exact ⟨Finset.mem_insert_self _ _, Function.update_self _ _ _, Function.update_self _ _ _⟩
    · obtain ⟨h1, h2, h3⟩ := h.pinned b (Finset.mem_of_mem_insert_of_ne hb hba)
      exact ⟨Finset.mem_insert_of_mem h1, (Function.update_of_ne hba _ _).trans h2,
        (Function.update_of_ne hba _ _).trans h3⟩
  · rw [entered_purgeable haS, add_zero]
    exact h.nCurrentPage

end Enter

/-- What `obtainPage` leaves behind: nothing, or a page outside the tables that may be entered. -/
theorem obtainPage_spec (h : Core s s.pages P l 0) (c : ℕ) (e : Env) :
    ∃ s' r, obtainPage s c e = some (s', r) ∧
      ((r = none ∧ Frame s s' ∧ s'.pages ⊆ s.pages ∧ ∃ l', Core s' s'.pages P l' 0) ∨
        ∃ a t S Q l', r = some a ∧ s' = { t with pages := insert a t.pages } ∧ Frame s t ∧
          insert a S = s'.pages ∧ S ⊆ s.pages ∧ a ∉ P ∧ insert a Q = insert a P ∧ a ∉ S ∧ a ∉ l' ∧
          Core t S Q l' (t.cache c).bPurgeable.toUInt32) := by
  have halloc : ∀ {u : State} {l' : List ℕ}, Frame s u → u.pages ⊆ s.pages → Core u u.pages P l' 0 →
      ∃ s' r, some (pcache1AllocPage u c e.pageMem) = some (s', r) ∧
        ((r = none ∧ Frame s s' ∧ s'.pages ⊆ s.pages ∧ ∃ l', Core s' s'.pages P l' 0) ∨
          ∃ a t S Q l', r = some a ∧ s' = { t with pages := insert a t.pages } ∧ Frame s t ∧
            insert a S = s'.pages ∧ S ⊆ s.pages ∧ a ∉ P ∧ insert a Q = insert a P ∧ a ∉ S ∧ a ∉ l' ∧
            Core t S Q l' (t.cache c).bPurgeable.toUInt32) := by
    intro u l' hf hsub hu
    cases hm : e.pageMem u.pages with
    | none =>
      refine ⟨u, none, ?_, Or.inl ⟨rfl, hf, hsub, l', hu⟩⟩
      unfold pcache1AllocPage
      rw [hm]
    | some a =>
      have ha := e.fresh _ _ hm
      have hb := hu.bump (u.cache c).bPurgeable.toUInt32
      rw [zero_add] at hb
      refine ⟨_, some a, ?_, Or.inr ⟨a, u.setGrp { u.grp with nCurrentPage := u.grp.nCurrentPage +
        (u.cache c).bPurgeable.toUInt32 }, u.pages, P, l', rfl, rfl, hf.trans (bump_frame u _), rfl,
        hsub, fun e => ha (hu.pinned a e).1, rfl, ha, fun e => ha ((hu.mem_lru a).mp e).1, hb⟩⟩
      unfold pcache1AllocPage
      rw [hm]
      cases hp : (u.cache c).bPurgeable <;> simp [State.setGrp, Bool.toUInt32, hp]
  unfold obtainPage
  cases htail : s.grp.pLruTail with
  | none =>
    simp only [Option.bind_eq_bind, Option.bind_some]
    exact halloc (Frame.refl s) (Finset.Subset.refl _) h
  | some t =>
    dsimp only
    split_ifs with hrec
    · obtain ⟨u, r, l', hr, hf, hap, haP, ⟨rfl, hp, hu⟩ | ⟨rfl, hp, hal, hu⟩⟩ := h.recycle htail c
      · simp only [hr, Option.bind_eq_bind, Option.bind_some]
        exact halloc hf (hp ▸ Finset.erase_subset _ _) hu
      · simp only [hr, Option.bind_eq_bind, Option.bind_some]
        have hins : insert t u.pages = u.pages := Finset.insert_eq_of_mem (hp ▸ hap)
        refine ⟨u, some t, rfl, Or.inr ⟨t, u, u.pages.erase t, insert t P, l', rfl, ?_, hf, ?_, ?_, haP,
          Finset.insert_idem t P, Finset.notMem_erase _ _, hal, hu⟩⟩
        · rw [hins]
        · exact Finset.insert_erase (hp ▸ hap)
        · exact (Finset.erase_subset _ _).trans (hp ▸ Finset.Subset.refl _)
    · simp only [Option.bind_eq_bind, Option.bind_some]
      exact halloc (Frame.refl s) (Finset.Subset.refl _) h

end Sqlite.Pcache1

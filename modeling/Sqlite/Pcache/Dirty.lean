import Sqlite.Foundation.Links
import Sqlite.Pcache.Model

/-! The list of dirty pages, and the pointer `pSynced` into it. -/
namespace Sqlite.Pcache

open Foundation

variable {s s' : PCache} {l : List ℕ} {p : ℕ}

/-- A page that the search for a page to spill skips. -/
def busy (h : PgHdr) : Prop := h.nRef ≠ 0 ∨ h.needSync = true

/-- The pages `l` are the list from `pDirty` to `pDirtyTail`, and all others are unlinked. -/
structure Listed (s : PCache) (l : List ℕ) : Prop where
  links : Links s.pDirtyNext s.pDirtyPrev none l
  first : s.pDirty = l.head?
  tail : s.pDirtyTail = l.getLast?
  nodup : l.Nodup
  held : ∀ p ∈ l, p ∈ s.held
  off : ∀ p ∈ s.held, p ∉ l → s.pDirtyNext p = none ∧ s.pDirtyPrev p = none

/-- The pages behind `pSynced`, but perhaps one, are busy. -/
def SyncedBut (s : PCache) (l : List ℕ) (p : Option ℕ) : Prop :=
  ∃ a b, l = a ++ b ∧ s.pSynced = a.getLast? ∧ ∀ q ∈ b, p ≠ some q → busy (s.pg q)

/-- The pages behind `pSynced` are busy. -/
def Synced (s : PCache) (l : List ℕ) : Prop := SyncedBut s l none

/-- What operations on the list leave alone. -/
structure SameRest (s s' : PCache) : Prop where
  pg : s'.pg = s.pg
  nRef : s'.nRef = s.nRef
  bPurgeable : s'.bPurgeable = s.bPurgeable
  pCache : s'.pCache = s.pCache
  held : s'.held = s.held
  pinned : s'.pinned = s.pinned
  iKey : s'.iKey = s.iKey

theorem Listed.length_le (h : Listed s l) : l.length ≤ s.held.card := by
  rw [← List.toFinset_card_of_nodup h.nodup]
  apply Finset.card_le_card
  intro p hp
  exact h.held p (List.mem_toFinset.mp hp)

theorem Listed.congr (h : Listed s l) (hn : s'.pDirtyNext = s.pDirtyNext)
    (hp : s'.pDirtyPrev = s.pDirtyPrev) (hf : s'.pDirty = s.pDirty)
    (ht : s'.pDirtyTail = s.pDirtyTail) (hh : s'.held = s.held) : Listed s' l := by
  constructor
  · rw [hn, hp]
    exact h.links
  · rw [hf, h.first]
  · rw [ht, h.tail]
  · exact h.nodup
  · rw [hh]
    exact h.held
  · rw [hh, hn, hp]
    exact h.off

/-- A header may change, as long as a page behind `pSynced` stays busy. -/
theorem SyncedBut.congr {o : Option ℕ} (h : SyncedBut s l o) (hs : s'.pSynced = s.pSynced)
    (hp : ∀ q ∈ l, busy (s.pg q) → o ≠ some q → busy (s'.pg q)) : SyncedBut s' l o := by
  obtain ⟨a, b, rfl, h1, h2⟩ := h
  refine ⟨a, b, rfl, hs.trans h1, fun q hq ho => ?_⟩
  exact hp q (List.mem_append_right _ hq) (h2 q hq ho) ho

/-- Only the header of the page that is exempt changes. -/
theorem Synced.but (h : Synced s l) (hs : s'.pSynced = s.pSynced)
    (hp : ∀ q, q ≠ p → s'.pg q = s.pg q) : SyncedBut s' l (some p) := by
  obtain ⟨a, b, rfl, h1, h2⟩ := h
  refine ⟨a, b, rfl, hs.trans h1, fun q hq ho => ?_⟩
  rw [hp q (fun e => ho (congrArg some e.symm))]
  exact h2 q hq nofun

/-- The loops along `pDirtyPrev` stop at the last page that is not skipped. -/
theorem skipBack_spec (skip : PgHdr → Bool) {n : ℕ} {a b : List ℕ}
    (hl : Links s.pDirtyNext s.pDirtyPrev none (a ++ b)) (hn : a.length ≤ n) :
    ∃ a₁ a₂, a = a₁ ++ a₂ ∧ skipBack s skip n a.getLast? = some a₁.getLast? ∧
      (∀ q ∈ a₂, skip (s.pg q) = true) ∧ ∀ q, a₁.getLast? = some q → skip (s.pg q) = false := by
  induction a using List.reverseRecOn generalizing n b with
  | nil => exact ⟨[], [], rfl, by cases n <;> rfl, nofun, nofun⟩
  | append_singleton a x ih =>
    rw [List.length_append, List.length_singleton] at hn
    obtain ⟨n, rfl⟩ : ∃ n', n = n' + 1 := ⟨n - 1, by omega⟩
    rw [List.append_assoc] at hl
    have hprev : s.pDirtyPrev x = a.getLast? := Links.prev_of_append hl
    rw [List.getLast?_concat, skipBack]
    cases hx : skip (s.pg x) with
    | false =>
      refine ⟨a ++ [x], [], (List.append_nil _).symm, ?_, nofun, fun q hq => ?_⟩
      · rw [if_neg Bool.false_ne_true, List.getLast?_concat]
      · rw [List.getLast?_concat] at hq
        rw [← Option.some.inj hq, hx]
    | true =>
      obtain ⟨a₁, a₂, h1, h2, h3, h4⟩ := ih hl (Nat.le_of_succ_le_succ hn)
      refine ⟨a₁, a₂ ++ [x], ?_, ?_, fun q hq => ?_, h4⟩
      · rw [h1, List.append_assoc]
      · rw [if_pos rfl, hprev, h2]
      · rcases List.mem_append.mp hq with hq | hq
        · exact h3 q hq
        · rw [List.mem_singleton.mp hq, hx]

section Remove

/-- The page where `pSynced` goes when a page is removed. -/
theorem SyncedBut.remove (h : Listed s l) (hs : SyncedBut s l (some p)) (hp : p ∈ l) :
    ∃ a b, l.erase p = a ++ b ∧ (∀ q ∈ b, busy (s.pg q)) ∧
      (if s.pSynced = some p then
          skipBack s (fun h => h.needSync) s.held.card (s.pDirtyPrev p)
        else some s.pSynced) = some a.getLast? := by
  obtain ⟨a, b, rfl, h1, h2⟩ := hs
  by_cases hlast : a.getLast? = some p
  · obtain ⟨c, rfl⟩ : ∃ c, a = c ++ [p] := List.getLast?_eq_some_iff.mp hlast
    have hl := h.links
    have hnd := h.nodup
    have hlen := h.length_le
    rw [List.append_assoc] at hl hnd hlen ⊢
    have hpc : p ∉ c := fun hc =>
      (List.nodup_append.mp hnd).2.2 p hc p (List.mem_cons_self) rfl
    have hpb : p ∉ b := (List.nodup_cons.mp (List.nodup_append.mp hnd).2.1).1
    have hprev : s.pDirtyPrev p = c.getLast? := Links.prev_of_append hl
    rw [List.length_append] at hlen
    obtain ⟨a₁, a₂, rfl, g2, g3, -⟩ := skipBack_spec (fun h => h.needSync) hl
      (Nat.le_of_add_right_le hlen)
    refine ⟨a₁, a₂ ++ b, ?_, fun q hq => ?_, ?_⟩
    · rw [List.erase_append_right _ hpc]
      show a₁ ++ a₂ ++ (p :: b).erase p = _
      rw [List.erase_cons_head, List.append_assoc]
    · rcases List.mem_append.mp hq with hq | hq
      · exact Or.inr (g3 q hq)
      · exact h2 q hq (fun e => hpb (Option.some.inj e ▸ hq))
    · rw [h1, if_pos hlast, hprev, g2]
  · have hbusy : ∀ q ∈ b, p ≠ q → busy (s.pg q) := fun q hq hne =>
      h2 q hq (fun e => hne (Option.some.inj e))
    rw [h1, if_neg hlast]
    by_cases hpa : p ∈ a
    · have hpb : p ∉ b := fun hc => (List.nodup_append.mp h.nodup).2.2 p hpa p hc rfl
      refine ⟨a.erase p, b, List.erase_append_left _ hpa,
        fun q hq => hbusy q hq (ne_of_mem_of_not_mem hq hpb).symm, ?_⟩
      rw [getLast?_erase_of_ne (List.nodup_append.mp h.nodup).1 hlast]
    · have hnd := (List.nodup_append.mp h.nodup).2.1
      refine ⟨a, b.erase p, List.erase_append_right _ hpa, fun q hq => ?_, rfl⟩
      obtain ⟨hne, hqb⟩ := hnd.mem_erase_iff.mp hq
      exact hbusy q hqb hne.symm

/-- The links and ends of the list after a removal, where `pSynced` has gone to `o`. -/
structure Unlinked (s s' : PCache) (p : ℕ) (o : Option ℕ) : Prop where
  next : ∀ z, s'.pDirtyNext z = if z = p then none
    else if s.pDirtyPrev p = some z then s.pDirtyNext p else s.pDirtyNext z
  prev : ∀ z, s'.pDirtyPrev z = if z = p then none
    else if s.pDirtyNext p = some z then s.pDirtyPrev p else s.pDirtyPrev z
  first : s'.pDirty = if s.pDirtyPrev p = none then s.pDirtyNext p else s.pDirty
  tail : s'.pDirtyTail = if s.pDirtyNext p = none then s.pDirtyPrev p else s.pDirtyTail
  synced : s'.pSynced = o

theorem update_apply_some {α : Type*} {β : Type*} [DecidableEq α] (f : α → β) (r z : α) (v : β) :
    Function.update f r v z = if some r = some z then v else f z := by
  rw [Function.update_apply]
  by_cases h : z = r
  · rw [if_pos h, if_pos (congrArg some h.symm)]
  · rw [if_neg h, if_neg (fun e => h (Option.some.inj e).symm)]

theorem pcacheRemoveFromDirtyList_spec {o : Option ℕ} (hpn : s.pDirtyNext p ≠ some p)
    (ho : (if s.pSynced = some p then
      skipBack s (fun h => h.needSync) s.held.card (s.pDirtyPrev p) else some s.pSynced) = some o) :
    ∃ s', pcacheRemoveFromDirtyList s p = some s' ∧ Unlinked s s' p o ∧ SameRest s s' := by
  unfold pcacheRemoveFromDirtyList
  dsimp only
  rw [ho]
  cases hn : s.pDirtyNext p with
  | none =>
    dsimp only
    cases hp : s.pDirtyPrev p with
    | none =>
      dsimp only
      refine ⟨_, rfl, ⟨fun z => ?_, fun z => ?_, ?_, ?_, rfl⟩, rfl, rfl, rfl, rfl, rfl, rfl, rfl⟩
      · rw [hp, if_neg (Option.some_ne_none z).symm]
        exact Function.update_apply ..
      · rw [hn, if_neg (Option.some_ne_none z).symm]
        exact Function.update_apply ..
      · rw [hp, hn, if_pos rfl]
      · rw [hp, hn, if_pos rfl]
    | some q =>
      dsimp only
      refine ⟨_, rfl, ⟨fun z => ?_, fun z => ?_, ?_, ?_, rfl⟩, rfl, rfl, rfl, rfl, rfl, rfl, rfl⟩
      · rw [hp, hn, ← update_apply_some]
        exact Function.update_apply ..
      · rw [hn, if_neg (Option.some_ne_none z).symm]
        exact Function.update_apply ..
      · rw [hp, if_neg (Option.some_ne_none q)]
      · rw [hp, hn, if_pos rfl]
  | some r =>
    have hrp : p ≠ r := fun e => hpn (hn.trans (congrArg some e.symm))
    dsimp only
    rw [Function.update_of_ne hrp]
    cases hp : s.pDirtyPrev p with
    | none =>
      dsimp only
      refine ⟨_, rfl, ⟨fun z => ?_, fun z => ?_, ?_, ?_, rfl⟩, rfl, rfl, rfl, rfl, rfl, rfl, rfl⟩
      · rw [hp, if_neg (Option.some_ne_none z).symm]
        exact Function.update_apply ..
      · rw [hp, hn, ← update_apply_some]
        exact Function.update_apply ..
      · rw [hp, hn, if_pos rfl]
      · rw [hn, if_neg (Option.some_ne_none r)]
    | some q =>
      dsimp only
      refine ⟨_, rfl, ⟨fun z => ?_, fun z => ?_, ?_, ?_, rfl⟩, rfl, rfl, rfl, rfl, rfl, rfl, rfl⟩
      · rw [hp, hn, ← update_apply_some]
        exact Function.update_apply ..
      · rw [hp, hn, ← update_apply_some]
        exact Function.update_apply ..
      · rw [hp, if_neg (Option.some_ne_none q)]
      · rw [hn, if_neg (Option.some_ne_none r)]

/-- Removing a page from the list. -/
theorem Listed.remove (h : Listed s l) (hs : SyncedBut s l (some p)) (hp : p ∈ l) :
    ∃ s', pcacheRemoveFromDirtyList s p = some s' ∧ Listed s' (l.erase p) ∧
      Synced s' (l.erase p) ∧ SameRest s s' := by
  obtain ⟨a, b, h1, h2, h3⟩ := hs.remove h hp
  have hout : ∀ z, (none : Option ℕ) = some z → z ∉ l := nofun
  obtain ⟨s', g1, g2, g3⟩ :=
    pcacheRemoveFromDirtyList_spec (h.links.next_ne_self h.nodup hp) h3
  have hnext : s'.pDirtyNext p = none := (g2.next p).trans (if_pos rfl)
  have hprev : s'.pDirtyPrev p = none := (g2.prev p).trans (if_pos rfl)
  refine ⟨s', g1, ⟨?_, ?_, ?_, h.nodup.erase p, fun q hq => ?_, fun q hq hqe => ?_⟩,
    ⟨a, b, h1, g2.synced, fun q hq _ => g3.pg ▸ h2 q hq⟩, g3⟩
  · apply h.links.unlink hout h.nodup hp
    · intro z _ hz
      rw [g2.next z, if_neg hz]
    · intro z _ hz
      rw [g2.prev z, if_neg hz]
  · have hiff := h.links.prev_eq_iff hout h.nodup hp
    rw [g2.first, h.first, ← h.links.head_unlink]
    by_cases hc : s.pDirtyPrev p = none
    · rw [if_pos hc, if_pos (hiff.mp hc)]
    · rw [if_neg hc, if_neg (fun e => hc (hiff.mpr e))]
  · have hiff := h.links.next_eq_none_iff h.nodup hp
    rw [g2.tail, h.tail, ← h.links.last_unlink h.nodup]
    by_cases hc : s.pDirtyNext p = none
    · rw [if_pos hc, if_pos (hiff.mp hc)]
    · rw [if_neg hc, if_neg (fun e => hc (hiff.mpr e))]
  · rw [g3.held]
    exact h.held q (List.mem_of_mem_erase hq)
  · by_cases hqp : q = p
    · rw [hqp]
      exact ⟨hnext, hprev⟩
    · have hql : q ∉ l := fun hc => hqe (h.nodup.mem_erase_iff.mpr ⟨hqp, hc⟩)
      rw [g2.next q, g2.prev q, if_neg hqp, if_neg hqp, if_neg, if_neg]
      · exact h.off q (g3.held ▸ hq) hql
      · exact fun e => hql (h.links.next_mem hp e)
      · exact fun e => hql ((h.links.prev_mem hp e).resolve_left nofun)

end Remove

section Add

/-- The links and ends of the list after an addition at the front. -/
theorem pcacheAddToDirtyList_spec (s : PCache) (p : ℕ) :
    (pcacheAddToDirtyList s p).pDirtyNext = Function.update s.pDirtyNext p s.pDirty ∧
    (∀ z, (pcacheAddToDirtyList s p).pDirtyPrev z =
      if s.pDirty = some z then some p else s.pDirtyPrev z) ∧
    (pcacheAddToDirtyList s p).pDirty = some p ∧
    (pcacheAddToDirtyList s p).pDirtyTail = (if s.pDirtyTail = none then some p else s.pDirtyTail) ∧
    (pcacheAddToDirtyList s p).pSynced =
      (if s.pSynced = none ∧ (s.pg p).needSync = false then some p else s.pSynced) ∧
    SameRest s (pcacheAddToDirtyList s p) := by
  refine ⟨rfl, fun z => ?_, rfl, rfl, rfl, rfl, rfl, rfl, rfl, rfl, rfl, rfl⟩
  unfold pcacheAddToDirtyList
  cases hd : s.pDirty with
  | none => exact (if_neg (Option.some_ne_none z).symm).symm
  | some r => exact update_apply_some s.pDirtyPrev r z (some p)

/-- Adding a page to the list. -/
theorem Listed.add (h : Listed s l) (hs : Synced s l) (hp : p ∉ l) (hh : p ∈ s.held) :
    Listed (pcacheAddToDirtyList s p) (p :: l) ∧ Synced (pcacheAddToDirtyList s p) (p :: l) ∧
      SameRest s (pcacheAddToDirtyList s p) := by
  obtain ⟨h1, h2, h3, h4, h5, h6⟩ := pcacheAddToDirtyList_spec s p
  have hne : ∀ q ∈ l, q ≠ p := fun q hq => ne_of_mem_of_not_mem hq hp
  have hfirst : s.pDirty ≠ some p := by
    rw [h.first]
    exact fun e => hp (List.mem_of_head? e)
  refine ⟨⟨?_, h3, ?_, List.nodup_cons.mpr ⟨hp, h.nodup⟩, fun q hq => ?_, fun q hq hql => ?_⟩,
    ?_, h6⟩
  · apply h.links.push hp
    · rw [h1, Function.update_self, h.first]
    · rw [h2 p, if_neg hfirst]
      exact (h.off p hh hp).2
    · intro q hq
      rw [h1, Function.update_of_ne (hne q hq)]
    · intro q hq
      rw [h2 q, h.first]
    · exact h.nodup
  · rw [h4, h.tail, List.getLast?_cons]
    cases l.getLast? with
    | none => rfl
    | some q => rfl
  · rw [h6.held]
    rcases List.mem_cons.mp hq with rfl | hq
    · exact hh
    · exact h.held q hq
  · obtain ⟨hqp, hql⟩ := not_or.mp (fun hc => hql (List.mem_cons.mpr hc))
    have hqf : s.pDirty ≠ some q := by
      rw [h.first]
      exact fun e => hql (List.mem_of_head? e)
    rw [h1, h2 q, Function.update_of_ne hqp, if_neg hqf]
    exact h.off q (h6.held ▸ hq) hql
  · obtain ⟨a, b, hab, g1, g2⟩ := hs
    cases ha : a.getLast? with
    | some q =>
      refine ⟨p :: a, b, by rw [hab]; rfl, ?_, fun z hz _ => h6.pg ▸ g2 z hz nofun⟩
      rw [h5, g1, ha, if_neg (fun hc => Option.some_ne_none q hc.1), List.getLast?_cons, ha]
      rfl
    | none =>
      rw [ha] at g1
      obtain rfl := List.getLast?_eq_none_iff.mp ha
      rw [List.nil_append] at hab
      subst hab
      cases hns : (s.pg p).needSync with
      | false =>
        refine ⟨[p], l, rfl, ?_, fun z hz _ => h6.pg ▸ g2 z hz nofun⟩
        rw [h5, if_pos ⟨g1, hns⟩]
        rfl
      | true =>
        refine ⟨[], p :: l, rfl, ?_, fun z hz _ => ?_⟩
        · rw [h5, hns, if_neg (fun hc => Bool.noConfusion hc.2), g1]
          rfl
        · rw [h6.pg]
          rcases List.mem_cons.mp hz with rfl | hz
          · exact Or.inr hns
          · exact g2 z hz nofun

end Add

end Sqlite.Pcache

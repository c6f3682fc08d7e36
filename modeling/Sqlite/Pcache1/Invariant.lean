import Mathlib.Algebra.BigOperators.Group.Finset.Basic
import Mathlib.Data.UInt
import Sqlite.Foundation.Chain
import Sqlite.Foundation.Links
import Sqlite.Pcache1.Model

/-! The representation invariant of a group of caches. `S` is the set of pages entered in a hash
table, `P` the set of pinned pages and `l` the LRU list from head to tail; between calls `S` is
the set of all pages. -/
namespace Sqlite.Pcache1
open Foundation

section

/-- The pages of the cache `c` among `S`. -/
def State.owned (s : State) (S : Finset ℕ) (c : ℕ) : Finset ℕ := S.filter (fun a => s.pCache a = c)

def State.purgeable (s : State) (S : Finset ℕ) : Finset ℕ :=
  S.filter (fun a => (s.cache (s.pCache a)).bPurgeable)

theorem State.mem_owned {s : State} {S : Finset ℕ} {a c : ℕ} :
    a ∈ s.owned S c ↔ a ∈ S ∧ s.pCache a = c := Finset.mem_filter

structure Hashed (s : State) (S : Finset ℕ) : Prop where
  owner : ∀ a ∈ S, s.pCache a ∈ s.caches
  key_inj : ∀ a ∈ S, ∀ b ∈ S, s.pCache a = s.pCache b → s.iKey a = s.iKey b → a = b
  hash_pos : ∀ a ∈ S, (s.cache (s.pCache a)).nHash ≠ 0
  table : ∀ c ∈ s.caches, Table s.pNext (s.cache c).apHash (s.slot (s.cache c).nHash)
    {a | a ∈ s.owned S c}
  nPage : ∀ c ∈ s.caches, (s.cache c).nPage = .ofNat (s.owned S c).card

structure Lru (s : State) (l : List ℕ) : Prop where
  owner : ∀ a ∈ l, s.pCache a ∈ s.caches
  links : Links s.pLruNext s.pLruPrev none l
  nodup : l.Nodup
  head : s.grp.pLruHead = l.head?
  tail : s.grp.pLruTail = l.getLast?
  nRecyclable : ∀ c ∈ s.caches, (s.cache c).nRecyclable = .ofNat (l.countP (fun a => s.pCache a = c))

/-- `x` is what `nCurrentPage` counts besides the pages of `S`. -/
structure Core (s : State) (S P : Finset ℕ) (l : List ℕ) (x : UInt32) : Prop where
  hashed : Hashed s S
  lru : Lru s l
  sub : S ⊆ s.pages
  mem_lru : ∀ a, a ∈ l ↔ a ∈ s.pages ∧ a ∉ P
  pinned : ∀ a ∈ P, a ∈ s.pages ∧ s.pLruNext a = none ∧ s.pLruPrev a = none
  nCurrentPage : s.grp.nCurrentPage = .ofNat (s.purgeable S).card + x

def KeysBounded (s : State) (S : Finset ℕ) : Prop :=
  ∀ a ∈ S, s.iKey a ≤ (s.cache (s.pCache a)).iMaxKey

/-- The part of a cache that only its creation and `pcache1Cachesize` set. -/
def PCache1.fixed (p : PCache1) : PCache1 :=
  { p with iMaxKey := 0, nRecyclable := 0, nPage := 0, nHash := 0, apHash := fun _ => none }

/-- Pages keep their keys and caches, caches their sizes and hash tables, and the group its
limits. -/
structure Frame (s s' : State) : Prop where
  iKey : s'.iKey = s.iKey
  pCache : s'.pCache = s.pCache
  caches : s'.caches = s.caches
  fixed : ∀ c, (s'.cache c).fixed = (s.cache c).fixed
  maxKey : ∀ c, (s'.cache c).iMaxKey = (s.cache c).iMaxKey
  hash_pos : ∀ c, (s.cache c).nHash ≠ 0 → (s'.cache c).nHash ≠ 0
  nMaxPage : s'.grp.nMaxPage = s.grp.nMaxPage
  nMinPage : s'.grp.nMinPage = s.grp.nMinPage
  mxPinned : s'.grp.mxPinned = s.grp.mxPinned

/-- The limits have their defining values. -/
structure Limits (s : State) : Prop where
  n90pct : ∀ c ∈ s.caches, (s.cache c).n90pct = (s.cache c).nMax * 9 / 10
  nMin : ∀ c ∈ s.caches, (s.cache c).nMin = if (s.cache c).bPurgeable then 10 else 0
  nMax : ∀ c ∈ s.caches, (s.cache c).bPurgeable = false → (s.cache c).nMax = 0
  nMaxPage : s.grp.nMaxPage = ∑ c ∈ s.caches, (s.cache c).nMax
  nMinPage : s.grp.nMinPage = ∑ c ∈ s.caches, (s.cache c).nMin
  mxPinned : s.grp.mxPinned = s.grp.nMaxPage + 10 - s.grp.nMinPage

theorem Limits.congr {s s' : State} (h : Limits s) (hcs : s'.caches = s.caches)
    (hf : ∀ c, (s'.cache c).fixed = (s.cache c).fixed) (h1 : s'.grp.nMaxPage = s.grp.nMaxPage)
    (h2 : s'.grp.nMinPage = s.grp.nMinPage) (h3 : s'.grp.mxPinned = s.grp.mxPinned) :
    Limits s' := by
  have e1 : ∀ c, (s'.cache c).nMax = (s.cache c).nMax := fun c => by
    have he := congrArg PCache1.nMax (hf c)
    exact he
  have e2 : ∀ c, (s'.cache c).nMin = (s.cache c).nMin := fun c => by
    have he := congrArg PCache1.nMin (hf c)
    exact he
  have e3 : ∀ c, (s'.cache c).n90pct = (s.cache c).n90pct := fun c => by
    have he := congrArg PCache1.n90pct (hf c)
    exact he
  have e4 : ∀ c, (s'.cache c).bPurgeable = (s.cache c).bPurgeable := fun c => by
    have he := congrArg PCache1.bPurgeable (hf c)
    exact he
  obtain ⟨g1, g2, g3, g4, g5, g6⟩ := h
  refine ⟨?_, ?_, ?_, ?_, ?_, ?_⟩
  · simpa only [hcs, e1, e3] using g1
  · simpa only [hcs, e2, e4] using g2
  · simpa only [hcs, e1, e4] using g3
  · simpa only [hcs, h1, e1] using g4
  · simpa only [hcs, h2, e2] using g5
  · rw [h1, h2, h3, g6]

namespace Frame
variable {s s' s'' : State}

theorem refl (s : State) : Frame s s :=
  ⟨rfl, rfl, rfl, fun _ => rfl, fun _ => rfl, fun _ h => h, rfl, rfl, rfl⟩

theorem trans (h : Frame s s') (h' : Frame s' s'') : Frame s s'' :=
  ⟨h'.iKey.trans h.iKey, h'.pCache.trans h.pCache, h'.caches.trans h.caches,
    fun c => (h'.fixed c).trans (h.fixed c), fun c => (h'.maxKey c).trans (h.maxKey c),
    fun c hc => h'.hash_pos c (h.hash_pos c hc),
    h'.nMaxPage.trans h.nMaxPage, h'.nMinPage.trans h.nMinPage, h'.mxPinned.trans h.mxPinned⟩

theorem bPurgeable (h : Frame s s') (c : ℕ) : (s'.cache c).bPurgeable = (s.cache c).bPurgeable := by
  have he := congrArg PCache1.bPurgeable (h.fixed c)
  exact he

theorem owned (h : Frame s s') (S : Finset ℕ) (c : ℕ) : s'.owned S c = s.owned S c := by
  unfold State.owned
  rw [h.pCache]

theorem purgeable (h : Frame s s') (S : Finset ℕ) : s'.purgeable S = s.purgeable S := by
  unfold State.purgeable
  simp only [h.pCache, h.bPurgeable]

theorem limits (h : Frame s s') (hl : Limits s) : Limits s' :=
  hl.congr h.caches h.fixed h.nMaxPage h.nMinPage h.mxPinned

theorem keysBounded (h : Frame s s') {S S' : Finset ℕ} (hS : S' ⊆ S) (hk : KeysBounded s S) :
    KeysBounded s' S' := by
  intro a ha
  rw [h.iKey, h.pCache, h.maxKey]
  exact hk a (hS ha)

end Frame

theorem ofNat_sub_one {n : ℕ} (h : 0 < n) : UInt32.ofNat n - 1 = .ofNat (n - 1) := by
  rw [UInt32.ofNat_sub h]
  rfl

theorem ofNat_add_one (n : ℕ) : UInt32.ofNat n + 1 = .ofNat (n + 1) := by
  rw [UInt32.ofNat_add]
  rfl

section Congr
variable {s s' : State} {S : Finset ℕ} {l : List ℕ}

/-- The hash tables depend on these fields only. -/
theorem Hashed.congr (h : Hashed s S) (hk : s'.iKey = s.iKey) (hn : s'.pNext = s.pNext)
    (ho : s'.pCache = s.pCache) (hcs : s'.caches = s.caches)
    (hc : ∀ c, (s'.cache c).nHash = (s.cache c).nHash ∧ (s'.cache c).apHash = (s.cache c).apHash ∧
      (s'.cache c).nPage = (s.cache c).nPage) : Hashed s' S := by
  have hown : ∀ c, s'.owned S c = s.owned S c := fun c => by unfold State.owned; rw [ho]
  refine ⟨fun a ha => ?_, fun a ha b hb => ?_, fun a ha => ?_, fun c hc' => ?_, fun c hc' => ?_⟩
  · rw [ho, hcs]
    exact h.owner a ha
  · rw [ho, hk]
    exact h.key_inj a ha b hb
  · rw [ho, (hc _).1]
    exact h.hash_pos a ha
  · rw [hn, hown, (hc c).1, (hc c).2.1, show s'.slot = s.slot by unfold State.slot; rw [hk]]
    exact h.table c (hcs ▸ hc')
  · rw [hown, (hc c).2.2]
    exact h.nPage c (hcs ▸ hc')

theorem Lru.congr (h : Lru s l) (hn : s'.pLruNext = s.pLruNext) (hp : s'.pLruPrev = s.pLruPrev)
    (ho : s'.pCache = s.pCache) (hcs : s'.caches = s.caches)
    (hh : s'.grp.pLruHead = s.grp.pLruHead) (ht : s'.grp.pLruTail = s.grp.pLruTail)
    (hc : ∀ c, (s'.cache c).nRecyclable = (s.cache c).nRecyclable) : Lru s' l := by
  refine ⟨fun a ha => ?_, ?_, h.nodup, hh.trans h.head, ht.trans h.tail, fun c hc' => ?_⟩
  · rw [ho, hcs]
    exact h.owner a ha
  · rw [hn, hp]
    exact h.links
  · rw [ho, hc]
    exact h.nRecyclable c (hcs ▸ hc')

end Congr

end

/-! What pinning, taking out of the hash table and freeing do to the invariant. -/

variable {s : State} {S P : Finset ℕ} {l : List ℕ} {x : UInt32} {a : ℕ}

/-- Taking a page off the LRU list, all at once. -/
theorem pcache1PinPage_eq (h : s.pLruNext a ≠ none ∨ s.grp.pLruTail = some a) :
    pcache1PinPage s a = { s with
      pLruNext := fun y => if y = a then none else
        if s.pLruPrev a = some y then s.pLruNext a else s.pLruNext y
      pLruPrev := fun y => if y = a then none else
        if s.pLruNext a = some y then s.pLruPrev a else s.pLruPrev y
      grp := { s.grp with
        pLruHead := if s.grp.pLruHead = some a then s.pLruNext a else s.grp.pLruHead
        pLruTail := if s.grp.pLruTail = some a then s.pLruPrev a else s.grp.pLruTail }
      cache := Function.update s.cache (s.pCache a)
        { s.cache (s.pCache a) with nRecyclable := (s.cache (s.pCache a)).nRecyclable - 1 } } := by
  unfold pcache1PinPage
  rw [if_pos h]
  have hupd : ∀ (f : ℕ → Option ℕ) (q : ℕ) (v : Option ℕ),
      Function.update (Function.update f q v) a none =
        fun y => if y = a then none else if some q = some y then v else f y := by
    intro f q v
    funext y
    simp only [Function.update_apply, Option.some.injEq, eq_comm (a := q)]
  have hupd' : ∀ f : ℕ → Option ℕ, Function.update f a none =
      fun y => if y = a then none else if none = some y then none else f y := by
    intro f
    funext y
    simp [Function.update_apply]
  cases hp : s.pLruPrev a <;> cases hn : s.pLruNext a <;>
    by_cases hh : s.grp.pLruHead = some a <;> by_cases ht : s.grp.pLruTail = some a <;>
    simp [State.setGrp, State.setCache, hh, ht, hupd, hupd']

theorem pcache1PinPage_frame (s : State) (a : ℕ) : Frame s (pcache1PinPage s a) := by
  by_cases h : s.pLruNext a ≠ none ∨ s.grp.pLruTail = some a
  · rw [pcache1PinPage_eq h]
    refine ⟨rfl, rfl, rfl, fun c => ?_, fun c => ?_, fun c => ?_, rfl, rfl, rfl⟩ <;>
      by_cases hc : c = s.pCache a <;> simp [hc, PCache1.fixed]
  · rw [pcache1PinPage, if_neg h]
    exact Frame.refl s

/-- Pinning changes the LRU list only. -/
theorem Hashed.pin (h : Hashed s S) (a : ℕ) : Hashed (pcache1PinPage s a) S := by
  by_cases hc : s.pLruNext a ≠ none ∨ s.grp.pLruTail = some a
  · rw [pcache1PinPage_eq hc]
    refine h.congr rfl rfl rfl rfl (fun c => ?_)
    by_cases hc : c = s.pCache a <;> simp [hc]
  · rwa [pcache1PinPage, if_neg hc]

theorem Lru.listed (h : Lru s l) (ha : a ∈ l) :
    s.pLruNext a ≠ none ∨ s.grp.pLruTail = some a := by
  by_cases hn : s.pLruNext a = none
  · exact Or.inr (h.tail.trans ((h.links.next_eq_none_iff h.nodup ha).mp hn))
  · exact Or.inl hn

theorem Lru.not_listed (h : Lru s l) (ha : a ∉ l) (hn : s.pLruNext a = none) :
    ¬ (s.pLruNext a ≠ none ∨ s.grp.pLruTail = some a) := by
  rintro (he | he)
  · exact he hn
  · exact ha (List.mem_of_getLast? (h.tail ▸ he))

theorem Lru.pin (h : Lru s l) (ha : a ∈ l) : Lru (pcache1PinPage s a) (l.erase a) := by
  rw [pcache1PinPage_eq (h.listed ha)]
  refine ⟨fun b hb => h.owner b (List.mem_of_mem_erase hb), ?_, h.nodup.erase a, ?_, ?_,
    fun c hc => ?_⟩
  · exact h.links.unlink (by simp) h.nodup ha (fun y _ hy => if_neg hy) (fun y _ hy => if_neg hy)
  · dsimp only
    rw [h.head]
    exact h.links.head_unlink
  · dsimp only
    rw [h.tail]
    exact h.links.last_unlink h.nodup
  · have hn := h.nRecyclable c hc
    dsimp only
    rw [List.countP_erase]
    by_cases hca : c = s.pCache a
    · subst hca
      have hpos : 0 < l.countP (fun b => s.pCache b = s.pCache a) :=
        List.countP_pos_iff.mpr ⟨a, ha, by simp⟩
      rw [Function.update_self, hn, ofNat_sub_one hpos]
      simp [ha]
    · rw [Function.update_of_ne hca, hn]
      simp [Ne.symm hca]

namespace Core

theorem pin (h : Core s S P l x) (ha : a ∈ s.pages) :
    Core (pcache1PinPage s a) S (insert a P) (l.erase a) x := by
  have hf := pcache1PinPage_frame s a
  by_cases hl : a ∈ l
  · have he := pcache1PinPage_eq (h.lru.listed hl)
    have hpages : (pcache1PinPage s a).pages = s.pages := by rw [he]
    refine ⟨h.hashed.pin a, h.lru.pin hl, hpages ▸ h.sub, fun b => ?_, fun b hb => ?_, ?_⟩
    · rw [hpages, h.lru.nodup.mem_erase_iff, h.mem_lru, Finset.mem_insert]
      tauto
    · rw [hpages]
      by_cases hba : b = a
      · rw [he, hba]
        exact ⟨ha, if_pos rfl, if_pos rfl⟩
      · have hbP : b ∈ P := Finset.mem_of_mem_insert_of_ne hb hba
        have hbl : b ∉ l := fun e => ((h.mem_lru b).mp e).2 hbP
        obtain ⟨h1, h2, h3⟩ := h.pinned b hbP
        have hp : s.pLruPrev a ≠ some b := fun e =>
          hbl ((h.lru.links.prev_mem hl e).resolve_left (by simp))
        have hn : s.pLruNext a ≠ some b := fun e => hbl (h.lru.links.next_mem hl e)
        rw [he]
        simp only [hba, hp, hn, if_false]
        exact ⟨h1, h2, h3⟩
    · rw [hf.purgeable, ← h.nCurrentPage, he]
  · have haP : a ∈ P := by
      by_contra hP
      exact hl ((h.mem_lru a).mpr ⟨ha, hP⟩)
    rw [pcache1PinPage, if_neg (h.lru.not_listed hl (h.pinned a haP).2.1), List.erase_of_not_mem hl,
      Finset.insert_eq_of_mem haP]
    exact h

/-- A page that is in no table and on no list is given back. -/
theorem free (h : Core s S P l x) (ha : a ∈ P) (hS : a ∉ S) :
    Core (pcache1FreePage s a) S (P.erase a) l
      (x - (s.cache (s.pCache a)).bPurgeable.toUInt32) := by
  have hl : a ∉ l := fun e => ((h.mem_lru a).mp e).2 ha
  have he : pcache1FreePage s a = { s with
      pages := s.pages.erase a
      grp := { s.grp with
        nCurrentPage := s.grp.nCurrentPage - (s.cache (s.pCache a)).bPurgeable.toUInt32 } } := by
    unfold pcache1FreePage
    cases hb : (s.cache (s.pCache a)).bPurgeable <;> simp [State.setGrp, Bool.toUInt32, hb]
  rw [he]
  refine ⟨h.hashed.congr rfl rfl rfl rfl (fun _ => ⟨rfl, rfl, rfl⟩),
    h.lru.congr rfl rfl rfl rfl rfl rfl (fun _ => rfl), fun b hb => ?_, fun b => ?_, fun b hb => ?_, ?_⟩
  · exact Finset.mem_erase.mpr ⟨fun e => hS (e ▸ hb), h.sub hb⟩
  · rw [h.mem_lru, Finset.mem_erase, Finset.mem_erase]
    have hba : b = a → b ∈ P := fun e => e ▸ ha
    tauto
  · obtain ⟨hne, hP⟩ := Finset.mem_erase.mp hb
    exact ⟨Finset.mem_erase.mpr ⟨hne, (h.pinned b hP).1⟩, (h.pinned b hP).2⟩
  · dsimp only
    rw [h.nCurrentPage, add_sub_assoc]
    rfl

end Core

end Sqlite.Pcache1

import Sqlite.Pcache1.Release

/-! Runs of calls on the caches of one group. -/
namespace Sqlite.Pcache1
open Foundation

/-- The group when the first cache is about to be created; memory may hold anything. -/
def pcache1Init (s : State) : State :=
  { s with
    grp := ⟨0, 0, 10, 0, none, none⟩
    pages := ∅
    caches := ∅ }

/-- `pinned` holds the pages that were fetched and not unpinned or discarded since. -/
structure Client where
  st : State
  pinned : Finset ℕ

inductive Op
  | create (szPage szExtra : ℕ) (bPurgeable : Bool) (mem : Option ℕ)
  | fetch (c : ℕ) (iKey : UInt32) (createFlag : ℕ) (e : Env)
  | unpin (c pPage : ℕ) (reuseUnlikely : Bool)
  | rekey (c pPage : ℕ) (iNew : UInt32)
  | truncate (c : ℕ) (iLimit : UInt32)
  | cachesize (c : ℕ) (nMax : UInt32)
  | shrink (c : ℕ)
  | destroy (c : ℕ)

namespace Client

/-- Caches are live, unpinned pages are pinned ones of the cache, and a page is rekeyed to a key
not in the cache. -/
def Admits (s : Client) : Op → Prop
  | .create _ _ _ mem => ∀ c, mem = some c → c ∉ s.st.caches
  | .fetch c _ _ _ => c ∈ s.st.caches
  | .unpin c p _ => p ∈ s.pinned ∧ s.st.pCache p = c
  | .rekey c p iNew => p ∈ s.st.owned s.st.pages c ∧
      ∀ b ∈ s.st.owned s.st.pages c, s.st.iKey b ≠ iNew
  | .truncate c _ => c ∈ s.st.caches
  | .cachesize c _ => c ∈ s.st.caches
  | .shrink c => c ∈ s.st.caches
  | .destroy c => c ∈ s.st.caches

/-- One call, and the page that it returns. -/
def step (s : Client) : Op → Option (Client × Option ℕ)
  | .create szPage szExtra bPurgeable mem =>
    some (⟨(pcache1Create s.st szPage szExtra bPurgeable mem).1, s.pinned⟩, none)
  | .fetch c iKey createFlag e => do
    let (st, r) ← pcache1Fetch s.st c iKey createFlag e
    some (⟨st, pinPage s.pinned r⟩, r)
  | .unpin c p reuseUnlikely => do
    let st ← pcache1Unpin s.st c p reuseUnlikely
    some (⟨st, s.pinned.erase p⟩, none)
  | .rekey c p iNew => do
    let st ← pcache1Rekey s.st c p (s.st.iKey p) iNew
    some (⟨st, s.pinned⟩, none)
  | .truncate c iLimit => do
    let st ← pcache1Truncate s.st c iLimit
    some (⟨st, s.pinned ∩ st.pages⟩, none)
  | .cachesize c nMax => do
    let st ← pcache1Cachesize s.st c nMax
    some (⟨st, s.pinned⟩, none)
  | .shrink c => do
    let st ← pcache1Shrink s.st c
    some (⟨st, s.pinned⟩, none)
  | .destroy c => do
    let st ← pcache1Destroy s.st c
    some (⟨st, s.pinned ∩ st.pages⟩, none)

inductive Reachable (st : State) : Client → Prop
  | init : Reachable st ⟨st, ∅⟩
  | step {s s' : Client} {op : Op} {r : Option ℕ} : Reachable st s → s.Admits op →
      s.step op = some (s', r) → Reachable st s'

/-- The calls that may free a pinned page. -/
def Discards (s : Client) : Op → ℕ → Prop
  | .unpin _ p reuseUnlikely, a =>
    a = p ∧ (reuseUnlikely = true ∨ s.st.grp.nMaxPage < s.st.grp.nCurrentPage)
  | .truncate c iLimit, a => s.st.pCache a = c ∧ iLimit ≤ s.st.iKey a
  | .destroy c, a => s.st.pCache a = c
  | _, _ => False

def keyAfter (s : Client) : Op → ℕ → UInt32
  | .rekey _ p iNew, a => if a = p then iNew else s.st.iKey a
  | _, a => s.st.iKey a

/-- What a call does for its caller: pinned pages stay unless it discards them, and a fetch
returns the page held under the key, or one that it has put there. -/
structure Serves (s s' : Client) (op : Op) (r : Option ℕ) : Prop where
  pinned : ∀ a ∈ s.pinned, ¬ s.Discards op a →
    a ∈ s'.st.pages ∧ s'.st.pCache a = s.st.pCache a ∧ s'.st.iKey a = s.keyAfter op a
  hit : ∀ c iKey createFlag e, op = .fetch c iKey createFlag e →
    ∀ a ∈ s.st.pages, s.st.pCache a = c → s.st.iKey a = iKey → r = some a
  page : ∀ c iKey createFlag e, op = .fetch c iKey createFlag e → ∀ a, r = some a →
    a ∈ s'.pinned ∧ s'.st.pCache a = c ∧ s'.st.iKey a = iKey

end Client

variable {s : Client}

theorem Inv.step (h : Inv s.st s.pinned) {op : Op} (ha : s.Admits op) :
    ∃ s' r, s.step op = some (s', r) ∧ Inv s'.st s'.pinned ∧ s.Serves s' op r := by
  obtain ⟨l, hcore⟩ := h.core
  cases op with
  | create szPage szExtra bPurgeable mem =>
    obtain ⟨hi, h1, h2, h3⟩ := h.create szPage szExtra bPurgeable ha
    refine ⟨_, none, rfl, hi, fun a ha _ => ⟨?_, congrFun h2 a, congrFun h3 a⟩, nofun, nofun⟩
    exact h1 ▸ hcore.pinned_mem ha
  | fetch c iKey createFlag e =>
    obtain ⟨st, r, hr, hf⟩ := h.fetch ha iKey createFlag e
    refine ⟨⟨st, pinPage s.pinned r⟩, r, by simp [Client.step, hr], hf.inv,
      fun a ha _ => hf.pinned a ha, ?_, ?_⟩
    · rintro c k f e ⟨⟩
      exact hf.hit
    · rintro c k f e ⟨⟩ a rfl
      exact ⟨Finset.mem_insert_self a _, (hf.page a rfl).2⟩
  | unpin c p reuseUnlikely =>
    obtain ⟨st, hst, hi, h1, h2⟩ := h.unpin ha.1 ha.2 reuseUnlikely
    refine ⟨⟨st, s.pinned.erase p⟩, none, by simp [Client.step, hst], hi, fun a hap hd => ?_, nofun,
      nofun⟩
    by_cases hne : a = p
    · subst hne
      exact h2 (fun e => hd ⟨rfl, e⟩)
    · exact h1 a hap hne
  | rekey c p iNew =>
    obtain ⟨st, hst, hi, h1, h2, h3⟩ := h.rekey ha.1 ha.2
    obtain ⟨-, rfl⟩ := State.mem_owned.mp ha.1
    refine ⟨⟨st, s.pinned⟩, none, by simp [Client.step, hst], hi, fun a hap _ => ⟨?_, congrFun h2 a, ?_⟩,
      nofun, nofun⟩
    · exact h1 ▸ hcore.pinned_mem hap
    · exact (congrFun h3 a).trans (Function.update_apply _ _ _ _)
  | truncate c iLimit =>
    obtain ⟨st, hst, hi, h1, h2, h3⟩ := h.truncate ha iLimit
    refine ⟨⟨st, s.pinned ∩ st.pages⟩, none, by simp [Client.step, hst], hi,
      fun a hap hd => ⟨?_, congrFun h2 a, congrFun h3 a⟩, nofun, nofun⟩
    exact (h1 a).mpr ⟨hcore.pinned_mem hap, hd⟩
  | cachesize c nMax =>
    obtain ⟨st, hst, hi, h1⟩ := h.cachesize ha nMax
    exact ⟨⟨st, s.pinned⟩, none, by simp [Client.step, hst], hi, fun a hap _ => h1 a hap, nofun, nofun⟩
  | shrink c =>
    obtain ⟨st, hst, hi, h1⟩ := h.shrink c
    exact ⟨⟨st, s.pinned⟩, none, by simp [Client.step, hst], hi, fun a hap _ => h1 a hap, nofun, nofun⟩
  | destroy c =>
    obtain ⟨st, hst, hi, h1, -⟩ := h.destroy ha
    exact ⟨⟨st, s.pinned ∩ st.pages⟩, none, by simp [Client.step, hst], hi,
      fun a hap hd => h1 a hap hd, nofun, nofun⟩

theorem Inv.init (s₀ : State) : Inv (pcache1Init s₀) ∅ := by
  have hno : ∀ {p : ℕ → Prop}, ∀ a ∈ (∅ : Finset ℕ), p a := fun a ha =>
    absurd ha (Finset.notMem_empty a)
  have hashed : Hashed (pcache1Init s₀) (pcache1Init s₀).pages := ⟨hno, hno, hno, hno, hno⟩
  have lru : Lru (pcache1Init s₀) [] :=
    ⟨fun a ha => absurd ha List.not_mem_nil, trivial, List.nodup_nil, rfl, rfl, hno⟩
  refine ⟨⟨[], hashed, lru, Finset.Subset.refl _, fun a => ?_, hno, rfl⟩, hno, hno, hno, hno, rfl, rfl,
    (by decide : (10 : UInt32) = 0 + 10 - 0)⟩
  exact iff_of_false List.not_mem_nil (fun e => Finset.notMem_empty a e.1)

/-- The recyclable pages of a cache are its unpinned ones. -/
theorem Core.nRecyclable_eq {s : State} {S P : Finset ℕ} {l : List ℕ} {x : UInt32} {c : ℕ}
    (h : Core s S P l x) (hc : c ∈ s.caches) :
    (s.cache c).nRecyclable = .ofNat (s.owned (s.pages \ P) c).card := by
  rw [h.lru.nRecyclable c hc, List.countP_eq_length_filter,
    ← List.toFinset_card_of_nodup (h.lru.nodup.filter _)]
  refine congrArg (fun S => UInt32.ofNat (Finset.card S)) (Finset.ext (fun a => ?_))
  rw [List.mem_toFinset, List.mem_filter, State.mem_owned, Finset.mem_sdiff, h.mem_lru]
  simp

theorem Inv.of_reachable {s₀ : State} (h : Client.Reachable (pcache1Init s₀) s) :
    Inv s.st s.pinned := by
  induction h with
  | init => exact Inv.init s₀
  | step _ ha hs ih =>
    obtain ⟨s', r, hs', hi, -⟩ := ih.step ha
    obtain rfl := (Prod.mk.inj (Option.some.inj (hs'.symm.trans hs))).1
    exact hi

/-- In every state that the calls can reach the invariant holds and the recyclable pages are the
unpinned ones, and every further call returns and serves its caller. -/
theorem pcache1_sound (s₀ : State) (s : Client) (h : Client.Reachable (pcache1Init s₀) s) :
    Inv s.st s.pinned ∧
      (∀ c ∈ s.st.caches,
        (s.st.cache c).nRecyclable = .ofNat (s.st.owned (s.st.pages \ s.pinned) c).card) ∧
      ∀ op, s.Admits op → ∃ s' r, s.step op = some (s', r) ∧ s.Serves s' op r := by
  have hi := Inv.of_reachable h
  obtain ⟨l, hc⟩ := hi.core
  refine ⟨hi, fun c hcs => hc.nRecyclable_eq hcs, fun op ha => ?_⟩
  obtain ⟨s', r, hs, -, hk⟩ := hi.step ha
  exact ⟨s', r, hs, hk⟩

/-- Memory before the first call. -/
def blank : State where
  grp := ⟨0, 0, 0, 0, none, none⟩
  iKey := fun _ => 0
  pNext := fun _ => none
  pCache := fun _ => 0
  pLruNext := fun _ => none
  pLruPrev := fun _ => none
  cache := fun _ => ⟨0, 0, false, 0, 0, 0, 0, 0, 0, 0, fun _ => none⟩
  pages := ∅
  caches := ∅

/-- Surroundings with memory for everything: pages are put at the first free address. -/
def roomy : Env where
  pressure₁ := false
  pressure₂ := false
  hashMem := true
  pageMem := fun S => if 0 ∉ S then some 0 else none
  fresh := fun S a h => by
    split_ifs at h with h0
    obtain rfl := Option.some.inj h
    exact h0

/-- A page that was fetched and unpinned is recyclable, and the next fetch of its key returns it. -/
theorem pcache1_sound_unpinned : ∃ s s' : Client, s.st.pages = {0} ∧ s.pinned = ∅ ∧
    (s.st.cache 0).nRecyclable = 1 ∧ s.step (.fetch 0 1 0 roomy) = some (s', some 0) := by
  have h₁ := Client.Reachable.step (show Client.Reachable (pcache1Init blank) _ from .init)
    (show Client.Admits _ (.create 1024 100 true (some 0)) from fun c _ => Finset.notMem_empty c) rfl
  have h₂ := h₁.step (show Client.Admits _ (.cachesize 0 10) from Finset.mem_insert_self 0 _) rfl
  have h₃ := h₂.step (show Client.Admits _ (.fetch 0 1 2 roomy) from Finset.mem_insert_self 0 _) rfl
  have h₄ := h₃.step (show Client.Admits _ (.unpin 0 0 false) from ⟨by decide, by decide⟩) rfl
  obtain ⟨-, hrec, hserve⟩ := pcache1_sound blank _ h₄
  obtain ⟨s', r, hs, hk⟩ := hserve (.fetch 0 1 0 roomy) (Finset.mem_insert_self 0 _)
  obtain rfl := hk.hit 0 1 0 roomy rfl 0 (by decide) (by decide) (by decide)
  refine ⟨_, s', by decide, by decide, (hrec 0 (Finset.mem_insert_self 0 _)).trans ?_, hs⟩
  decide

/-- Without a page limit the group is over it as soon as it holds a page, and plain unpinning frees
the page. -/
theorem pcache1_plain_unpin_frees : ¬ ∀ s s' r op, Client.Reachable (pcache1Init blank) s →
    s.Admits op → (∀ c p, op ≠ .unpin c p true) → (∀ c k, op ≠ .truncate c k) →
    (∀ c, op ≠ .destroy c) → s.step op = some (s', r) → ∀ a ∈ s.pinned, a ∈ s'.st.pages := by
  intro h
  have h₁ := Client.Reachable.step (show Client.Reachable (pcache1Init blank) _ from .init)
    (show Client.Admits _ (.create 1024 100 true (some 0)) from fun c _ => Finset.notMem_empty c) rfl
  have h₂ := h₁.step (show Client.Admits _ (.fetch 0 1 2 roomy) from Finset.mem_insert_self 0 _) rfl
  have := h _ _ _ (.unpin 0 0 false) h₂ ⟨by decide, by decide⟩ nofun nofun nofun rfl 0 (by decide)
  revert this
  decide

end Sqlite.Pcache1

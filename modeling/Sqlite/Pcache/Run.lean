import Sqlite.Pcache.Fetch

/-! Runs of calls on one page cache. -/
namespace Sqlite.Pcache

open Foundation

variable {s s' : PCache} {l : List ℕ} {lost : ℕ}

/-- A new cache; the memory for page headers may hold anything. -/
def sqlite3PcacheOpen (bPurgeable : Bool) (s : PCache) : PCache :=
  { s with
    pDirty := none
    pDirtyTail := none
    pSynced := none
    nRef := 0
    bPurgeable := bPurgeable
    pCache := false
    pPage1 := none
    held := ∅
    pinned := ∅ }

/-- The referenced pages that a call takes out of the cache. -/
def lostPages (s s' : PCache) : ℕ := ((s.held \ s'.held).filter (fun p => 0 < (s.pg p).nRef)).card

/-- The states of a cache, and how many referenced pages were truncated on the way. -/
inductive Reachable : PCache → ℕ → Prop
  | opened (bPurgeable : Bool) (s : PCache) : Reachable (sqlite3PcacheOpen bPurgeable s) 0
  | call {s s' : PCache} {lost : ℕ} {c : Call} : Reachable s lost → c.Ok s →
      callStep s c = some s' → Reachable s' lost
  | truncate {s s' : PCache} {lost pgno : ℕ} : Reachable s lost →
      sqlite3PcacheTruncate s pgno = some s' → Reachable s' (lost + lostPages s s')
  | fetch {s s' : PCache} {lost pgno createFlag : ℕ} {e : FetchEnv} {rc : Rc} {p : Option ℕ} :
      Reachable s lost → e.Ok s pgno createFlag →
      sqlite3PcacheFetch s pgno createFlag e = some (rc, p, s') → Reachable s' lost

theorem Inv.opened (bPurgeable : Bool) (s : PCache) : Inv (sqlite3PcacheOpen bPurgeable s) [] 0 := by
  have hno : ∀ p, p ∉ (sqlite3PcacheOpen bPurgeable s).held := Finset.notMem_empty
  refine ⟨⟨trivial, rfl, rfl, List.nodup_nil, nofun, fun p hp => absurd hp (hno p)⟩,
    ⟨[], [], rfl, rfl, nofun⟩, ?_⟩
  constructor
  · exact fun p hp => absurd hp (hno p)
  · rfl
  · exact fun p hp => absurd hp (hno p)
  · exact Finset.Subset.refl _
  · exact fun p hp => absurd hp (hno p)
  · exact fun _ p hp => absurd hp (hno p)
  · exact fun p hp => absurd hp (hno p)
  · exact fun p hp => absurd hp (hno p)
  · exact fun p hp => absurd hp (hno p)

theorem Reachable.inv (h : Reachable s lost) : ∃ l, Inv s l lost := by
  induction h with
  | opened bPurgeable s => exact ⟨[], Inv.opened bPurgeable s⟩
  | call _ hc hs ih =>
    obtain ⟨l, hi⟩ := ih
    obtain ⟨t, l', h1, h2⟩ := hi.call hc
    obtain rfl := Option.some.inj (hs.symm.trans h1)
    exact ⟨l', h2⟩
  | @truncate _ _ _ pgno _ hs ih =>
    obtain ⟨l, hi⟩ := ih
    obtain ⟨t, l', h1, h2⟩ := hi.truncate pgno
    obtain rfl := Option.some.inj (hs.symm.trans h1)
    exact ⟨l', h2⟩
  | fetch _ he hs ih =>
    obtain ⟨l, hi⟩ := ih
    obtain ⟨rc, p, t, l', h1, h2⟩ := hi.fetch he
    obtain rfl := (Prod.mk.inj (Prod.mk.inj (Option.some.inj (hs.symm.trans h1))).2).2
    exact ⟨l', h2⟩

/-- A page to spill is dirty and unreferenced, and it needs a sync only when each dirty page is
referenced or needs one. -/
def SpillOk (s : PCache) : Prop :=
  ∃ v t, spillPage s = some (v, t) ∧ ∀ p, v = some p →
    p ∈ s.held ∧ (s.pg p).dirty = true ∧ (s.pg p).nRef = 0 ∧ ((s.pg p).needSync = true →
      ∀ q ∈ s.held, (s.pg q).dirty = true → (s.pg q).nRef ≠ 0 ∨ (s.pg q).needSync = true)

/-- What holds of the cache between two calls, and of the next one. -/
structure Sound (s : PCache) (lost : ℕ) : Prop where
  list : ∃ l, Listed s l ∧ Synced s l ∧ ∀ p ∈ s.held, (s.pg p).dirty = true ↔ p ∈ l
  refs : s.nRef = (s.held.filter (fun p => 0 < (s.pg p).nRef)).card + lost
  unpinned : s.bPurgeable = true → ∀ p ∈ s.held,
    p ∉ s.pinned ↔ (s.pg p).dirty = false ∧ (s.pg p).nRef = 0
  sorted : ∃ q t r, sqlite3PcacheDirtyList s = some (q, t) ∧ Chain t.pgDirty q r ∧
    Ascending (fun p => (s.pg p).pgno) r ∧ ∀ p, p ∈ r ↔ p ∈ s.held ∧ (s.pg p).dirty = true
  spill : ∀ pgno createFlag (e : FetchEnv), e.Ok s pgno createFlag → e.first.page = none →
    SpillOk (xFetch { s with pCache := true } pgno e.first)
  call : ∀ c : Call, c.Ok s → ∃ s', callStep s c = some s'
  truncate : ∀ pgno, ∃ s', sqlite3PcacheTruncate s pgno = some s'
  fetch : ∀ pgno createFlag (e : FetchEnv), e.Ok s pgno createFlag →
    ∃ r, sqlite3PcacheFetch s pgno createFlag e = some r

theorem Inv.spillOk (h : Inv s l lost) : SpillOk s := by
  obtain ⟨v, t, h1, -, -, h2, -⟩ := h.spill
  refine ⟨v, t, h1, fun p hp => ?_⟩
  obtain ⟨h3, h4, h5⟩ := h2 p hp
  have hheld := h.held p h3
  exact ⟨hheld, (h.pages.dirty p hheld).mpr h3, h4,
    fun hn q hq hd => h5 hn q ((h.pages.dirty q hq).mp hd)⟩

theorem Inv.sound (h : Inv s l lost) : Sound s lost := by
  constructor
  · exact ⟨l, h.toListed, h.synced, h.pages.dirty⟩
  · exact h.pages.refs
  · intro hb p hp
    obtain ⟨hmin, -⟩ := h.pages.range p hp
    constructor
    · intro hc
      have hu : ¬ inUse (s.pg p) := fun hu => hc (h.pages.pin p hp hu)
      obtain ⟨h1, h2⟩ := not_or.mp hu
      exact ⟨Bool.eq_false_iff.mpr h1, by omega⟩
    · rintro ⟨h1, h2⟩ hc
      rcases h.pages.unpin hb p hc with hu | hu
      · exact Bool.false_ne_true (h1.symm.trans hu)
      · omega
  · obtain ⟨q, t, r, h1, -, h2, h3, h4⟩ := h.dirtyList
    refine ⟨q, t, r, h1, h2, h4, fun p => ?_⟩
    rw [h3.mem_iff]
    exact ⟨fun hp => ⟨h.held p hp, (h.pages.dirty p (h.held p hp)).mpr hp⟩,
      fun hp => (h.pages.dirty p hp.1).mp hp.2⟩
  · intro pgno createFlag e he hp
    exact (h.created.miss he.first hp).spillOk
  · intro c hc
    obtain ⟨s', -, h1, -⟩ := h.call hc
    exact ⟨s', h1⟩
  · intro pgno
    obtain ⟨s', -, h1, -⟩ := h.truncate pgno
    exact ⟨s', h1⟩
  · intro pgno createFlag e he
    obtain ⟨rc, p, s', -, h1, -⟩ := h.fetch he
    exact ⟨_, h1⟩

/-- The cache is sound after every run. -/
theorem pcache_dirty_sound (h : Reachable s lost) : Sound s lost := by
  obtain ⟨l, hi⟩ := h.inv
  exact hi.sound

/-- Memory before anything was put there. -/
def blank : PCache :=
  ⟨none, none, none, 0, true, false, none, fun _ => ⟨false, 0, false, false, false, 0⟩,
    fun _ => none, fun _ => none, fun _ => none, ∅, ∅, fun _ => 0⟩

/-- The first fetch, of page 2. -/
def fetchFirst : FetchEnv := ⟨true, ⟨∅, some 0⟩, [], .SQLITE_OK, ⟨∅, none⟩⟩

def firstPage (bPurgeable : Bool) : PCache :=
  takeRef (xFetch { sqlite3PcacheOpen bPurgeable blank with pCache := true } 2 ⟨∅, some 0⟩) 2 0

theorem firstPage_reachable (bPurgeable : Bool) : Reachable (firstPage bPurgeable) 0 := by
  have hok : fetchFirst.Ok (sqlite3PcacheOpen bPurgeable blank) 2 1 := by
    refine ⟨⟨Finset.disjoint_empty_left _, Or.inr ⟨Finset.notMem_empty 0, ?_, nofun⟩⟩, nofun, nofun⟩
    cases bPurgeable <;> decide
  exact Reachable.fetch (Reachable.opened bPurgeable blank) hok rfl

/-- Page 2 is dirty, and page 3 comes to the cache. -/
def fetchSecond : FetchEnv := ⟨true, ⟨∅, some 1⟩, [], .SQLITE_OK, ⟨∅, none⟩⟩

def secondPage : PCache :=
  takeRef (xFetch { sqlite3PcacheMakeDirty (firstPage true) 0 with pCache := true } 3 ⟨∅, some 1⟩) 3 1

theorem secondPage_reachable : Reachable secondPage 0 := by
  have hdirty : Reachable (sqlite3PcacheMakeDirty (firstPage true) 0) 0 :=
    @Reachable.call _ _ _ (.makeDirty 0) (firstPage_reachable true) ⟨by decide, by decide⟩ rfl
  have hok : fetchSecond.Ok (sqlite3PcacheMakeDirty (firstPage true) 0) 3 1 := by
    refine ⟨⟨Finset.disjoint_empty_left _, Or.inr ⟨by decide, by decide, by decide⟩⟩, nofun, nofun⟩
  exact Reachable.fetch hdirty hok rfl

/-- Two dirty pages, the first of them released. -/
theorem pcache_dirty_sound_two :
    ∃ s, sqlite3PcacheRelease (sqlite3PcacheMakeDirty secondPage 1) 0 = some s ∧ s.held = {0, 1} ∧
      (∀ p ∈ s.held, (s.pg p).dirty = true) ∧ (s.pg 0).nRef = 0 ∧ (s.pg 1).nRef = 1 ∧ Sound s 0 := by
  have hdirty : Reachable (sqlite3PcacheMakeDirty secondPage 1) 0 :=
    @Reachable.call _ _ _ (.makeDirty 1) secondPage_reachable ⟨by decide, by decide⟩ rfl
  refine ⟨_, rfl, by decide, by decide, by decide, by decide, ?_⟩
  exact pcache_dirty_sound
    (@Reachable.call _ _ _ (.release 0) hdirty ⟨by decide, by decide⟩ rfl)

theorem ref_nRef (s : PCache) (p : ℕ) :
    ((sqlite3PcacheRef s p).pg p).nRef = i16 ((s.pg p).nRef + 1) := by
  show (Function.update s.pg p _ p).nRef = _
  rw [Function.update_self]

/-- A page may have any number of references up to the largest 16-bit one. -/
theorem manyRefs_reachable (n : ℕ) (hn : n < 32767) :
    ∃ s, Reachable s 0 ∧ s.held = {0} ∧ s.nRef = 1 ∧ (s.pg 0).nRef = n + 1 := by
  induction n with
  | zero => exact ⟨_, firstPage_reachable true, by decide, rfl, rfl⟩
  | succ n ih =>
    obtain ⟨s, h1, h2, h3, h4⟩ := ih (by omega)
    have hok : Call.Ok s (.ref 0) := by
      refine ⟨?_, ?_, ?_⟩
      · rw [h2]
        exact Finset.mem_singleton_self 0
      · omega
      · omega
    refine ⟨_, Reachable.call h1 hok rfl, h2, h3, ?_⟩
    rw [ref_nRef, i16_eq (by omega) (by omega), h4]
    push_cast
    rfl

/-- In a cache that is not purgeable no page gets unpinned, truncation does not count referenced
pages off, and the count of references to a page may overflow. -/
theorem pcache_dirty_limits :
    (∃ s lost, Reachable s lost ∧ ∃ p ∈ s.held, (s.pg p).dirty = false ∧ (s.pg p).nRef = 0 ∧
      p ∈ s.pinned) ∧
    (∃ s lost, Reachable s lost ∧ s.nRef ≠ (s.held.filter (fun p => 0 < (s.pg p).nRef)).card) ∧
    (∃ s lost, Reachable s lost ∧ ∃ p ∈ s.held, 0 < (s.pg p).nRef ∧
      ((sqlite3PcacheRef s p).pg p).nRef < 0) := by
  refine ⟨?_, ?_, ?_⟩
  · refine ⟨_, 0, @Reachable.call _ _ _ (.release 0) (firstPage_reachable false)
      ⟨by decide, by decide⟩ rfl, 0, ?_, rfl, rfl, ?_⟩
    · decide
    · decide
  · refine ⟨_, _, @Reachable.truncate _ _ _ 0 (firstPage_reachable true) rfl, ?_⟩
    decide
  · obtain ⟨s, h1, h2, -, h4⟩ := manyRefs_reachable 32766 (by decide)
    refine ⟨s, 0, h1, 0, ?_, ?_, ?_⟩
    · rw [h2]
      exact Finset.mem_singleton_self 0
    · omega
    · rw [ref_nRef, h4]
      decide

end Sqlite.Pcache

import Sqlite.Pcache.Loops

/-! Fetching a page, with the pluggable cache behind it and the pager's handler for spills. -/
namespace Sqlite.Pcache

open Foundation

variable {s s' t : PCache} {l : List ℕ} {p lost key : ℕ} {x : XFetch}

/-- What the pluggable cache promises: pinned pages stay, a page in the cache is found, and another
page is only returned under a key that is not in the cache. A page that is found has room for one
more reference. -/
def XFetch.Ok (s : PCache) (key eCreate : ℕ) (x : XFetch) : Prop :=
  Disjoint x.drop s.pinned ∧
    match x.page with
    | none => ∀ q ∈ s.held \ x.drop, s.iKey q ≠ key
    | some p => (p ∈ s.held \ x.drop ∧ s.iKey p = key ∧ (s.pg p).nRef < 32767) ∨
      (p ∉ s.held \ x.drop ∧ eCreate ≠ 0 ∧ ∀ q ∈ s.held \ x.drop, s.iKey q ≠ key)

/-- A page found in the cache. -/
theorem Inv.takeFound (h : Inv s l lost) (hp : p ∈ s.held)
    (hr : (s.pg p).nRef < 32767) :
    Inv (takeRef { s with pinned := insert p s.pinned } key p) l lost := by
  have hinit := h.pages.init p hp
  obtain ⟨hmin, -⟩ := h.pages.range p hp
  have h16 : i16 ((s.pg p).nRef + 1) = (s.pg p).nRef + 1 := i16_eq (by omega) (by omega)
  unfold takeRef initHeader
  dsimp only
  rw [if_pos hinit, h16]
  refine ⟨h.toListed.congr rfl rfl rfl rfl rfl, h.synced.congr rfl (fun q _ hb _ => ?_), ?_⟩
  · by_cases hqp : q = p
    · rw [hqp, setPg_self]
      exact Or.inl (by dsimp only; omega)
    · rwa [setPg_of_ne _ _ hqp]
  · refine h.pages.change hp rfl rfl rfl rfl (fun _ _ => Iff.rfl) (h.pages.dirty p hp) rfl rfl
      ⟨?_, ?_⟩ ?_ (fun q hq => ?_) (fun _ => Finset.mem_insert_self p _) (fun _ _ => Or.inr ?_)
    · dsimp only
      omega
    · dsimp only
      omega
    · dsimp only [setPg]
      split_ifs <;> omega
    · exact ⟨fun hc => (Finset.mem_insert.mp hc).resolve_left hq, Finset.mem_insert_of_mem⟩
    · dsimp only
      omega

/-- The header of a page that is new to the cache, with its first reference. -/
def newHeader (key : ℕ) : PgHdr := ⟨true, key, false, false, false, 1⟩

/-- `t` is `s` with the page `p` entered under `key`. -/
structure Entered (s t : PCache) (p key : ℕ) : Prop where
  held : t.held = insert p s.held
  pinned : t.pinned = insert p s.pinned
  iKey : t.iKey = Function.update s.iKey p key
  pg : t.pg = Function.update s.pg p (newHeader key)
  nRef : t.nRef = s.nRef + 1
  bPurgeable : t.bPurgeable = s.bPurgeable
  next : t.pDirtyNext = Function.update s.pDirtyNext p none
  prev : t.pDirtyPrev = Function.update s.pDirtyPrev p none
  first : t.pDirty = s.pDirty
  tail : t.pDirtyTail = s.pDirtyTail
  synced : t.pSynced = s.pSynced

theorem Inv.enter (h : Inv s l lost) (he : Entered s t p key) (hp : p ∉ s.held)
    (hk : ∀ q ∈ s.held, s.iKey q ≠ key) : Inv t l lost := by
  have hpl : p ∉ l := fun hc => hp (h.held p hc)
  have hself : t.pg p = newHeader key := by
    rw [he.pg]
    exact Function.update_self ..
  have hne : ∀ q ∈ s.held, q ≠ p := fun q hq => ne_of_mem_of_not_mem hq hp
  have hpg : ∀ q ∈ s.held, t.pg q = s.pg q := by
    intro q hq
    rw [he.pg]
    exact Function.update_of_ne (hne q hq) _ _
  have hkey : ∀ q ∈ s.held, t.iKey q = s.iKey q := by
    intro q hq
    rw [he.iKey]
    exact Function.update_of_ne (hne q hq) _ _
  have hpkey : t.iKey p = key := by
    rw [he.iKey]
    exact Function.update_self ..
  have hmem : ∀ q, q ∈ t.held → q = p ∨ q ∈ s.held := by
    intro q hq
    rw [he.held] at hq
    exact Finset.mem_insert.mp hq
  refine ⟨⟨?_, ?_, ?_, h.nodup, fun q hq => ?_, fun q hq hql => ?_⟩,
    h.synced.congr he.synced (fun q hq hb _ => ?_), ?_⟩
  · apply h.links.congr
    · intro q hq
      rw [he.next, Function.update_of_ne (ne_of_mem_of_not_mem hq hpl)]
    · intro q hq
      rw [he.prev, Function.update_of_ne (ne_of_mem_of_not_mem hq hpl)]
  · rw [he.first, h.first]
  · rw [he.tail, h.tail]
  · rw [he.held]
    exact Finset.mem_insert_of_mem (h.held q hq)
  · rw [he.next, he.prev]
    rcases hmem q hq with rfl | hq
    · exact ⟨Function.update_self .., Function.update_self ..⟩
    · rw [Function.update_of_ne (hne q hq), Function.update_of_ne (hne q hq)]
      exact h.off q hq hql
  · rwa [hpg q (h.held q hq)]
  constructor
  · intro q hq
    rcases hmem q hq with rfl | hq
    · rw [hself]
      exact ⟨fun hc => absurd hc Bool.false_ne_true, fun hc => absurd hc hpl⟩
    · rw [hpg q hq]
      exact h.pages.dirty q hq
  · have hfilter : s.held.filter (fun q => 0 < (t.pg q).nRef) =
        s.held.filter (fun q => 0 < (s.pg q).nRef) := by
      apply Finset.filter_congr
      intro q hq
      rw [hpg q hq]
    have hpos : 0 < (t.pg p).nRef := by
      rw [hself]
      exact Int.zero_lt_one
    have hout : p ∉ s.held.filter (fun q => 0 < (s.pg q).nRef) :=
      fun hc => hp (Finset.mem_of_mem_filter p hc)
    have hrefs := h.pages.refs
    rw [he.nRef, he.held, Finset.filter_insert, if_pos hpos, hfilter,
      Finset.card_insert_of_notMem hout]
    omega
  · intro q hq
    rcases hmem q hq with rfl | hq
    · rw [hself]
      exact ⟨Int.zero_le_ofNat 1, (by decide : (1 : ℤ) ≤ 32767)⟩
    · rw [hpg q hq]
      exact h.pages.range q hq
  · rw [he.held, he.pinned]
    exact Finset.insert_subset_insert p h.pages.pinned
  · intro q hq hu
    rw [he.pinned]
    rcases hmem q hq with rfl | hq
    · exact Finset.mem_insert_self q _
    · rw [hpg q hq] at hu
      exact Finset.mem_insert_of_mem (h.pages.pin q hq hu)
  · intro hb q hq
    rw [he.pinned] at hq
    rcases Finset.mem_insert.mp hq with rfl | hq
    · rw [hself]
      exact Or.inr Int.zero_lt_one
    · rw [hpg q (h.pages.pinned hq)]
      exact h.pages.unpin (he.bPurgeable ▸ hb) q hq
  · intro q hq
    rcases hmem q hq with rfl | hq
    · rw [hself]
      rfl
    · rw [hpg q hq]
      exact h.pages.init q hq
  · intro q hq
    rcases hmem q hq with rfl | hq
    · rw [hself, hpkey]
      rfl
    · rw [hpg q hq, hkey q hq]
      exact h.pages.key q hq
  · intro q hq r hr e
    rcases hmem q hq with rfl | hq
    · rcases hmem r hr with rfl | hr
      · rfl
      · rw [hpkey, hkey r hr] at e
        exact absurd e.symm (hk r hr)
    · rcases hmem r hr with rfl | hr
      · rw [hpkey, hkey q hq] at e
        exact absurd e (hk q hq)
      · rw [hkey q hq, hkey r hr] at e
        exact h.pages.inj q hq r hr e

theorem takeRef_entered (s : PCache) (p key : ℕ) :
    Entered s (takeRef (setPg { s with
      held := insert p s.held
      pinned := insert p s.pinned
      iKey := Function.update s.iKey p key } p { s.pg p with pPage := false }) key p) p key := by
  unfold takeRef initHeader
  rw [setPg_self, if_neg nofun]
  dsimp only
  rw [setPg_self]
  refine ⟨rfl, rfl, rfl, ?_, rfl, rfl, rfl, rfl, rfl, rfl, rfl⟩
  show Function.update (Function.update (Function.update s.pg p _) p _) p (newHeader key) = _
  rw [Function.update_idem, Function.update_idem]

/-- The page that the pluggable cache returns gets a reference. -/
theorem Inv.take (h : Inv s l lost) {eCreate : ℕ} (hx : x.Ok s key eCreate)
    (hp : x.page = some p) : Inv (takeRef (xFetch s key x) key p) l lost := by
  obtain ⟨hd, hok⟩ := hx
  have hi := h.evict hd
  rw [hp] at hok
  unfold xFetch
  rw [hp]
  dsimp only
  rcases hok with ⟨h1, -, h3⟩ | ⟨h1, -, h3⟩
  · rw [if_pos h1]
    exact hi.takeFound h1 h3
  · rw [if_neg h1]
    exact hi.enter (takeRef_entered _ p key) h1 h3

theorem Inv.miss (h : Inv s l lost) {eCreate : ℕ} (hx : x.Ok s key eCreate)
    (hp : x.page = none) : Inv (xFetch s key x) l lost := by
  unfold xFetch
  rw [hp]
  exact h.evict hx.1

/-- The calls of the pager that leave the number of pages in the cache alone, and the discarding of
pages by the pluggable cache. -/
inductive Call
  | ref (p : ℕ)
  | release (p : ℕ)
  | drop (p : ℕ)
  | makeDirty (p : ℕ)
  | makeClean (p : ℕ)
  | cleanAll
  | clearSyncFlags
  | move (p newPgno : ℕ)
  | setNeedSync (p : ℕ) (b : Bool)
  | dirtyList
  | evict (pages : Finset ℕ)

/-- Pages are in the cache, and referenced where the code asserts it. -/
def Call.Ok (s : PCache) : Call → Prop
  | .ref p => p ∈ s.held ∧ 0 < (s.pg p).nRef ∧ (s.pg p).nRef < 32767
  | .release p => p ∈ s.held ∧ 0 < (s.pg p).nRef
  | .drop p => p ∈ s.held ∧ (s.pg p).nRef = 1
  | .makeDirty p => p ∈ s.held ∧ 0 < (s.pg p).nRef
  | .makeClean p => p ∈ s.held
  | .cleanAll => True
  | .clearSyncFlags => True
  | .move p newPgno => p ∈ s.held ∧ 0 < (s.pg p).nRef ∧
      ∀ q ∈ s.held, q ≠ p → s.iKey q ≠ newPgno
  | .setNeedSync p _ => p ∈ s.held ∧ 0 < (s.pg p).nRef
  | .dirtyList => True
  | .evict pages => Disjoint pages s.pinned

def callStep (s : PCache) : Call → Option PCache
  | .ref p => some (sqlite3PcacheRef s p)
  | .release p => sqlite3PcacheRelease s p
  | .drop p => sqlite3PcacheDrop s p
  | .makeDirty p => some (sqlite3PcacheMakeDirty s p)
  | .makeClean p => sqlite3PcacheMakeClean s p
  | .cleanAll => sqlite3PcacheCleanAll s
  | .clearSyncFlags => sqlite3PcacheClearSyncFlags s
  | .move p newPgno => sqlite3PcacheMove s p newPgno
  | .setNeedSync p b => some (setNeedSync s p b)
  | .dirtyList => (sqlite3PcacheDirtyList s).map (fun r => r.2)
  | .evict pages => some { s with held := s.held \ pages }

theorem Inv.call (h : Inv s l lost) {c : Call} (hc : c.Ok s) :
    ∃ s' l', callStep s c = some s' ∧ Inv s' l' lost := by
  cases c with
  | ref p => exact ⟨_, l, rfl, h.ref hc.1 hc.2.1 hc.2.2⟩
  | release p => exact h.release hc.1 hc.2
  | drop p =>
    obtain ⟨s', h1, h2⟩ := h.drop hc.1 hc.2
    exact ⟨s', _, h1, h2⟩
  | makeDirty p =>
    obtain ⟨l', h1⟩ := h.makeDirty hc.1 hc.2
    exact ⟨_, l', rfl, h1⟩
  | makeClean p =>
    have hp : p ∈ s.held := hc
    obtain ⟨s', h1, h2, -⟩ := h.makeClean hp
    exact ⟨s', _, h1, h2⟩
  | cleanAll =>
    obtain ⟨s', h1, h2⟩ := h.cleanAll
    exact ⟨s', _, h1, h2⟩
  | clearSyncFlags =>
    obtain ⟨s', h1, h2⟩ := h.clearSyncFlags
    exact ⟨s', _, h1, h2⟩
  | move p newPgno => exact h.move hc.1 hc.2.1 hc.2.2
  | setNeedSync p b => exact ⟨_, l, rfl, h.setNeedSync hc.1 hc.2 b⟩
  | dirtyList =>
    obtain ⟨q, s', r, h1, h2, -⟩ := h.dirtyList
    refine ⟨s', l, ?_, h2⟩
    unfold callStep
    dsimp only
    rw [h1]
    rfl
  | evict pages =>
    have hd : Disjoint pages s.pinned := hc
    exact ⟨_, l, rfl, h.evict hd⟩

def runCalls : PCache → List Call → Option PCache
  | s, [] => some s
  | s, c :: cs =>
    match callStep s c with
    | none => none
    | some s => runCalls s cs

def CallsOk : PCache → List Call → Prop
  | _, [] => True
  | s, c :: cs => c.Ok s ∧ ∀ s', callStep s c = some s' → CallsOk s' cs

theorem Inv.calls (h : Inv s l lost) {cs : List Call} (hc : CallsOk s cs) :
    ∃ s' l', runCalls s cs = some s' ∧ Inv s' l' lost := by
  induction cs generalizing s l with
  | nil => exact ⟨s, l, rfl, h⟩
  | cons c cs ih =>
    obtain ⟨h1, h2⟩ := hc
    obtain ⟨t, l', h3, h4⟩ := h.call h1
    obtain ⟨s', l'', h5, h6⟩ := ih h4 (h2 t h3)
    refine ⟨s', l'', ?_, h6⟩
    rw [runCalls, h3]
    exact h5

/-- What happens around a fetch: the creation of the pluggable cache, its two answers, and the
calls and the result of the handler `xStress` for the page to spill. -/
structure FetchEnv where
  create : Bool
  first : XFetch
  stress : List Call
  rc : Rc
  second : XFetch

/-- The part of `sqlite3PcacheFetch` that makes room, when `xFetch` has found none. -/
def makeRoom (s : PCache) (e : FetchEnv) : Option (Rc × PCache) :=
  match spillPage s with
  | none => none
  | some (none, s) => some (.SQLITE_OK, s)
  | some (some _, s) => (runCalls s e.stress).map (fun s => (e.rc, s))

/-- How hard the pluggable cache is to try, which is none, some or all it can. -/
def eCreate (s : PCache) (createFlag : ℕ) : ℕ :=
  createFlag * (1 + if s.bPurgeable = false ∨ s.pDirty = none then 1 else 0)

def sqlite3PcacheFetch (s : PCache) (pgno createFlag : ℕ) (e : FetchEnv) :
    Option (Rc × Option ℕ × PCache) :=
  if s.pCache = false ∧ createFlag ≠ 0 ∧ e.create = false then some (.SQLITE_NOMEM, none, s)
  else if s.pCache = false ∧ createFlag = 0 then some (.SQLITE_OK, none, s)
  else
    let s := { s with pCache := true }
    let eCreate := eCreate s createFlag
    let s := xFetch s pgno e.first
    match e.first.page with
    | some p => some (.SQLITE_OK, some p, takeRef s pgno p)
    | none =>
      if eCreate ≠ 1 then some (if eCreate ≠ 0 then .SQLITE_NOMEM else .SQLITE_OK, none, s)
      else
        match makeRoom s e with
        | none => none
        | some (rc, s) =>
          if rc ≠ .SQLITE_OK ∧ rc ≠ .SQLITE_BUSY then some (rc, none, s)
          else
            let s := xFetch s pgno e.second
            match e.second.page with
            | some p => some (.SQLITE_OK, some p, takeRef s pgno p)
            | none => some (.SQLITE_NOMEM, none, s)

/-- The pluggable cache keeps its promises, and the handler makes calls that it may make. -/
structure FetchEnv.Ok (s : PCache) (pgno createFlag : ℕ) (e : FetchEnv) : Prop where
  first : e.first.Ok { s with pCache := true } pgno (eCreate s createFlag)
  stress : e.first.page = none → ∀ p t,
    spillPage (xFetch { s with pCache := true } pgno e.first) = some (some p, t) →
    CallsOk t e.stress
  second : e.first.page = none → ∀ rc t,
    makeRoom (xFetch { s with pCache := true } pgno e.first) e = some (rc, t) →
    e.second.Ok t pgno 2

theorem Inv.makeRoom (h : Inv s l lost) {e : FetchEnv}
    (hs : ∀ p t, spillPage s = some (some p, t) → CallsOk t e.stress) :
    ∃ rc t l', makeRoom s e = some (rc, t) ∧ Inv t l' lost := by
  obtain ⟨v, t, h1, h2, -⟩ := h.spill
  unfold Pcache.makeRoom
  rw [h1]
  cases v with
  | none => exact ⟨_, t, l, rfl, h2⟩
  | some p =>
    obtain ⟨u, l', h3, h4⟩ := h2.calls (hs p t h1)
    dsimp only
    rw [h3]
    exact ⟨_, u, l', rfl, h4⟩

theorem Inv.created (h : Inv s l lost) : Inv { s with pCache := true } l lost :=
  ⟨h.toListed.congr rfl rfl rfl rfl rfl, h.synced.congr rfl (fun _ _ hb _ => hb),
    h.pages.dirty, h.pages.refs, h.pages.range, h.pages.pinned, h.pages.pin, h.pages.unpin,
    h.pages.init, h.pages.key, h.pages.inj⟩

theorem Inv.fetch (h : Inv s l lost) {pgno createFlag : ℕ} {e : FetchEnv}
    (he : e.Ok s pgno createFlag) :
    ∃ rc p s' l', sqlite3PcacheFetch s pgno createFlag e = some (rc, p, s') ∧ Inv s' l' lost := by
  have h0 := h.created
  unfold sqlite3PcacheFetch
  by_cases hc1 : s.pCache = false ∧ createFlag ≠ 0 ∧ e.create = false
  · rw [if_pos hc1]
    exact ⟨_, _, s, l, rfl, h⟩
  rw [if_neg hc1]
  by_cases hc2 : s.pCache = false ∧ createFlag = 0
  · rw [if_pos hc2]
    exact ⟨_, _, s, l, rfl, h⟩
  rw [if_neg hc2]
  dsimp only
  cases hp : e.first.page with
  | some p => exact ⟨_, _, _, l, rfl, h0.take he.first hp⟩
  | none =>
    have h1 := h0.miss he.first hp
    dsimp only
    by_cases hone : eCreate { s with pCache := true } createFlag ≠ 1
    · rw [if_pos hone]
      exact ⟨_, _, _, l, rfl, h1⟩
    · obtain ⟨rc, t, l', h2, h3⟩ := h1.makeRoom (he.stress hp)
      rw [if_neg hone, h2]
      dsimp only
      by_cases hrc : rc ≠ .SQLITE_OK ∧ rc ≠ .SQLITE_BUSY
      · rw [if_pos hrc]
        exact ⟨_, _, t, l', rfl, h3⟩
      · rw [if_neg hrc]
        cases hq : e.second.page with
        | some q => exact ⟨_, _, _, l', rfl, h3.take (he.second hp rc t h2) hq⟩
        | none => exact ⟨_, _, _, l', rfl, h3.miss (he.second hp rc t h2) hq⟩

end Sqlite.Pcache

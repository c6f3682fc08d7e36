import Sqlite.ExprCode.Model

/-! Registers while code is generated: which of them the generator may still hand out, what the column cache says
about the others, and how the operations on registers change that. -/
namespace Sqlite.ExprCode

/-- Entries and free registers that do not overlap. -/
structure Apart (es : List ColCache) (temps : List ℕ) : Prop where
  temp_pos : ∀ r ∈ temps, 0 < r
  temp_nodup : temps.Nodup
  empty : ∀ e ∈ es, e.iReg = 0 → e.tempReg = false
  distinct : es.Pairwise fun e e' => e.iReg = e'.iReg → e.iReg = 0
  entry_temp : ∀ e ∈ es, e.iReg ∉ temps

namespace Apart

variable {e : ColCache} {es : List ColCache} {temps : List ℕ}

theorem tail (h : Apart (e :: es) temps) : Apart es temps where
  temp_pos := h.temp_pos
  temp_nodup := h.temp_nodup
  empty e' he' := h.empty e' (List.mem_cons_of_mem e he')
  distinct := (List.pairwise_cons.mp h.distinct).2
  entry_temp e' he' := h.entry_temp e' (List.mem_cons_of_mem e he')

theorem cons (h : Apart es temps) (h0 : e.iReg = 0 → e.tempReg = false)
    (hne : ∀ e' ∈ es, e.iReg = e'.iReg → e.iReg = 0) (ht : e.iReg ∉ temps) : Apart (e :: es) temps where
  temp_pos := h.temp_pos
  temp_nodup := h.temp_nodup
  empty e' he' := by
    obtain rfl | he' := List.mem_cons.mp he'
    · exact h0
    · exact h.empty e' he'
  distinct := List.pairwise_cons.mpr ⟨hne, h.distinct⟩
  entry_temp e' he' := by
    obtain rfl | he' := List.mem_cons.mp he'
    · exact ht
    · exact h.entry_temp e' he'

/-- The register of a dropped entry becomes free. -/
theorem free (h : Apart (e :: es) temps) (he : e.tempReg = true) : Apart es (e.iReg :: temps) where
  temp_pos r hr := by
    obtain rfl | hr := List.mem_cons.mp hr
    · refine Nat.pos_of_ne_zero fun h0 => ?_
      rw [h.empty e List.mem_cons_self h0] at he
      cases he
    · exact h.temp_pos r hr
  temp_nodup := List.nodup_cons.mpr ⟨h.entry_temp e List.mem_cons_self, h.temp_nodup⟩
  empty := h.tail.empty
  distinct := h.tail.distinct
  entry_temp e' he' hm := by
    obtain heq | hm := List.mem_cons.mp hm
    · have h0 := (List.pairwise_cons.mp h.distinct).1 e' he' heq.symm
      rw [h.empty e List.mem_cons_self h0] at he
      cases he
    · exact h.tail.entry_temp e' he' hm

end Apart

/-- What `clearEntries` does with entries and free registers. -/
structure Cleared (q : ColCache → Bool) (es : List ColCache) (temps : List ℕ) (es' : List ColCache)
    (temps' : List ℕ) : Prop where
  apart : Apart es' temps'
  entry : ∀ e ∈ es', e.iReg ≠ 0 → e ∈ es ∧ q e = false
  temp : ∀ r ∈ temps', r ∈ temps ∨ ∃ e ∈ es, e.iReg = r ∧ e.tempReg = true

theorem clearEntries_cleared (q : ColCache → Bool) : ∀ (es : List ColCache) (temps : List ℕ), Apart es temps →
    Cleared q es temps (clearEntries q es temps).1 (clearEntries q es temps).2
  | [], temps, h => ⟨h, nofun, fun r hr => .inl hr⟩
  | e :: es, temps, h => by
    rw [clearEntries]
    split
    · rename_i hq
      -- the entry is dropped; its register becomes free if it is temporary and there is room
      have key : ∀ temps₁, Apart es temps₁ → (∀ r ∈ temps₁, r ∈ temps ∨ r = e.iReg ∧ e.tempReg = true) →
          Cleared q (e :: es) temps ({ e with tempReg := false, iReg := 0 } :: (clearEntries q es temps₁).1)
            (clearEntries q es temps₁).2 := by
        intro temps₁ h₁ hsub
        have ih := clearEntries_cleared q es temps₁ h₁
        refine ⟨ih.apart.cons (fun _ => rfl) (fun _ _ _ => rfl) fun hm => ?_, ?_, ?_⟩
        · exact Nat.lt_irrefl 0 (ih.apart.temp_pos 0 hm)
        · intro e' he' h0
          obtain rfl | he' := List.mem_cons.mp he'
          · exact absurd rfl h0
          · exact ⟨List.mem_cons_of_mem e (ih.entry e' he' h0).1, (ih.entry e' he' h0).2⟩
        · intro r hr
          obtain hr | ⟨e', he', hr⟩ := ih.temp r hr
          · obtain hr | ⟨rfl, ht⟩ := hsub r hr
            · exact .inl hr
            · exact .inr ⟨e, List.mem_cons_self, rfl, ht⟩
          · exact .inr ⟨e', List.mem_cons_of_mem e he', hr⟩
      split
      · rename_i ht
        refine key (e.iReg :: temps) (h.free ht.1) fun r hr => ?_
        obtain rfl | hr := List.mem_cons.mp hr
        · exact .inr ⟨rfl, ht.1⟩
        · exact .inl hr
      · exact key temps h.tail fun r hr => .inl hr
    · rename_i hq
      have ih := clearEntries_cleared q es temps h.tail
      have hmem : ∀ e' ∈ (clearEntries q es temps).1, e.iReg = e'.iReg → e.iReg = 0 := by
        intro e' he' heq
        by_contra h0
        exact h0 ((List.pairwise_cons.mp h.distinct).1 e' (ih.entry e' he' (heq ▸ h0)).1 heq)
      refine ⟨ih.apart.cons (h.empty e List.mem_cons_self) hmem fun hm => ?_, ?_, ?_⟩
      · obtain hm | ⟨e', he', heq, ht⟩ := ih.temp e.iReg hm
        · exact h.entry_temp e List.mem_cons_self hm
        · have h0 := (List.pairwise_cons.mp h.distinct).1 e' he' heq.symm
          rw [h.tail.empty e' he' (heq.trans h0)] at ht
          cases ht
      · intro e' he' h0
        obtain rfl | he' := List.mem_cons.mp he'
        · exact ⟨List.mem_cons_self, by simpa using hq⟩
        · exact ⟨List.mem_cons_of_mem e (ih.entry e' he' h0).1, (ih.entry e' he' h0).2⟩
      · intro r hr
        obtain hr | ⟨e', he', hr⟩ := ih.temp r hr
        · exact .inl hr
        · exact .inr ⟨e', List.mem_cons_of_mem e he', hr⟩

/-! Entries without what is used to choose between them. -/

structure Entry where
  iTable : ℕ
  iColumn : ℤ
  iLevel : ℕ
  iReg : ℕ

def ColCache.entry (e : ColCache) : Entry := ⟨e.iTable, e.iColumn, e.iLevel, e.iReg⟩

theorem Apart.of_entry {es es' : List ColCache} {temps : List ℕ} (h : Apart es temps)
    (hk : es'.map ColCache.entry = es.map ColCache.entry) (h0 : ∀ e ∈ es', e.iReg = 0 → e.tempReg = false) :
    Apart es' temps where
  temp_pos := h.temp_pos
  temp_nodup := h.temp_nodup
  empty := h0
  distinct := by
    have hd : (es.map ColCache.entry).Pairwise fun k k' => k.iReg = k'.iReg → k.iReg = 0 :=
      List.pairwise_map.mpr h.distinct
    rw [← hk] at hd
    exact List.pairwise_map.mp hd
  entry_temp e he hm := by
    have hmem : e.entry ∈ es.map ColCache.entry := hk ▸ List.mem_map_of_mem he
    obtain ⟨e₀, he₀, heq⟩ := List.mem_map.mp hmem
    have hr : e₀.iReg = e.iReg := congrArg Entry.iReg heq
    exact h.entry_temp e₀ he₀ (hr ▸ hm)

theorem Apart.set {e : ColCache} (ht : e.tempReg = false) : ∀ {es : List ColCache}
    {temps : List ℕ}, Apart es temps →
    (∀ e' ∈ es, e'.iReg ≠ 0 → e'.iReg ≠ e.iReg) → e.iReg ∉ temps → ∀ i, Apart (es.set i e) temps
  | [], _, h, _, _, _ => h
  | e₀ :: es, temps, h, hne, hm, 0 => by
    refine h.tail.cons (fun _ => ht) (fun e' he' heq => ?_) hm
    by_contra h0
    exact hne e' (List.mem_cons_of_mem e₀ he') (heq ▸ h0) heq.symm
  | e₀ :: es, temps, h, hne, hm, i + 1 => by
    have ih := Apart.set ht h.tail (fun e' he' => hne e' (List.mem_cons_of_mem e₀ he')) hm i
    refine ih.cons (h.empty e₀ List.mem_cons_self) (fun e' he' heq => ?_) (h.entry_temp e₀ List.mem_cons_self)
    obtain he' | rfl := List.mem_or_eq_of_mem_set he'
    · exact (List.pairwise_cons.mp h.distinct).1 e' he' heq
    · by_contra h0
      exact hne e₀ List.mem_cons_self h0 heq

theorem markTemp_none {r : ℕ} : ∀ {es : List ColCache}, markTemp r es = none → ∀ e ∈ es, e.iReg ≠ r
  | [], _ => nofun
  | e₀ :: es, h => by
    rw [markTemp] at h
    split at h
    · cases h
    · rename_i hne
      intro e he
      obtain rfl | he := List.mem_cons.mp he
      · exact hne
      · exact markTemp_none (Option.map_eq_none_iff.mp h) e he

theorem markTemp_some {r : ℕ} : ∀ {es es' : List ColCache}, markTemp r es = some es' →
    es'.map ColCache.entry = es.map ColCache.entry ∧ ∀ e ∈ es', e ∈ es ∨ e.iReg = r
  | [], _, h => by cases h
  | e₀ :: es, es', h => by
    rw [markTemp] at h
    split at h
    · rename_i heq
      cases h
      refine ⟨rfl, fun e he => ?_⟩
      obtain rfl | he := List.mem_cons.mp he
      · exact .inr heq
      · exact .inl (List.mem_cons_of_mem e₀ he)
    · obtain ⟨es₁, h₁, rfl⟩ := Option.map_eq_some_iff.mp h
      obtain ⟨hk, hm⟩ := markTemp_some h₁
      refine ⟨by rw [List.map_cons, List.map_cons, hk], fun e he => ?_⟩
      obtain rfl | he := List.mem_cons.mp he
      · exact .inl List.mem_cons_self
      · exact (hm e he).imp_left (List.mem_cons_of_mem e₀)

theorem fillEmpty_set {e : ColCache} : ∀ {es es' : List ColCache}, fillEmpty e es = some es' →
    ∃ i, es' = es.set i e
  | [], _, h => by cases h
  | e₀ :: es, es', h => by
    rw [fillEmpty] at h
    split at h
    · cases h
      exact ⟨0, rfl⟩
    · obtain ⟨es₁, h₁, rfl⟩ := Option.map_eq_some_iff.mp h
      obtain ⟨i, rfl⟩ := fillEmpty_set h₁
      exact ⟨i + 1, rfl⟩

namespace Parse

variable {V C F : Type}

def InRange (p : Parse V C F) (r : ℕ) : Prop := p.iRangeReg ≤ r ∧ r < p.iRangeReg + p.nRangeReg

/-- Registers that may still be handed out: those behind the last, the free ones, and those of temporary entries,
which become free when the entry goes. -/
def Avail (p : Parse V C F) (r : ℕ) : Prop :=
  p.nMem < r ∨ r ∈ p.aTempReg ∨ p.InRange r ∨ ∃ e ∈ p.aColCache, e.iReg = r ∧ e.tempReg = true

def Cached (p : Parse V C F) (k : Entry) : Prop := k.iReg ≠ 0 ∧ k ∈ p.aColCache.map ColCache.entry

structure WF (p : Parse V C F) : Prop where
  apart : Apart p.aColCache p.aTempReg
  temp_le : ∀ r ∈ p.aTempReg, r ≤ p.nMem
  entry_le : ∀ k, p.Cached k → k.iReg ≤ p.nMem
  range_le : p.iRangeReg + p.nRangeReg ≤ p.nMem + 1
  range_pos : 0 < p.nRangeReg → 0 < p.iRangeReg
  temp_range : ∀ r ∈ p.aTempReg, ¬p.InRange r
  entry_range : ∀ k, p.Cached k → ¬p.InRange k.iReg

/-- A register that is in use and about to be written. -/
structure Fresh (p : Parse V C F) (r : ℕ) : Prop where
  pos : 0 < r
  held : ¬p.Avail r
  uncached : ∀ k, p.Cached k → k.iReg ≠ r

/-- `q` comes from `p` by generating code that writes, of the registers in use, those of `T`. -/
structure Grows (T : ℕ → Prop) (p q : Parse V C F) : Prop where
  wf : q.WF
  code : p.pVdbe.Extends q.pVdbe
  avail : ∀ r, q.Avail r → p.Avail r
  level : q.iCacheLevel = p.iCacheLevel
  old : ∀ k, q.Cached k → k.iLevel < p.iCacheLevel → p.Cached k
  cached : ∀ k, q.Cached k → p.Cached k ∨ p.Avail k.iReg ∨ T k.iReg

variable {p q s : Parse V C F} {T U : ℕ → Prop} {r : ℕ}

theorem Grows.trans (h : Grows T p q) (h' : Grows T q s) : Grows T p s where
  wf := h'.wf
  code := h.code.trans h'.code
  avail r hr := h.avail r (h'.avail r hr)
  level := h'.level.trans h.level
  old k hk hl := h.old k (h'.old k hk (h.level ▸ hl)) hl
  cached k hk := by
    obtain hk | hk | hk := h'.cached k hk
    · exact h.cached k hk
    · exact .inr (.inl (h.avail _ hk))
    · exact .inr (.inr hk)

/-- Registers that were available need not be named. -/
theorem Grows.mono (h : Grows T p q) (hT : ∀ r, T r → p.Avail r ∨ U r) : Grows U p q where
  wf := h.wf
  code := h.code
  avail := h.avail
  level := h.level
  old := h.old
  cached k hk := by
    obtain hk | hk | hk := h.cached k hk
    · exact .inl hk
    · exact .inr (.inl hk)
    · exact .inr (hT _ hk)

theorem Grows.held (h : Grows T p q) (hr : ¬p.Avail r) : ¬q.Avail r := fun hq => hr (h.avail r hq)

theorem Fresh.grows (hf : p.Fresh r) (h : Grows T p q) (hT : ¬T r) : q.Fresh r where
  pos := hf.pos
  held := h.held hf.held
  uncached k hk heq := by
    obtain hk | hk | hk := h.cached k hk
    · exact hf.uncached k hk heq
    · exact hf.held (heq ▸ hk)
    · exact hT (heq ▸ hk)

theorem WF.refl (h : p.WF) : Grows T p p :=
  ⟨h, .refl _, fun _ hr => hr, rfl, fun _ hk _ => hk, fun _ hk => .inl hk⟩

theorem cached_entry {e : ColCache} (he : e ∈ p.aColCache) (h0 : e.iReg ≠ 0) : p.Cached e.entry :=
  ⟨h0, List.mem_map_of_mem he⟩

/-- A state with the same registers. -/
theorem WF.grows_code (h : p.WF) (hq : q = { p with pVdbe := q.pVdbe }) (hc : p.pVdbe.Extends q.pVdbe) :
    Grows T p q := by
  have hA : q.Avail = p.Avail := by rw [hq]; rfl
  have hC : q.Cached = p.Cached := by rw [hq]; rfl
  refine ⟨?_, hc, fun r hr => hA ▸ hr, by rw [hq], fun k hk _ => hC ▸ hk, fun k hk => .inl (hC ▸ hk)⟩
  rw [hq]
  exact ⟨h.apart, h.temp_le, h.entry_le, h.range_le, h.range_pos, h.temp_range, h.entry_range⟩

/-- `q` comes from `p` without code, and nothing is cached that was not. -/
structure Quiet (p q : Parse V C F) : Prop where
  wf : q.WF
  code : q.pVdbe = p.pVdbe
  avail : ∀ r, q.Avail r → p.Avail r
  level : q.iCacheLevel = p.iCacheLevel
  sub : ∀ k, q.Cached k → p.Cached k

theorem Quiet.grows (h : Quiet p q) : Grows T p q :=
  ⟨h.wf, h.code ▸ .refl _, h.avail, h.level, fun k hk _ => h.sub k hk, fun k hk => .inl (h.sub k hk)⟩

theorem WF.makeLabel (h : p.WF) : p.makeLabel.WF :=
  (h.grows_code (T := fun _ => False) rfl (Foundation.Program.extends_makeLabel _)).wf

/-- A label for code and behind it. -/
theorem Grows.own_label (h : Grows T p.makeLabel q) : Grows T p (q.resolveLabel p.pVdbe.labels) where
  wf := ⟨h.wf.apart, h.wf.temp_le, h.wf.entry_le, h.wf.range_le, h.wf.range_pos, h.wf.temp_range,
    h.wf.entry_range⟩
  code := h.code.own_label
  avail := h.avail
  level := h.level
  old := h.old
  cached := h.cached

theorem WF.addOp (h : p.WF) (op : Op V C F) : (p.addOp op).WF :=
  (h.grows_code (T := fun _ => False) rfl (Foundation.Program.extends_addOp _ _)).wf

theorem Fresh.addOp (hp : p.WF) (hr : p.Fresh r) (op : Op V C F) : (p.addOp op).Fresh r :=
  hr.grows (hp.grows_code (T := fun _ => False) rfl (Foundation.Program.extends_addOp _ _)) id

theorem WF.quiet (h : p.WF) : Quiet p p := ⟨h, rfl, fun _ hr => hr, rfl, fun _ hk => hk⟩

/-- A new parse with `nMem` registers in use. -/
def zero (V C F : Type) (nMem : ℕ) (cacheOff : Bool) : Parse V C F :=
  { pVdbe := ⟨[], []⟩, nMem, aTempReg := [], iRangeReg := 0, nRangeReg := 0
    aColCache := List.replicate 10 ⟨0, 0, false, 0, 0, 0⟩, iCacheLevel := 0, iCacheCnt := 0, cacheOff }

theorem zero_uncached (nMem : ℕ) (cacheOff : Bool) (k : Entry) : ¬(zero V C F nMem cacheOff).Cached k := by
  rintro ⟨h0, hk⟩
  obtain ⟨e, he, rfl⟩ := List.mem_map.mp hk
  obtain rfl := List.eq_of_mem_replicate he
  exact h0 rfl

theorem zero_wf (nMem : ℕ) (cacheOff : Bool) : (zero V C F nMem cacheOff).WF where
  apart := by
    refine ⟨nofun, List.nodup_nil, fun e he _ => ?_,
      List.pairwise_of_forall_mem_list fun e he e' _ _ => ?_, nofun⟩
    · obtain rfl := List.eq_of_mem_replicate he
      rfl
    · obtain rfl := List.eq_of_mem_replicate he
      rfl
  temp_le := nofun
  entry_le k hk := absurd hk (zero_uncached nMem cacheOff k)
  range_le := Nat.zero_le _
  range_pos := nofun
  temp_range := nofun
  entry_range k hk := absurd hk (zero_uncached nMem cacheOff k)

theorem zero_held {nMem : ℕ} {cacheOff : Bool} (hr : r ≤ nMem) : ¬(zero V C F nMem cacheOff).Avail r := by
  rintro (h | h | h | ⟨e, he, -, ht⟩)
  · exact Nat.not_lt_of_le hr h
  · cases h
  · exact Nat.not_lt_zero _ h.2
  · obtain rfl := List.eq_of_mem_replicate he
    cases ht

theorem zero_fresh {nMem : ℕ} {cacheOff : Bool} (hpos : 0 < r) (hr : r ≤ nMem) :
    (zero V C F nMem cacheOff).Fresh r :=
  ⟨hpos, zero_held hr, fun k hk => absurd hk (zero_uncached nMem cacheOff k)⟩

/-! Temporary registers. -/

theorem getTempReg_quiet (h : p.WF) : Quiet p p.sqlite3GetTempReg.1 := by
  rw [sqlite3GetTempReg]
  split
  · refine ⟨⟨h.apart, fun r hr => Nat.le_succ_of_le (h.temp_le r hr), fun k hk => Nat.le_succ_of_le (h.entry_le k hk),
      Nat.le_succ_of_le h.range_le, h.range_pos, h.temp_range, h.entry_range⟩, rfl, fun r hr => ?_, rfl,
        fun k hk => hk⟩
    obtain hr | hr := hr
    · exact .inl (Nat.lt_of_succ_lt hr)
    · exact .inr hr
  · rename_i r rs heq
    have hsub : ∀ r' ∈ rs, r' ∈ p.aTempReg := fun r' hr' => heq ▸ List.mem_cons_of_mem r hr'
    refine ⟨⟨?_, fun r' hr' => h.temp_le r' (hsub r' hr'), h.entry_le, h.range_le,
      h.range_pos, fun r' hr' => h.temp_range r' (hsub r' hr'), h.entry_range⟩, rfl, fun r' hr' => ?_,
        rfl, fun k hk => hk⟩
    · exact ⟨fun r' hr' => h.apart.temp_pos r' (hsub r' hr'),
      (List.nodup_cons.mp (heq ▸ h.apart.temp_nodup)).2,
        h.apart.empty, h.apart.distinct, fun e he hm => h.apart.entry_temp e he (hsub _ hm)⟩
    · obtain hr' | hr' | hr' := hr'
      · exact .inl hr'
      · exact .inr (.inl (hsub r' hr'))
      · exact .inr (.inr hr')

theorem getTempReg_avail (p : Parse V C F) : p.Avail p.sqlite3GetTempReg.2 := by
  rw [sqlite3GetTempReg]
  split
  · exact .inl (Nat.lt_succ_self _)
  · rename_i r rs heq
    exact .inr (.inl (heq ▸ List.mem_cons_self))

theorem getTempReg_fresh (h : p.WF) : p.sqlite3GetTempReg.1.Fresh p.sqlite3GetTempReg.2 := by
  rw [sqlite3GetTempReg]
  split
  · rename_i heq
    refine ⟨Nat.succ_pos _, ?_, fun k hk heq => ?_⟩
    · rintro (hr | hr | hr | ⟨e, he, hr, ht⟩)
      · exact Nat.lt_irrefl _ hr
      · have hr : p.nMem + 1 ∈ p.aTempReg := hr
        rw [heq] at hr
        cases hr
      · have h1 : p.nMem + 1 < p.iRangeReg + p.nRangeReg := hr.2
        have h2 := h.range_le
        omega
      · have hr : e.iReg = p.nMem + 1 := hr
        have h1 := h.entry_le e.entry (cached_entry he (by omega))
        have h2 : e.entry.iReg = e.iReg := rfl
        omega
    · have h1 := h.entry_le k hk
      have h2 : k.iReg = p.nMem + 1 := heq
      omega
  · rename_i r rs heq
    have hmem : r ∈ p.aTempReg := heq ▸ List.mem_cons_self
    have hnd := List.nodup_cons.mp (heq ▸ h.apart.temp_nodup)
    refine ⟨h.apart.temp_pos r hmem, ?_, fun k hk heq' => ?_⟩
    · rintro (hr | hr | hr | ⟨e, he, rfl, ht⟩)
      · exact Nat.lt_irrefl _ (Nat.lt_of_lt_of_le hr (h.temp_le r hmem))
      · exact hnd.1 hr
      · exact h.temp_range r hmem hr
      · exact h.apart.entry_temp e he hmem
    · obtain ⟨e, he, rfl⟩ := List.mem_map.mp hk.2
      have heq' : e.iReg = r := heq'
      exact h.apart.entry_temp e he (heq' ▸ hmem)

/-- What a register may be released that code came to use: none, or one that was available. -/
def Freed (p q : Parse V C F) (r : ℕ) : Prop := r = 0 ∨ 0 < r ∧ p.Avail r ∧ ¬q.Avail r

theorem Grows.freed (hg : Grows T q s) (h : Freed p q r) : Freed p s r :=
  h.imp_right fun h => ⟨h.1, h.2.1, hg.held h.2.2⟩

theorem Freed.grows (h : Freed q s r) (hg : Grows T p q) : Freed p s r :=
  h.imp_right fun h => ⟨h.1, hg.avail r h.2.1, h.2.2⟩

theorem Freed.ne {r' : ℕ} (h : Freed p q r) (h' : Freed q s r') (heq : r = r') : r' = 0 := by
  obtain h' | h' := h'
  · exact h'
  · obtain h | h := h
    · exact heq.symm.trans h
    · exact absurd (heq ▸ h'.2.1) h.2.2

/-- Registers that code came to use, all different. -/
structure FreedAll (p q : Parse V C F) (rs : List ℕ) : Prop where
  freed : ∀ r ∈ rs, Freed p q r
  ne : rs.Pairwise fun r r' => r = r' → r' = 0

theorem FreedAll.grows {rs : List ℕ} (h : FreedAll p q rs) (hg : Grows T q s) : FreedAll p s rs :=
  ⟨fun r hr => hg.freed (h.freed r hr), h.ne⟩

theorem FreedAll.cons {rs : List ℕ} (h : FreedAll p q rs) (hpq : Grows T p q) (hqs : Grows U q s)
    (hr : Freed q s r) : FreedAll p s (r :: rs) where
  freed r' hr' := by
    obtain rfl | hr' := List.mem_cons.mp hr'
    · exact hr.grows hpq
    · exact hqs.freed (h.freed r' hr')
  ne := by
    refine List.pairwise_cons.mpr ⟨fun r' hr' heq => ?_, h.ne⟩
    have h0 := (h.freed r' hr').ne hr heq.symm
    exact heq.symm.trans h0

theorem FreedAll.perm {rs rs' : List ℕ} (h : FreedAll p q rs) (hp : rs.Perm rs') : FreedAll p q rs' where
  freed r hr := h.freed r (hp.mem_iff.mpr hr)
  ne := hp.pairwise h.ne fun {_ _} h heq => heq ▸ h heq.symm

theorem releaseTempReg_code (q : Parse V C F) (r : ℕ) : (q.sqlite3ReleaseTempReg r).pVdbe = q.pVdbe := by
  rw [sqlite3ReleaseTempReg]
  split
  · split <;> rfl
  · rfl

theorem releaseTempReg_cached (q : Parse V C F) (r : ℕ) : (q.sqlite3ReleaseTempReg r).Cached = q.Cached := by
  rw [sqlite3ReleaseTempReg]
  split
  · split
    · rename_i es heq
      funext k
      exact congrArg (fun l => k.iReg ≠ 0 ∧ k ∈ l) (markTemp_some heq).1
    · rfl
  · rfl

theorem releaseAll_cached : ∀ (rs : List ℕ) (q : Parse V C F), (rs.foldl sqlite3ReleaseTempReg q).Cached = q.Cached
  | [], _ => rfl
  | r :: rs, q => (releaseAll_cached rs _).trans (releaseTempReg_cached q r)

theorem releaseTempReg_avail {x : ℕ} (h : (q.sqlite3ReleaseTempReg r).Avail x) : q.Avail x ∨ x = r := by
  rw [sqlite3ReleaseTempReg] at h
  split at h
  · split at h
    · rename_i es heq
      obtain h | h | h | ⟨e, he, hr, ht⟩ := h
      · exact .inl (.inl h)
      · exact .inl (.inr (.inl h))
      · exact .inl (.inr (.inr (.inl h)))
      · obtain he | he := (markTemp_some heq).2 e he
        · exact .inl (.inr (.inr (.inr ⟨e, he, hr, ht⟩)))
        · exact .inr (hr.symm.trans he)
    · obtain h | h | h := h
      · exact .inl (.inl h)
      · obtain rfl | h := List.mem_cons.mp h
        · exact .inr rfl
        · exact .inl (.inr (.inl h))
      · exact .inl (.inr (.inr h))
  · exact .inl h

theorem releaseTempReg_wf (h : q.WF) (hr : 0 < r → ¬q.Avail r) : (q.sqlite3ReleaseTempReg r).WF := by
  have hC := releaseTempReg_cached q r
  rw [sqlite3ReleaseTempReg] at hC ⊢
  split
  · rename_i hpos
    have hr := hr (Nat.pos_of_ne_zero hpos.1)
    rw [if_pos hpos] at hC
    split
    · rename_i es heq
      rw [heq] at hC
      refine ⟨h.apart.of_entry (markTemp_some heq).1 fun e he h0 => ?_, h.temp_le, fun k hk => ?_,
        h.range_le, h.range_pos, h.temp_range,
        fun k hk => ?_⟩
      · obtain he | he := (markTemp_some heq).2 e he
        · exact h.apart.empty e he h0
        · exact absurd (he.symm.trans h0) hpos.1
      · exact h.entry_le k (hC ▸ hk)
      · exact h.entry_range k (hC ▸ hk)
    · rename_i heq
      have hle : r ≤ q.nMem := Nat.le_of_not_lt fun hlt => hr (.inl hlt)
      refine ⟨⟨fun x hx => ?_, List.nodup_cons.mpr ⟨fun hm => hr (.inr (.inl hm)), h.apart.temp_nodup⟩, h.apart.empty,
        h.apart.distinct, fun e he hm => ?_⟩, fun x hx => ?_, h.entry_le, h.range_le, h.range_pos,
          fun x hx => ?_, h.entry_range⟩
      · obtain rfl | hx := List.mem_cons.mp hx
        · exact Nat.pos_of_ne_zero hpos.1
        · exact h.apart.temp_pos x hx
      · obtain heq' | hm := List.mem_cons.mp hm
        · exact markTemp_none heq e he heq'
        · exact h.apart.entry_temp e he hm
      · obtain rfl | hx := List.mem_cons.mp hx
        · exact hle
        · exact h.temp_le x hx
      · obtain rfl | hx := List.mem_cons.mp hx
        · exact fun hx => hr (.inr (.inr (.inl hx)))
        · exact h.temp_range x hx
  · exact h

theorem Fresh.release {x : ℕ} (h : q.Fresh x) (hne : x ≠ r) : (q.sqlite3ReleaseTempReg r).Fresh x where
  pos := h.pos
  held ha := (releaseTempReg_avail ha).elim h.held hne
  uncached k hk := h.uncached k (releaseTempReg_cached q r ▸ hk)

theorem FreedAll.release {rs : List ℕ} (h : FreedAll p q (r :: rs)) :
    FreedAll p (q.sqlite3ReleaseTempReg r) rs where
  freed r' hr' := (h.freed r' (List.mem_cons_of_mem r hr')).imp_right fun h' => ⟨h'.1, h'.2.1, fun ha => by
    obtain ha | rfl := releaseTempReg_avail ha
    · exact h'.2.2 ha
    · exact Nat.ne_of_gt h'.1 ((List.pairwise_cons.mp h.ne).1 r' hr' rfl)⟩
  ne := (List.pairwise_cons.mp h.ne).2

theorem Grows.release (h : Grows T p q) (hr : Freed p q r) : Grows T p (q.sqlite3ReleaseTempReg r) where
  wf := releaseTempReg_wf h.wf fun hpos => by
    obtain rfl | ⟨-, -, hr⟩ := hr
    · cases hpos
    · exact hr
  code := by rw [releaseTempReg_code]; exact h.code
  avail x hx := by
    obtain hx | rfl := releaseTempReg_avail hx
    · exact h.avail x hx
    · obtain rfl | hr := hr
      · exact h.avail 0 (by rwa [sqlite3ReleaseTempReg, if_neg (fun hc => hc.1 rfl)] at hx)
      · exact hr.2.1
  level := by
    rw [← h.level, sqlite3ReleaseTempReg]
    split
    · split <;> rfl
    · rfl
  old k hk := h.old k (releaseTempReg_cached q r ▸ hk)
  cached k hk := h.cached k (releaseTempReg_cached q r ▸ hk)

/-! The column cache. -/

theorem clearWhere_cached (h : p.WF) {f : ColCache → Bool} {k : Entry} (hk : (p.clearWhere f).Cached k) :
    ∃ e ∈ p.aColCache, e.entry = k ∧ f e = false := by
  obtain ⟨h0, hk⟩ := hk
  obtain ⟨e, he, rfl⟩ := List.mem_map.mp hk
  obtain ⟨hmem, hf⟩ := (clearEntries_cleared f p.aColCache p.aTempReg h.apart).entry e he h0
  exact ⟨e, hmem, rfl, hf⟩

theorem clearWhere_quiet (h : p.WF) (f : ColCache → Bool) : Quiet p (p.clearWhere f) := by
  have hc := clearEntries_cleared f p.aColCache p.aTempReg h.apart
  have hsub : ∀ k, (p.clearWhere f).Cached k → p.Cached k := by
    intro k hk
    obtain ⟨e, he, rfl, -⟩ := clearWhere_cached h hk
    exact cached_entry he hk.1
  have hentry : ∀ e ∈ p.aColCache, e.tempReg = true → p.Cached e.entry := by
    intro e he ht
    refine cached_entry he fun h0 => ?_
    rw [h.apart.empty e he h0] at ht
    cases ht
  refine ⟨⟨hc.apart, fun r hr => ?_, fun k hk => h.entry_le k (hsub k hk), h.range_le, h.range_pos, fun r hr => ?_,
    fun k hk => h.entry_range k (hsub k hk)⟩, rfl, fun r hr => ?_, rfl, hsub⟩
  · obtain hr | ⟨e, he, rfl, ht⟩ := hc.temp r hr
    · exact h.temp_le r hr
    · exact h.entry_le e.entry (hentry e he ht)
  · obtain hr | ⟨e, he, rfl, ht⟩ := hc.temp r hr
    · exact h.temp_range r hr
    · exact h.entry_range e.entry (hentry e he ht)
  · obtain hr | hr | hr | ⟨e, he, rfl, ht⟩ := hr
    · exact .inl hr
    · obtain hr | hr := hc.temp r hr
      · exact .inr (.inl hr)
      · exact .inr (.inr (.inr hr))
    · exact .inr (.inr (.inl hr))
    · by_cases h0 : e.iReg = 0
      · rw [hc.apart.empty e he h0] at ht
        cases ht
      · exact .inr (.inr (.inr ⟨e, (hc.entry e he h0).1, rfl, ht⟩))

theorem cacheRemove_uncached (h : p.WF) {iReg nReg : ℕ} {k : Entry}
    (hk : (p.sqlite3ExprCacheRemove iReg nReg).Cached k) : ¬(iReg ≤ k.iReg ∧ k.iReg < iReg + nReg) := by
  obtain ⟨e, he, rfl, hf⟩ := clearWhere_cached h hk
  have hf : ¬(iReg ≤ e.iReg ∧ e.iReg < iReg + nReg) := by simpa using hf
  exact hf

/-- A group of code between `sqlite3ExprCachePush` and `sqlite3ExprCachePop`: no entry of its own stays. -/
theorem cachePush_grows (h : Grows T p.sqlite3ExprCachePush q) :
    Grows T p (q.sqlite3ExprCachePop 1) ∧ (q.sqlite3ExprCachePop 1).pVdbe = q.pVdbe ∧
      ∀ k, (q.sqlite3ExprCachePop 1).Cached k →
        q.Cached k ∧ p.Cached k ∧ k.iLevel < p.sqlite3ExprCachePush.iCacheLevel := by
  have hlevel : q.iCacheLevel - 1 = p.iCacheLevel := by rw [h.level]; exact Nat.add_sub_cancel _ 1
  have hwf : ({ q with iCacheLevel := q.iCacheLevel - 1 } : Parse V C F).WF :=
    ⟨h.wf.apart, h.wf.temp_le, h.wf.entry_le, h.wf.range_le, h.wf.range_pos, h.wf.temp_range,
      h.wf.entry_range⟩
  have hq := clearWhere_quiet hwf fun e => e.iReg ≠ 0 ∧ q.iCacheLevel - 1 < e.iLevel
  have hsub : ∀ k, (q.sqlite3ExprCachePop 1).Cached k →
      q.Cached k ∧ p.Cached k ∧ k.iLevel < p.sqlite3ExprCachePush.iCacheLevel := by
    intro k hk
    have hlt : k.iLevel < p.sqlite3ExprCachePush.iCacheLevel := by
      obtain ⟨e, he, rfl, hf⟩ := clearWhere_cached hwf hk
      have h0 : e.iReg ≠ 0 := hk.1
      have hle : e.iLevel ≤ q.iCacheLevel - 1 := by simpa [h0] using hf
      exact Nat.lt_succ_of_le (hlevel ▸ hle)
    exact ⟨hq.sub k hk, h.old k (hq.sub k hk) hlt, hlt⟩
  exact ⟨⟨hq.wf, h.code, fun r hr => h.avail r (hq.avail r hr), hlevel, fun k hk _ => (hsub k hk).2.1,
    fun k hk => .inl (hsub k hk).2.1⟩, rfl, hsub⟩

theorem WF.cachePush (h : p.WF) : p.sqlite3ExprCachePush.WF :=
  ⟨h.apart, h.temp_le, h.entry_le, h.range_le, h.range_pos, h.temp_range, h.entry_range⟩

/-- A new entry for a register that is in use. -/
theorem cacheStore_grows (h : p.WF) (iTab : ℕ) (iCol : ℤ) (hr : p.Fresh r) :
    Grows (· = r) p (p.sqlite3ExprCacheStore iTab iCol r) ∧
      (p.sqlite3ExprCacheStore iTab iCol r).pVdbe = p.pVdbe ∧
      ∀ k, (p.sqlite3ExprCacheStore iTab iCol r).Cached k →
        p.Cached k ∨ k.iTable = iTab ∧ k.iColumn = iCol ∧ k.iReg = r := by
  have key : ∀ (i lru : ℕ) (cnt : ℕ),
      let e : ColCache := ⟨iTab, iCol, false, p.iCacheLevel, r, lru⟩
      let q : Parse V C F := { p with aColCache := p.aColCache.set i e, iCacheCnt := cnt }
      Grows (· = r) p q ∧ q.pVdbe = p.pVdbe ∧
        ∀ k, q.Cached k → p.Cached k ∨ k.iTable = iTab ∧ k.iColumn = iCol ∧ k.iReg = r := by
    intro i lru cnt e q
    have hle : r ≤ p.nMem := Nat.le_of_not_lt fun hlt => hr.held (.inl hlt)
    have hmem : ∀ e' ∈ q.aColCache, e' ∈ p.aColCache ∨ e' = e := fun e' he' => List.mem_or_eq_of_mem_set he'
    have hsub : ∀ k, q.Cached k → p.Cached k ∨ k = e.entry := by
      intro k hk
      obtain ⟨e', he', rfl⟩ := List.mem_map.mp hk.2
      obtain he' | rfl := hmem e' he'
      · exact .inl (cached_entry he' hk.1)
      · exact .inr rfl
    refine ⟨⟨⟨?_, h.temp_le, fun k hk => ?_, h.range_le, h.range_pos, h.temp_range, fun k hk => ?_⟩, .refl _,
      fun x hx => ?_, rfl, fun k hk hl => ?_, fun k hk => ?_⟩, rfl, fun k hk => ?_⟩
    · exact Apart.set (e := e) rfl h.apart (fun e' he' h0 => hr.uncached e'.entry (cached_entry he' h0))
        (fun hm => hr.held (.inr (.inl hm))) i
    · obtain hk | rfl := hsub k hk
      · exact h.entry_le k hk
      · exact hle
    · obtain hk | rfl := hsub k hk
      · exact h.entry_range k hk
      · exact fun hin => hr.held (.inr (.inr (.inl hin)))
    · obtain hx | hx | hx | ⟨e', he', hx, ht⟩ := hx
      · exact .inl hx
      · exact .inr (.inl hx)
      · exact .inr (.inr (.inl hx))
      · obtain he' | rfl := hmem e' he'
        · exact .inr (.inr (.inr ⟨e', he', hx, ht⟩))
        · cases ht
    · obtain hk | rfl := hsub k hk
      · exact hk
      · exact absurd hl (Nat.lt_irrefl _)
    · obtain hk | rfl := hsub k hk
      · exact .inl hk
      · exact .inr (.inr rfl)
    · obtain hk | rfl := hsub k hk
      · exact .inl hk
      · exact .inr ⟨rfl, rfl, rfl⟩
  have same : Grows (· = r) p p ∧ p.pVdbe = p.pVdbe ∧
      ∀ k, p.Cached k → p.Cached k ∨ k.iTable = iTab ∧ k.iColumn = iCol ∧ k.iReg = r :=
    ⟨h.refl, rfl, fun k hk => .inl hk⟩
  rw [sqlite3ExprCacheStore]
  split
  · exact same
  · split
    · rename_i es heq
      obtain ⟨i, rfl⟩ := fillEmpty_set heq
      exact key i p.iCacheCnt (p.iCacheCnt + 1)
    · split
      · rename_i i _
        exact key i p.iCacheCnt (p.iCacheCnt + 1)
      · exact same

/-- The register of an entry that is used is in use. -/
theorem useEntry_quiet (h : p.WF) {f : ColCache → Bool} (hf : ∀ e, f e = true → e.iReg ≠ 0)
    (hq : p.useEntry f = some (q, r)) :
    Quiet p q ∧ ¬q.Avail r ∧ ∃ e ∈ p.aColCache, f e = true ∧ e.iReg = r := by
  rw [useEntry] at hq
  split at hq
  · cases hq
  · rename_i i hi
    obtain ⟨hlt, hfi, -⟩ := List.findIdx?_eq_some_iff_getElem.mp hi
    obtain ⟨e, he, hqe⟩ := Option.map_eq_some_iff.mp hq
    have he' : p.aColCache[i] = e := by
      rw [List.getElem?_eq_getElem hlt] at he
      exact Option.some.inj he
    have hmem : e ∈ p.aColCache := he' ▸ List.getElem_mem hlt
    have hfe : f e = true := he' ▸ hfi
    obtain ⟨rfl, rfl⟩ := Prod.mk.inj hqe
    have hentry : ((p.aColCache.set i { e with lru := p.iCacheCnt }).map fun e' =>
        if e'.iReg = e.iReg then { e' with tempReg := false } else e').map ColCache.entry =
        p.aColCache.map ColCache.entry := by
      rw [List.map_map]
      have hcomp : (ColCache.entry ∘ fun e' : ColCache =>
          if e'.iReg = e.iReg then { e' with tempReg := false } else e') = ColCache.entry := by
        funext e'
        rw [Function.comp_apply]
        split <;> rfl
      rw [hcomp, List.map_set]
      refine List.ext_getElem? fun j => ?_
      by_cases hj : i = j
      · subst hj
        rw [List.getElem?_set_self (by rwa [List.length_map]), List.getElem?_map, he]
        rfl
      · rw [List.getElem?_set_ne hj]
    have htemp : ∀ e₁ ∈ (p.aColCache.set i { e with lru := p.iCacheCnt }).map (fun e' =>
        if e'.iReg = e.iReg then { e' with tempReg := false } else e'), e₁.tempReg = true →
        e₁ ∈ p.aColCache ∧ e₁.iReg ≠ e.iReg := by
      intro e₁ he₁ ht
      obtain ⟨e₂, he₂, rfl⟩ := List.mem_map.mp he₁
      split at ht
      · cases ht
      · rename_i hne
        rw [if_neg hne]
        obtain he₂ | rfl := List.mem_or_eq_of_mem_set he₂
        · exact ⟨he₂, hne⟩
        · exact absurd rfl hne
    have hC : ∀ k, Cached { p with
        aColCache := (p.aColCache.set i { e with lru := p.iCacheCnt }).map fun e' =>
          if e'.iReg = e.iReg then { e' with tempReg := false } else e'
        iCacheCnt := p.iCacheCnt + 1 } k → p.Cached k := fun k hk => ⟨hk.1, hentry ▸ hk.2⟩
    refine ⟨⟨⟨?_, h.temp_le, fun k hk => h.entry_le k (hC k hk), h.range_le, h.range_pos, h.temp_range,
      fun k hk => h.entry_range k (hC k hk)⟩, rfl, fun x hx => ?_, rfl, hC⟩, ?_, e, hmem, hfe, rfl⟩
    · refine h.apart.of_entry hentry fun e₁ he₁ h0 => ?_
      refine Bool.eq_false_iff.mpr fun ht => ?_
      rw [h.apart.empty e₁ (htemp e₁ he₁ ht).1 h0] at ht
      cases ht
    · obtain hx | hx | hx | ⟨e₁, he₁, hx, ht⟩ := hx
      · exact .inl hx
      · exact .inr (.inl hx)
      · exact .inr (.inr (.inl hx))
      · exact .inr (.inr (.inr ⟨e₁, (htemp e₁ he₁ ht).1, hx, ht⟩))
    · have hc := cached_entry hmem (hf e hfe)
      rintro (hx | hx | hx | ⟨e₁, he₁, hx, ht⟩)
      · exact Nat.lt_irrefl _ (Nat.lt_of_lt_of_le hx (h.entry_le e.entry hc))
      · exact h.apart.entry_temp e hmem hx
      · exact h.entry_range e.entry hc hx
      · exact (htemp e₁ he₁ ht).2 hx

/-! Ranges of registers. -/

theorem getTempRange_quiet (h : p.WF) (nReg : ℕ) : Quiet p (p.sqlite3GetTempRange nReg).1 := by
  rw [sqlite3GetTempRange]
  split
  · rename_i hle
    have hin : ∀ r, p.iRangeReg + nReg ≤ r ∧ r < p.iRangeReg + nReg + (p.nRangeReg - nReg) → p.InRange r :=
      fun r hr => ⟨Nat.le_trans (Nat.le_add_right _ _) hr.1, by omega⟩
    refine ⟨⟨h.apart, h.temp_le, h.entry_le, ?_, ?_, fun r hr hi => h.temp_range r hr (hin r hi),
      fun k hk hi => h.entry_range k hk (hin _ hi)⟩, rfl, fun r hr => ?_, rfl, fun k hk => hk⟩
    · have h1 := h.range_le
      have h2 : p.iRangeReg + nReg + (p.nRangeReg - nReg) ≤ p.nMem + 1 := by omega
      exact h2
    · intro hlt
      have hlt : 0 < p.nRangeReg - nReg := hlt
      exact Nat.add_pos_left (h.range_pos (by omega)) nReg
    · obtain hr | hr | hr | hr := hr
      · exact .inl hr
      · exact .inr (.inl hr)
      · exact .inr (.inr (.inl (hin r hr)))
      · exact .inr (.inr (.inr hr))
  · refine ⟨⟨h.apart, fun r hr => Nat.le_add_right_of_le (h.temp_le r hr),
      fun k hk => Nat.le_add_right_of_le (h.entry_le k hk), ?_, h.range_pos, h.temp_range,
        h.entry_range⟩, rfl, fun r hr => ?_, rfl,
      fun k hk => hk⟩
    · have h1 := h.range_le
      have h2 : p.iRangeReg + p.nRangeReg ≤ p.nMem + nReg + 1 := by omega
      exact h2
    · obtain hr | hr := hr
      · exact .inl (Nat.lt_of_le_of_lt (Nat.le_add_right _ _) hr)
      · exact .inr hr

theorem getTempRange_avail (p : Parse V C F) {nReg i : ℕ} (hi : i < nReg) :
    p.Avail ((p.sqlite3GetTempRange nReg).2 + i) := by
  rw [sqlite3GetTempRange]
  split
  · have h1 : p.InRange (p.iRangeReg + i) := ⟨Nat.le_add_right _ _, by omega⟩
    exact .inr (.inr (.inl h1))
  · have h1 : p.nMem < p.nMem + 1 + i := by omega
    exact .inl h1

theorem getTempRange_fresh (h : p.WF) {nReg i : ℕ} (hi : i < nReg) :
    (p.sqlite3GetTempRange nReg).1.Fresh ((p.sqlite3GetTempRange nReg).2 + i) := by
  rw [sqlite3GetTempRange]
  split
  · rename_i hle
    have h0 : 0 < p.iRangeReg := h.range_pos (by omega)
    have hin : p.InRange (p.iRangeReg + i) := ⟨Nat.le_add_right _ _, by omega⟩
    refine ⟨Nat.add_pos_left h0 i, ?_, fun k hk heq => ?_⟩
    · rintro (hr | hr | hr | ⟨e, he, hr, ht⟩)
      · have h1 := h.range_le
        have h2 : p.nMem < p.iRangeReg + i := hr
        omega
      · exact h.temp_range _ hr hin
      · have h1 : p.iRangeReg + nReg ≤ p.iRangeReg + i := hr.1
        omega
      · have hr : e.iReg = p.iRangeReg + i := hr
        refine h.entry_range e.entry (cached_entry he ?_) ?_
        · rw [hr]
          exact Nat.ne_of_gt (Nat.add_pos_left h0 i)
        · rw [← hr] at hin
          exact hin
    · have heq : k.iReg = p.iRangeReg + i := heq
      exact h.entry_range k hk (heq ▸ hin)
  · refine ⟨Nat.add_pos_left (Nat.succ_pos _) i, ?_, fun k hk heq => ?_⟩
    · have h1 := h.range_le
      rintro (hr | hr | hr | ⟨e, he, hr, ht⟩)
      · have h2 : p.nMem + nReg < p.nMem + 1 + i := hr
        omega
      · have h2 := h.temp_le _ hr
        omega
      · have h2 : p.nMem + 1 + i < p.iRangeReg + p.nRangeReg := hr.2
        omega
      · have hr : e.iReg = p.nMem + 1 + i := hr
        have h2 := h.entry_le e.entry (cached_entry he (by omega))
        have h3 : e.entry.iReg = e.iReg := rfl
        omega
    · have heq : k.iReg = p.nMem + 1 + i := heq
      have h2 := h.entry_le k hk
      omega

theorem cacheRemove_quiet (h : p.WF) (iReg nReg : ℕ) : Quiet p (p.sqlite3ExprCacheRemove iReg nReg) :=
  clearWhere_quiet h _

theorem releaseTempRange_spec (h : q.WF) {iReg nReg : ℕ} (hpos : 0 < iReg)
    (hr : ∀ i < nReg, ¬q.Avail (iReg + i)) :
    (q.sqlite3ReleaseTempRange iReg nReg).WF ∧ (q.sqlite3ReleaseTempRange iReg nReg).pVdbe = q.pVdbe ∧
      (q.sqlite3ReleaseTempRange iReg nReg).iCacheLevel = q.iCacheLevel ∧
      (∀ x, (q.sqlite3ReleaseTempRange iReg nReg).Avail x → q.Avail x ∨ ∃ i < nReg, x = iReg + i) ∧
      ∀ k, (q.sqlite3ReleaseTempRange iReg nReg).Cached k → q.Cached k := by
  have hq := cacheRemove_quiet h iReg nReg
  have hheld : ∀ x, iReg ≤ x → x < iReg + nReg → ¬(q.sqlite3ExprCacheRemove iReg nReg).Avail x := by
    intro x hx hlt ha
    refine hr (x - iReg) (by omega) (hq.avail _ ?_)
    rwa [Nat.add_sub_cancel' hx]
  rw [sqlite3ReleaseTempRange]
  split
  · rename_i hlt
    have hw := hq.wf
    refine ⟨⟨hw.apart, hw.temp_le, hw.entry_le, ?_, fun _ => hpos, fun r hm hin => ?_, fun k hk hin => ?_⟩, rfl, rfl,
      fun x hx => ?_, hq.sub⟩
    · have hle : ¬(q.sqlite3ExprCacheRemove iReg nReg).nMem < iReg + (nReg - 1) := fun hlt' =>
        hheld _ (Nat.le_add_right _ _) (by omega) (.inl hlt')
      have h2 : iReg + nReg ≤ (q.sqlite3ExprCacheRemove iReg nReg).nMem + 1 := by omega
      exact h2
    · exact hheld r hin.1 hin.2 (.inr (.inl hm))
    · exact cacheRemove_uncached h hk hin
    · obtain hx | hx | hx | hx := hx
      · exact .inl (hq.avail x (.inl hx))
      · exact .inl (hq.avail x (.inr (.inl hx)))
      · exact .inr ⟨x - iReg, Nat.sub_lt_left_of_lt_add hx.1 hx.2, (Nat.add_sub_cancel' hx.1).symm⟩
      · exact .inl (hq.avail x (.inr (.inr (.inr hx))))
  · exact ⟨hq.wf, rfl, rfl, fun x hx => .inl (hq.avail x hx), hq.sub⟩

theorem Grows.releaseRange (h : Grows T p q) {iReg nReg : ℕ} (hpos : 0 < iReg)
    (hr : ∀ i < nReg, p.Avail (iReg + i) ∧
      ¬q.Avail (iReg + i)) : Grows T p (q.sqlite3ReleaseTempRange iReg nReg) := by
  obtain ⟨hwf, hcode, hlevel, havail, hsub⟩ := releaseTempRange_spec h.wf hpos fun i hi => (hr i hi).2
  refine ⟨hwf, hcode ▸ h.code, fun x hx => ?_, hlevel.trans h.level, fun k hk => h.old k (hsub k hk),
    fun k hk => h.cached k (hsub k hk)⟩
  obtain hx | ⟨i, hi, rfl⟩ := havail x hx
  · exact h.avail x hx
  · exact (hr i hi).1

end Parse

end Sqlite.ExprCode

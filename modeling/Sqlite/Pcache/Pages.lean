import Sqlite.Pcache.Dirty

/-! The headers of the pages in the cache, their reference counts and pins, and the calls on one
page. -/
namespace Sqlite.Pcache

open Foundation

variable {s s' : PCache} {l l' : List ℕ} {p lost : ℕ} {h' : PgHdr}

/-- A page that must stay in the cache. -/
def inUse (h : PgHdr) : Prop := h.dirty = true ∨ 0 < h.nRef

/-- The pages `l` are the dirty ones. `lost` pages were referenced when they were truncated. -/
structure Pages (s : PCache) (l : List ℕ) (lost : ℕ) : Prop where
  dirty : ∀ p ∈ s.held, (s.pg p).dirty = true ↔ p ∈ l
  refs : s.nRef = (s.held.filter (fun p => 0 < (s.pg p).nRef)).card + lost
  range : ∀ p ∈ s.held, 0 ≤ (s.pg p).nRef ∧ (s.pg p).nRef ≤ 32767
  pinned : s.pinned ⊆ s.held
  pin : ∀ p ∈ s.held, inUse (s.pg p) → p ∈ s.pinned
  unpin : s.bPurgeable = true → ∀ p ∈ s.pinned, inUse (s.pg p)
  init : ∀ p ∈ s.held, (s.pg p).pPage = true
  key : ∀ p ∈ s.held, s.iKey p = (s.pg p).pgno
  inj : ∀ p ∈ s.held, ∀ q ∈ s.held, s.iKey p = s.iKey q → p = q

structure Inv (s : PCache) (l : List ℕ) (lost : ℕ) : Prop extends Listed s l where
  synced : Synced s l
  pages : Pages s l lost

theorem i16_eq {x : ℤ} (h0 : -32768 ≤ x) (h1 : x ≤ 32767) : i16 x = x := by
  unfold i16
  omega

theorem setPg_self (s : PCache) (p : ℕ) (h : PgHdr) : (setPg s p h).pg p = h :=
  Function.update_self ..

theorem setPg_setPg (s : PCache) (p : ℕ) (h h' : PgHdr) :
    setPg (setPg s p h) p h' = setPg s p h' := by
  unfold setPg
  dsimp only
  rw [Function.update_idem]

theorem setPg_of_ne {q : ℕ} (s : PCache) (h : PgHdr) (hq : q ≠ p) : (setPg s p h).pg q = s.pg q :=
  Function.update_of_ne hq _ _

/-- How the number of referenced pages changes with the header of one page. -/
theorem card_refs_update (pg : ℕ → PgHdr) {held : Finset ℕ} (hp : p ∈ held) (h' : PgHdr) :
    (held.filter (fun q => 0 < (Function.update pg p h' q).nRef)).card +
        (if 0 < (pg p).nRef then 1 else 0) =
      (held.filter (fun q => 0 < (pg q).nRef)).card + (if 0 < h'.nRef then 1 else 0) := by
  have hnot : ∀ f : ℕ → PgHdr, p ∉ (held.erase p).filter (fun q => 0 < (f q).nRef) :=
    fun f hc => Finset.notMem_erase p held (Finset.mem_of_mem_filter p hc)
  have hsplit : ∀ f : ℕ → PgHdr, (held.filter (fun q => 0 < (f q).nRef)).card =
      ((held.erase p).filter (fun q => 0 < (f q).nRef)).card + (if 0 < (f p).nRef then 1 else 0) := by
    intro f
    rw [← Finset.insert_erase hp, Finset.filter_insert, Finset.erase_insert_eq_erase,
      Finset.erase_idem]
    split
    · rw [Finset.card_insert_of_notMem (hnot f)]
    · rfl
  have hsame : (held.erase p).filter (fun q => 0 < (Function.update pg p h' q).nRef) =
      (held.erase p).filter (fun q => 0 < (pg q).nRef) := by
    apply Finset.filter_congr
    intro q hq
    rw [Function.update_of_ne (Finset.ne_of_mem_erase hq)]
  rw [hsplit (Function.update pg p h'), hsplit pg, hsame, Function.update_self]
  omega

/-- Only the header of one page, its pin and its place in the list change. -/
theorem Pages.change (h : Pages s l lost) (hp : p ∈ s.held) (hheld : s'.held = s.held)
    (hpg : s'.pg = Function.update s.pg p h') (hkey : s'.iKey = s.iKey)
    (hpur : s'.bPurgeable = s.bPurgeable) (hl : ∀ q, q ≠ p → (q ∈ l' ↔ q ∈ l))
    (hd : h'.dirty = true ↔ p ∈ l') (hinit : h'.pPage = (s.pg p).pPage)
    (hno : h'.pgno = (s.pg p).pgno) (hr : 0 ≤ h'.nRef ∧ h'.nRef ≤ 32767)
    (hn : s'.nRef + (if 0 < (s.pg p).nRef then 1 else 0) =
      s.nRef + (if 0 < h'.nRef then 1 else 0))
    (hpin : ∀ q, q ≠ p → (q ∈ s'.pinned ↔ q ∈ s.pinned)) (hpp : inUse h' → p ∈ s'.pinned)
    (hpu : s.bPurgeable = true → p ∈ s'.pinned → inUse h') : Pages s' l' lost := by
  have hself : s'.pg p = h' := by
    rw [hpg]
    exact Function.update_self ..
  have hother : ∀ q, q ≠ p → s'.pg q = s.pg q := by
    intro q hq
    rw [hpg]
    exact Function.update_of_ne hq _ _
  constructor
  · intro q hq
    rw [hheld] at hq
    by_cases hqp : q = p
    · rw [hqp, hself]
      exact hd
    · rw [hother q hqp, hl q hqp]
      exact h.dirty q hq
  · have hc := card_refs_update s.pg hp h'
    have hrefs := h.refs
    rw [hheld, hpg]
    split_ifs at hc hn <;> omega
  · intro q hq
    rw [hheld] at hq
    by_cases hqp : q = p
    · rw [hqp, hself]
      exact hr
    · rw [hother q hqp]
      exact h.range q hq
  · intro q hq
    rw [hheld]
    by_cases hqp : q = p
    · rwa [hqp]
    · exact h.pinned ((hpin q hqp).mp hq)
  · intro q hq hu
    rw [hheld] at hq
    by_cases hqp : q = p
    · rw [hqp, hself] at hu
      rw [hqp]
      exact hpp hu
    · rw [hother q hqp] at hu
      exact (hpin q hqp).mpr (h.pin q hq hu)
  · intro hb q hq
    rw [hpur] at hb
    by_cases hqp : q = p
    · rw [hqp] at hq
      rw [hqp, hself]
      exact hpu hb hq
    · rw [hother q hqp]
      exact h.unpin hb q ((hpin q hqp).mp hq)
  · intro q hq
    rw [hheld] at hq
    by_cases hqp : q = p
    · rw [hqp, hself, hinit]
      exact h.init p hp
    · rw [hother q hqp]
      exact h.init q hq
  · intro q hq
    rw [hheld] at hq
    rw [hkey]
    by_cases hqp : q = p
    · rw [hqp, hself, hno]
      exact h.key p hp
    · rw [hother q hqp]
      exact h.key q hq
  · rw [hheld, hkey]
    exact h.inj

section Calls

/-- Taking one more reference to a referenced page. -/
theorem Inv.ref (h : Inv s l lost) (hp : p ∈ s.held) (h0 : 0 < (s.pg p).nRef)
    (h1 : (s.pg p).nRef < 32767) : Inv (sqlite3PcacheRef s p) l lost := by
  have hr : i16 ((s.pg p).nRef + 1) = (s.pg p).nRef + 1 := i16_eq (by omega) (by omega)
  unfold sqlite3PcacheRef
  rw [hr]
  refine ⟨h.toListed.congr rfl rfl rfl rfl rfl, h.synced.congr rfl (fun q _ hb _ => ?_), ?_⟩
  · by_cases hqp : q = p
    · rw [hqp, setPg_self]
      exact Or.inl (by dsimp only; omega)
    · rwa [setPg_of_ne s _ hqp]
  · refine h.pages.change hp rfl rfl rfl rfl (fun _ _ => Iff.rfl) (h.pages.dirty p hp) rfl rfl
      ⟨?_, ?_⟩ ?_ (fun _ _ => Iff.rfl) (fun _ => h.pages.pin p hp (Or.inr h0))
      (fun _ _ => Or.inr ?_)
    · dsimp only
      omega
    · dsimp only
      omega
    · dsimp only [setPg]
      rw [if_pos h0, if_pos (by omega)]
    · dsimp only
      omega

/-- The pager sets or clears `PGHDR_NEED_SYNC`. -/
def setNeedSync (s : PCache) (p : ℕ) (b : Bool) : PCache :=
  setPg s p { s.pg p with needSync := b }

theorem Inv.setNeedSync (h : Inv s l lost) (hp : p ∈ s.held) (h0 : 0 < (s.pg p).nRef) (b : Bool) :
    Inv (setNeedSync s p b) l lost := by
  unfold Pcache.setNeedSync
  refine ⟨h.toListed.congr rfl rfl rfl rfl rfl, h.synced.congr rfl (fun q _ hb _ => ?_), ?_⟩
  · by_cases hqp : q = p
    · rw [hqp, setPg_self]
      exact Or.inl (by dsimp only; omega)
    · rwa [setPg_of_ne s _ hqp]
  · exact h.pages.change hp rfl rfl rfl rfl (fun _ _ => Iff.rfl) (h.pages.dirty p hp) rfl rfl
      (h.pages.range p hp) rfl (fun _ _ => Iff.rfl) (h.pages.pin p hp)
      (fun hb hq => h.pages.unpin hb p hq)

theorem pcacheUnpin_list (s : PCache) (p : ℕ) :
    (pcacheUnpin s p).pDirtyNext = s.pDirtyNext ∧ (pcacheUnpin s p).pDirtyPrev = s.pDirtyPrev ∧
      (pcacheUnpin s p).pDirty = s.pDirty ∧ (pcacheUnpin s p).pDirtyTail = s.pDirtyTail ∧
      (pcacheUnpin s p).pSynced = s.pSynced := by
  unfold pcacheUnpin
  dsimp only
  split_ifs <;> exact ⟨rfl, rfl, rfl, rfl, rfl⟩

theorem pcacheUnpin_rest (s : PCache) (p : ℕ) :
    (pcacheUnpin s p).pg = s.pg ∧ (pcacheUnpin s p).held = s.held ∧
      (pcacheUnpin s p).iKey = s.iKey ∧ (pcacheUnpin s p).nRef = s.nRef ∧
      (pcacheUnpin s p).bPurgeable = s.bPurgeable ∧ (pcacheUnpin s p).pCache = s.pCache ∧
      (pcacheUnpin s p).pinned = if s.bPurgeable then s.pinned.erase p else s.pinned := by
  unfold pcacheUnpin
  dsimp only
  split_ifs <;> exact ⟨rfl, rfl, rfl, rfl, rfl, rfl, rfl⟩

end Calls

end Sqlite.Pcache

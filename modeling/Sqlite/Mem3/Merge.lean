import Sqlite.Mem3.Free

/-! The free chunks of the lists are joined with the free chunks before them. -/
namespace Sqlite.Mem3
open Foundation

/-- The free chunks: their sizes, which are 0 where there is none, the lists in their order, and the
master. -/
@[ext] structure Layout where
  size : ℕ → ℕ
  list : Root → List ℕ
  iMaster : ℕ
  szMaster : ℕ

namespace Layout

variable (L : Layout)

def unlink (i : ℕ) : Layout :=
  { L with list := Function.update L.list (rootOf (L.size i)) ((L.list (rootOf (L.size i))).erase i) }

def link (i : ℕ) : Layout :=
  { L with list := Function.update L.list (rootOf (L.size i)) (i :: L.list (rootOf (L.size i))) }

/-- The free chunk before `i`. -/
def before (i : ℕ) : Option ℕ := (List.range i).find? fun p => L.size p ≠ 0 ∧ p + L.size p = i

def grow (p i : ℕ) : Layout :=
  { L with size := Function.update (Function.update L.size i 0) p (L.size p + L.size i) }

/-- The chunk `i` becomes a part of the chunk `p` before it, which goes to the head of its new list. -/
def join (i p : ℕ) : Layout := (((L.unlink i).unlink p).grow p i).link p

def takeMaster (i : ℕ) : Layout :=
  if L.szMaster < L.size i then { L with iMaster := i, szMaster := L.size i } else L

/-- What becomes of the chunks of a list, of which there are at most `n`. A chunk that another one was
joined to is not looked at again. -/
def mergeList : ℕ → List ℕ → Layout → Layout
  | n + 1, i :: rest, L =>
    match L.before i with
    | some p => mergeList n (rest.erase p) ((L.join i p).takeMaster p)
    | none => mergeList n rest (L.takeMaster i)
  | _, _, L => L

def mergeAll (n : ℕ) : List Root → Layout → Layout
  | [], L => L
  | r :: rs, L => mergeAll n rs (mergeList n (L.list r) L)

def linkMaster : Layout :=
  if L.iMaster ≠ 0 then { L.link L.iMaster with iMaster := 0, szMaster := 0 } else L

def unlinkMaster : Layout := if L.szMaster ≠ 0 then L.unlink L.iMaster else L

/-- A round in a pool of `n` blocks: all the lists are merged, and the largest chunk is the master. -/
def round (n : ℕ) : Layout := (mergeAll n roots L.linkMaster).unlinkMaster

def rounds (n : ℕ) : ℕ → Layout → Layout
  | 0, L => L
  | k + 1, L => rounds n k (L.round n)

end Layout

variable {m m' : Mem3Global} {n i j p k x : ℕ} {C U M : Finset ℕ} {sz sz₀ : ℕ → ℕ} {fl : Root → List ℕ}
  {r : Root} {vis rest : List ℕ} {todo : List Root}

/-- The layout of the free chunks of `C`. -/
def laid (m : Mem3Global) (C U : Finset ℕ) (sz : ℕ → ℕ) (fl : Root → List ℕ) : Layout :=
  ⟨fun i => if i ∈ C ∧ i ∉ U then sz i else 0, fl, m.iMaster, m.szMaster⟩

theorem laid_size (hC : i ∈ C) (hU : i ∉ U) : (laid m C U sz fl).size i = sz i := if_pos ⟨hC, hU⟩

theorem laid_takeMaster (hC : i ∈ C) (hU : i ∉ U) :
    laid (takeMaster m i (sz i)) C U sz fl = (laid m C U sz fl).takeMaster i := by
  unfold Mem3.takeMaster Layout.takeMaster
  rw [laid_size hC hU]
  exact apply_ite (laid · C U sz fl) _ _ _

theorem Layout.before_some {L : Layout} (h : L.before i = some p) : L.size p ≠ 0 ∧ p + L.size p = i := by
  simpa using List.find?_some h

theorem Inv.laid_before (h : Inv m C U M sz fl) (hp : p ∈ C) (hU : p ∉ U)
    (hpi : p + sz p = i) : (laid m C U sz fl).before i = some p := by
  have hb := h.core.bound hp
  have hsize : (laid m C U sz fl).size p = sz p := laid_size hp hU
  cases hf : (laid m C U sz fl).before i with
  | none =>
    refine absurd ?_ (List.find?_eq_none.mp hf p (List.mem_range.mpr (by omega)))
    rw [hsize]
    exact decide_eq_true ⟨by omega, hpi⟩
  | some q =>
    obtain ⟨h0, hq⟩ := Layout.before_some hf
    have hqC : q ∈ C ∧ q ∉ U := by
      by_contra hc
      exact h0 (if_neg hc)
    rw [laid_size hqC.1 hqC.2] at hq
    rw [h.core.chunks.eq_of_end hqC.1 hp (hq.trans hpi.symm)]

/-- Behind a chunk in use, and at the beginning of the pool, there is no free chunk before. -/
theorem Inv.laid_starts (h : Inv m C U M sz fl) (hs : i = 1 ∨ ∃ l ∈ U, l + sz l = i) :
    (laid m C U sz fl).before i = none := by
  refine List.find?_eq_none.mpr fun q _ hq => ?_
  obtain ⟨h0, hq⟩ := of_decide_eq_true hq
  have hqC : q ∈ C ∧ q ∉ U := by
    by_contra hc
    exact h0 (if_neg hc)
  rw [laid_size hqC.1 hqC.2] at hq
  rcases hs with rfl | ⟨l, hl, hli⟩
  · have := h.core.pos hqC.1
    have := h.core.bound hqC.1
    omega
  · exact hqC.2 (h.core.chunks.eq_of_end (h.core.sub hl) hqC.1 (hli.trans hq.symm) ▸ hl)

theorem Layout.join_list (L : Layout) (i p : ℕ) : (L.join i p).list =
    Function.update ((L.unlink i).unlink p).list (rootOf (L.size p + L.size i))
      (p :: ((L.unlink i).unlink p).list (rootOf (L.size p + L.size i))) := by
  have hself : (((L.unlink i).unlink p).grow p i).size p = L.size p + L.size i :=
    Function.update_self ..
  unfold Layout.join Layout.link
  rw [hself]
  rfl

theorem laid_unlink (hC : i ∈ C) (hU : i ∉ U) : ((laid m C U sz fl).unlink i).list =
    Function.update fl (rootOf (sz i)) ((fl (rootOf (sz i))).erase i) := by
  unfold Layout.unlink
  rw [laid_size hC hU]
  rfl

theorem laid_link (hC : i ∈ C) (hU : i ∉ U) : ((laid m C U sz fl).link i).list =
    Function.update fl (rootOf (sz i)) (i :: fl (rootOf (sz i))) := by
  unfold Layout.link
  rw [laid_size hC hU]
  rfl

theorem laid_join (hC : i ∈ C) (hU : i ∉ U) (hp : p ∈ C) (hpU : p ∉ U) (hne : p ≠ i)
    (hi : m'.iMaster = m.iMaster) (hs : m'.szMaster = m.szMaster) :
    laid m' (C.erase i) U (Function.update sz p (sz p + sz i)) ((laid m C U sz fl).join i p).list =
      (laid m C U sz fl).join i p := by
  refine Layout.ext (funext fun j => ?_) rfl hi hs
  show (if j ∈ C.erase i ∧ j ∉ U then Function.update sz p (sz p + sz i) j else 0) =
    Function.update (Function.update (laid m C U sz fl).size i 0) p
      ((laid m C U sz fl).size p + (laid m C U sz fl).size i) j
  rw [laid_size hC hU, laid_size hp hpU]
  by_cases hjp : j = p
  · rw [hjp, Function.update_self, Function.update_self, if_pos ⟨Finset.mem_erase.mpr ⟨hne, hp⟩, hpU⟩]
  · rw [Function.update_of_ne hjp, Function.update_of_ne hjp]
    by_cases hji : j = i
    · rw [hji, Function.update_self, if_neg fun hc => Finset.notMem_erase i C hc.1]
    · rw [Function.update_of_ne hji]
      exact if_congr (and_congr_left' (Finset.mem_erase.trans (and_iff_right hji))) rfl rfl

theorem Same.congr {sz' : ℕ → ℕ} (h : Same U sz' m m') (hs : ∀ j ∈ U, sz' j = sz j) : Same U sz m m' :=
  ⟨h.toRest.mono (Finset.Subset.refl U) fun j hj => (hs j hj).symm, h.iMaster, h.szMaster⟩

theorem erase_middle {a b : List ℕ} (h : (a ++ i :: b).Nodup) : (a ++ i :: b).erase i = a ++ b := by
  have hi : i ∉ a := fun hc => (List.nodup_append.mp h).2.2 i hc i List.mem_cons_self rfl
  rw [List.erase_append_right _ hi, List.erase_cons_head]

theorem erase_suffix {a b : List ℕ} (h : (a ++ b).Nodup) (p : ℕ) :
    ∃ a', (a ++ b).erase p = a' ++ b.erase p := by
  by_cases hp : p ∈ a
  · have hb : p ∉ b := fun hc => (List.nodup_append.mp h).2.2 p hp p hc rfl
    rw [List.erase_append_left _ hp, List.erase_of_not_mem hb]
    exact ⟨a.erase p, rfl⟩
  · rw [List.erase_append_right _ hp]
    exact ⟨a, rfl⟩

/-- A chunk of a list is joined with the free chunk before it; `rest` is what the loop goes on with. -/
theorem Inv.join (h : Inv m C U ∅ sz fl) (hr : fl r = vis ++ i :: rest) (hp : p ∈ C) (hpU : p ∉ U)
    (hpi : p + sz p = i) :
    ∃ m₂ m₃ vis' fl', memsys3Unlink (memsys3UnlinkFromList m i r) p = some m₂ ∧
      memsys3Link (setFree m₂ p (sz p + sz i) (size4x m₂ (p - 1) &&& 2)) p = some m₃ ∧
      Inv m₃ (C.erase i) U ∅ (Function.update sz p (sz p + sz i)) fl' ∧
      fl' r = vis' ++ rest.erase p ∧ Same U sz m m₃ ∧
      laid m₃ (C.erase i) U (Function.update sz p (sz p + sz i)) fl' = (laid m C U sz fl).join i p ∧
      toPtr (if p = next m i then next (memsys3UnlinkFromList m i r) p else next m i) =
        (rest.erase p).head? := by
  have hi : i ∈ fl r := by rw [hr]; simp
  obtain ⟨⟨hC, hU, -⟩, hroot⟩ := (h.lists.mem r i).mp hi
  have hb := h.core.bound hp
  have hne : p ≠ i := by omega
  have hmid : (vis ++ i :: rest).Nodup := hr ▸ h.lists.nodup r
  have hnd := h.lists.nodup r
  obtain ⟨i1, s1⟩ := h.unlinkFromList hi
  have hlinks := h.lists.links r
  rw [hr] at i1 hnd hlinks
  rw [erase_middle hnd] at i1
  have hnd1 := i1.lists.nodup r
  rw [Function.update_self] at hnd1
  have hnext : toPtr (next m i) = rest.head? := hlinks.next_of_append
  generalize memsys3UnlinkFromList m i r = m₁ at *
  have hpM : p ∉ insert i (∅ : Finset ℕ) := by
    rw [Finset.mem_insert]
    exact not_or.mpr ⟨hne, Finset.notMem_empty p⟩
  obtain ⟨m₂, hm₂, s2, i2⟩ := i1.unlink hp hpU hpM
  have hiM : i ∈ insert p (insert i (∅ : Finset ℕ)) :=
    Finset.mem_insert_of_mem (Finset.mem_insert_self _ _)
  obtain ⟨s3, i3⟩ := i2.merge (Finset.mem_insert_self _ _) hiM hpi rfl
  have herase : (insert p (insert i (∅ : Finset ℕ))).erase i = {p} := by
    rw [Finset.erase_insert_of_ne hne, Finset.erase_insert (Finset.notMem_empty i)]
    rfl
  rw [herase] at i3
  obtain ⟨m₃, hm₃, s4, i4⟩ := i3.link (Finset.mem_singleton_self p)
  rw [Finset.erase_singleton] at i4
  have hcut : ∃ vis', Function.update (Function.update fl r (vis ++ rest)) (rootOf (sz p))
      ((Function.update fl r (vis ++ rest) (rootOf (sz p))).erase p) r = vis' ++ rest.erase p := by
    by_cases hpr : rootOf (sz p) = r
    · rw [hpr, Function.update_self, Function.update_self]
      exact erase_suffix hnd1 p
    · have hp' : p ∉ rest := by
        intro hc
        have hmem : p ∈ fl r := by rw [hr]; simp [hc]
        exact hpr ((h.lists.mem r p).mp hmem).2
      rw [Function.update_of_ne (Ne.symm hpr), Function.update_self, List.erase_of_not_mem hp']
      exact ⟨vis, rfl⟩
  obtain ⟨vis', hvis⟩ := hcut
  have hlaid : (((laid m C U sz fl).unlink i).unlink p).list =
      Function.update (Function.update fl r (vis ++ rest)) (rootOf (sz p))
        ((Function.update fl r (vis ++ rest) (rootOf (sz p))).erase p) := by
    show Function.update ((laid m C U sz fl).unlink i).list (rootOf ((laid m C U sz fl).size p))
      ((((laid m C U sz fl).unlink i).list (rootOf ((laid m C U sz fl).size p))).erase p) = _
    rw [laid_unlink hC hU, laid_size hp hpU, hroot, hr, erase_middle hmid]
  generalize Function.update (Function.update fl r (vis ++ rest)) (rootOf (sz p))
      ((Function.update fl r (vis ++ rest) (rootOf (sz p))).erase p) = fl₂ at hvis i2 i3 i4 hlaid
  have hpush : ∃ vis'', Function.update fl₂ (rootOf (Function.update sz p (sz p + sz i) p))
      (p :: fl₂ (rootOf (Function.update sz p (sz p + sz i) p))) r = vis'' ++ rest.erase p := by
    by_cases hpr : rootOf (Function.update sz p (sz p + sz i) p) = r
    · rw [hpr, Function.update_self, hvis]
      exact ⟨p :: vis', rfl⟩
    · rw [Function.update_of_ne (Ne.symm hpr)]
      exact ⟨vis', hvis⟩
  obtain ⟨vis'', hvis''⟩ := hpush
  have hs : Same U sz m m₃ := ((s1.trans s2).trans s3).trans (s4.congr (size_kept hpU _))
  have hlist : ((laid m C U sz fl).join i p).list =
      Function.update fl₂ (rootOf (Function.update sz p (sz p + sz i) p))
        (p :: fl₂ (rootOf (Function.update sz p (sz p + sz i) p))) := by
    rw [Layout.join_list, hlaid, laid_size hC hU, laid_size hp hpU, Function.update_self]
  refine ⟨m₂, m₃, vis'', _, hm₂, hm₃, i4, hvis'', hs, ?_, ?_⟩
  · rw [← hlist]
    exact laid_join hC hU hp hpU hne hs.iMaster hs.szMaster
  · split
    · rename_i hpn
      obtain ⟨t, rfl⟩ : ∃ t, rest = p :: t := by
        rw [← hpn, toPtr_of_ne (h.pos hp)] at hnext
        cases rest with
        | nil => cases hnext
        | cons y t => exact ⟨t, by rw [Option.some.inj hnext]⟩
      rw [List.erase_cons_head]
      have hlinks1 := i1.lists.links r
      rw [Function.update_self] at hlinks1
      exact hlinks1.next_of_append
    · rename_i hpn
      rw [hnext]
      cases rest with
      | nil => rfl
      | cons y t =>
        have hy : ¬ y = p := by
          rintro rfl
          exact hpn (toPtr_eq_some.mp hnext).1.symm
        rw [List.erase_cons_tail (by simpa using hy)]
        rfl

/-- The candidate for the master, which is linked like the other free chunks. -/
structure Candidate (m : Mem3Global) (C U : Finset ℕ) (sz : ℕ → ℕ) : Prop where
  none : m.iMaster = 0 → m.szMaster = 0
  some : m.iMaster ≠ 0 → m.iMaster ∈ C ∧ m.iMaster ∉ U ∧ m.szMaster = sz m.iMaster

/-- The chunk before `j` is in use, or there is none. -/
def Starts (U : Finset ℕ) (sz : ℕ → ℕ) (j : ℕ) : Prop := j = 1 ∨ ∃ l ∈ U, l + sz l = j

/-- What a round does to a free chunk that it comes to, of size `s₀` at its beginning: when it still is
a chunk with a free one before it, it has grown. -/
structure Seen (m : Mem3Global) (U : Finset ℕ) (sz : ℕ → ℕ) (s₀ j : ℕ) : Prop where
  le : sz j ≤ m.szMaster
  grown : Starts U sz j ∨ s₀ < sz j

/-- The state of a round: `rest` is what is left of the list that is merged, and `todo` are the lists
after it; `sz₀` are the sizes at the beginning. -/
structure Merging (sz₀ : ℕ → ℕ) (rest : List ℕ) (todo : List Root) (m : Mem3Global) (C U : Finset ℕ)
    (sz : ℕ → ℕ) (fl : Root → List ℕ) : Prop where
  inv : Inv m C U ∅ sz fl
  candidate : Candidate m C U sz
  grow : ∀ j ∈ C, sz₀ j ≤ sz j
  seen : ∀ j ∈ C, j ∉ U → j ∈ rest ∨ rootOf (sz j) ∈ todo ∨ Seen m U sz (sz₀ j) j

/-! One step of the loop. -/

theorem takeMaster_le (m : Mem3Global) (i s : ℕ) :
    s ≤ (takeMaster m i s).szMaster ∧ m.szMaster ≤ (takeMaster m i s).szMaster := by
  unfold takeMaster
  split
  · rename_i h
    exact ⟨le_rfl, h.le⟩
  · rename_i h
    exact ⟨Nat.not_lt.mp h, le_rfl⟩

theorem Inv.takeMaster (h : Inv m C U M sz fl) (i s : ℕ) : Inv (takeMaster m i s) C U M sz fl := by
  unfold Mem3.takeMaster
  split
  · exact h.withMaster _ _ _ _
  · exact h

theorem takeMaster_rest (m : Mem3Global) (i s : ℕ) : Rest U sz m (takeMaster m i s) := by
  unfold takeMaster
  split
  · exact ⟨rfl, rfl, Keeps.refl _ _ _ _⟩
  · exact Rest.refl U sz m

theorem Candidate.take (hC : i ∈ C) (hU : i ∉ U) (h0 : i ≠ 0)
    (h : m.szMaster < sz i ∨ Candidate m C U sz) : Candidate (takeMaster m i (sz i)) C U sz := by
  unfold takeMaster
  split
  · exact ⟨fun hc => absurd hc h0, fun _ => ⟨hC, hU, rfl⟩⟩
  · rename_i hlt
    exact h.resolve_left hlt

theorem Seen.mono {s₀ j : ℕ} (h : Seen m U sz s₀ j) (hle : m.szMaster ≤ m'.szMaster) {sz' : ℕ → ℕ}
    (hU : ∀ l ∈ U, sz' l = sz l) (hj : sz' j = sz j) : Seen m' U sz' s₀ j := by
  constructor
  · rw [hj]
    exact h.le.trans hle
  · rw [hj]
    refine h.grown.imp_left fun hs => hs.imp_right ?_
    rintro ⟨l, hl, hlj⟩
    exact ⟨l, hl, by rw [hU l hl, hlj]⟩

/-- A chunk with no free one before it stays. -/
theorem Merging.visit (h : Merging sz₀ (i :: rest) todo m C U sz fl) (hC : i ∈ C) (hU : i ∉ U)
    (hs : Starts U sz i) : Merging sz₀ rest todo (takeMaster m i (sz i)) C U sz fl := by
  obtain ⟨h1, h2⟩ := takeMaster_le m i (sz i)
  refine ⟨h.inv.takeMaster i _, Candidate.take hC hU (h.inv.pos hC) (.inr h.candidate), h.grow,
    fun j hj hjU => ?_⟩
  by_cases hji : j = i
  · rw [hji]
    exact .inr (.inr ⟨h1, .inl hs⟩)
  · refine (h.seen j hj hjU).imp ?_ (Or.imp_right ?_)
    · exact fun hc => (List.mem_cons.mp hc).resolve_left hji
    · exact fun hc => hc.mono h2 (fun _ _ => rfl) rfl

/-- A chunk is joined with the one before it. -/
theorem Merging.joined {m₃ : Mem3Global} {fl' : Root → List ℕ}
    (h : Merging sz₀ (i :: rest) todo m C U sz fl) (hi : i ∈ C) (hp : p ∈ C) (hpU : p ∉ U)
    (hpi : p + sz p = i) (h₃ : Inv m₃ (C.erase i) U ∅ (Function.update sz p (sz p + sz i)) fl')
    (hs : Same U sz m m₃) :
    Merging sz₀ (rest.erase p) todo (takeMaster m₃ p (sz p + sz i)) (C.erase i) U
      (Function.update sz p (sz p + sz i)) fl' := by
  have hb := h.inv.core.bound hi
  have hb' := h.inv.core.bound hp
  have hpi' : p ∈ C.erase i := Finset.mem_erase.mpr ⟨by omega, hp⟩
  have hself : Function.update sz p (sz p + sz i) p = sz p + sz i := Function.update_self ..
  obtain ⟨h1, h2⟩ := takeMaster_le m₃ p (sz p + sz i)
  rw [hs.szMaster] at h2
  constructor
  · exact h₃.takeMaster p _
  · have hold : m₃.szMaster < Function.update sz p (sz p + sz i) p ∨
        Candidate m₃ (C.erase i) U (Function.update sz p (sz p + sz i)) := by
      rw [hself, hs.szMaster]
      by_cases him : m.iMaster = i
      · obtain ⟨-, -, hsm⟩ := h.candidate.some (him.trans_ne (h.inv.pos hi))
        rw [hsm, him]
        exact .inl (by omega)
      by_cases hpm : m.iMaster = p
      · obtain ⟨-, -, hsm⟩ := h.candidate.some (hpm.trans_ne (h.inv.pos hp))
        rw [hsm, hpm]
        exact .inl (by omega)
      refine .inr ⟨?_, ?_⟩
      · rw [hs.iMaster, hs.szMaster]
        exact h.candidate.none
      · rw [hs.iMaster, hs.szMaster, Function.update_of_ne hpm]
        intro h0
        obtain ⟨g1, g2, g3⟩ := h.candidate.some h0
        exact ⟨Finset.mem_erase.mpr ⟨him, g1⟩, g2, g3⟩
    have hcand := Candidate.take hpi' hpU (h.inv.pos hp) hold
    rwa [hself] at hcand
  · intro j hj
    by_cases hjp : j = p
    · rw [hjp, hself]
      exact (h.grow p hp).trans (Nat.le_add_right _ _)
    · rw [Function.update_of_ne hjp]
      exact h.grow j (Finset.mem_of_mem_erase hj)
  · intro j hj hjU
    obtain ⟨hji, hjC⟩ := Finset.mem_erase.mp hj
    by_cases hjp : j = p
    · rw [hjp]
      have hg := h.grow p hp
      exact .inr (.inr ⟨by rw [hself]; exact h1, .inr (by rw [hself]; omega)⟩)
    · rw [Function.update_of_ne hjp]
      refine (h.seen j hjC hjU).imp ?_ (Or.imp_right ?_)
      · intro hc
        exact (List.mem_erase_of_ne hjp).mpr ((List.mem_cons.mp hc).resolve_left hji)
      · exact fun hc => hc.mono h2 (size_kept hpU _) (Function.update_of_ne hjp _ _)

theorem mergeLoop_of_ne (h0 : i ≠ 0) : mergeLoop r (n + 1) i m =
    if size4x m (i - 1) &&& 1 ≠ 0 then none
    else if size4x m (i - 1) &&& 2 = 0 then
      if i ≤ prevSize (memsys3UnlinkFromList m i r) (i - 1) then none
      else
        match memsys3Unlink (memsys3UnlinkFromList m i r)
          (i - prevSize (memsys3UnlinkFromList m i r) (i - 1)) with
        | none => none
        | some m₂ =>
          match memsys3Link (setFree m₂ (i - prevSize (memsys3UnlinkFromList m i r) (i - 1))
              (i + size4x m (i - 1) / 4 - (i - prevSize (memsys3UnlinkFromList m i r) (i - 1)))
              (size4x m₂ (i - prevSize (memsys3UnlinkFromList m i r) (i - 1) - 1) &&& 2))
            (i - prevSize (memsys3UnlinkFromList m i r) (i - 1)) with
          | none => none
          | some m₃ =>
            mergeLoop r n
              (if i - prevSize (memsys3UnlinkFromList m i r) (i - 1) = next m i then
                next (memsys3UnlinkFromList m i r) (i - prevSize (memsys3UnlinkFromList m i r) (i - 1))
              else next m i)
              (takeMaster m₃ (i - prevSize (memsys3UnlinkFromList m i r) (i - 1))
                (i + size4x m (i - 1) / 4 - (i - prevSize (memsys3UnlinkFromList m i r) (i - 1))))
    else mergeLoop r n (next m i) (takeMaster m i (size4x m (i - 1) / 4)) := by
  cases i with
  | zero => exact absurd rfl h0
  | succ i => rfl

theorem Merging.loop (n : ℕ) (h : Merging sz₀ rest todo m C U sz fl) (hr : ∃ vis, fl r = vis ++ rest)
    (hn : rest.length ≤ n) (hi : toPtr i = rest.head?) :
    ∃ m' C' sz' fl', mergeLoop r n i m = some m' ∧ Merging sz₀ [] todo m' C' U sz' fl' ∧
      Kept U sz sz' m m' ∧ C' ⊆ C ∧
      laid m' C' U sz' fl' = Layout.mergeList n rest (laid m C U sz fl) := by
  induction n generalizing m C sz fl rest i with
  | zero =>
    obtain rfl := List.eq_nil_of_length_eq_zero (Nat.le_zero.mp hn)
    obtain rfl := toPtr_eq_none.mp hi
    exact ⟨m, C, sz, fl, by rw [mergeLoop], h, Kept.refl U sz m, Finset.Subset.refl C, rfl⟩
  | succ n ih =>
    cases rest with
    | nil =>
      obtain rfl := toPtr_eq_none.mp hi
      exact ⟨m, C, sz, fl, by rw [mergeLoop], h, Kept.refl U sz m, Finset.Subset.refl C, rfl⟩
    | cons y rest =>
      obtain ⟨rfl, h0⟩ := toPtr_eq_some.mp hi
      obtain ⟨vis, hvis⟩ := hr
      have hmem : i ∈ fl r := by rw [hvis]; simp
      obtain ⟨⟨hC, hU, -⟩, -⟩ := (h.inv.lists.mem r i).mp hmem
      have hfree : ¬ size4x m (i - 1) &&& 1 ≠ 0 :=
        not_not.mpr (and_one_eq_zero.mpr fun hc => hU ((h.inv.core.used i hC).mp hc))
      have hsize := h.inv.core.size i hC
      rw [mergeLoop_of_ne h0, if_neg hfree, hsize]
      by_cases hb : size4x m (i - 1) &&& 2 = 0
      · rw [if_pos hb]
        obtain ⟨p, hp, hpU, hpi, -⟩ := h.inv.prev_free hC hb
        have hbp := h.inv.core.bound hp
        have hpos := h.inv.core.pos hp
        have htail := (h.inv.unlinkFromList hmem).1.core.tail p hp hpU
        rw [hpi] at htail
        obtain ⟨m₂, m₃, vis', fl', hm₂, hm₃, i3, hvis', s3, hlaid, hnext⟩ := h.inv.join hvis hp hpU hpi
        have hip : i - sz p = p := by omega
        have hsum : i + sz i - p = sz p + sz i := by omega
        have hlt : ¬ i ≤ sz p := by omega
        rw [htail, if_neg hlt, hip, hsum, hm₂]
        dsimp only
        rw [hm₃]
        dsimp only
        have hlen : (rest.erase p).length ≤ n :=
          List.length_erase_le.trans (Nat.le_of_succ_le_succ hn)
        obtain ⟨m', C', sz', fl'', hgo, hm', hk, hsub, hl⟩ :=
          ih (h.joined hC hp hpU hpi i3 s3) ⟨vis', hvis'⟩ hlen hnext
        refine ⟨m', C', sz', fl'', hgo, hm', ?_, hsub.trans (Finset.erase_subset _ _), ?_⟩
        swap
        · have htake : laid (takeMaster m₃ p (sz p + sz i)) (C.erase i) U
              (Function.update sz p (sz p + sz i)) fl' = ((laid m C U sz fl).join i p).takeMaster p := by
            rw [← hlaid, ← laid_takeMaster (Finset.mem_erase.mpr ⟨by omega, hp⟩) hpU,
              Function.update_self]
          rw [hl, htake, Layout.mergeList, h.inv.laid_before hp hpU hpi]
        have hk3 : Kept U sz (Function.update sz p (sz p + sz i)) m (takeMaster m₃ p (sz p + sz i)) :=
          ⟨s3.toRest.trans (takeMaster_rest m₃ p _), size_kept hpU _⟩
        exact hk3.trans hk
      · rw [if_neg hb]
        have hs : Starts U sz i :=
          (h.inv.core.prev i (.inl hC)).mp (not_not.mp (mt and_two_eq_zero.mpr hb))
        have hlinks := h.inv.lists.links r
        rw [hvis] at hlinks
        obtain ⟨m', C', sz', fl', hgo, hm', hk, hsub, hl⟩ := ih (h.visit hC hU hs)
          ⟨vis ++ [i], by rw [hvis, List.append_assoc]; rfl⟩ (Nat.le_of_succ_le_succ hn)
          hlinks.next_of_append
        have hk1 : Kept U sz sz m (takeMaster m i (sz i)) := ⟨takeMaster_rest m i _, fun _ _ => rfl⟩
        refine ⟨m', C', sz', fl', hgo, hm', hk1.trans hk, hsub, ?_⟩
        rw [hl, laid_takeMaster hC hU, Layout.mergeList, h.inv.laid_starts hs]

theorem Inv.list_le (h : Inv m C U M sz fl) (r : Root) : (fl r).length ≤ m.nPool := by
  apply length_le_of_nodup (h.lists.nodup r)
  intro i hi
  have hb := h.core.bound ((h.lists.mem r i).mp hi).1.1
  omega

/-- The lists are merged one after another. -/
theorem Merging.all (rs : List Root) (h : Merging sz₀ [] rs m C U sz fl) :
    ∃ m' C' sz' fl', mergeAll rs m = some m' ∧ Merging sz₀ [] [] m' C' U sz' fl' ∧
      Kept U sz sz' m m' ∧ C' ⊆ C ∧ laid m' C' U sz' fl' = Layout.mergeAll m.nPool rs (laid m C U sz fl) := by
  induction rs generalizing m C sz fl with
  | nil => exact ⟨m, C, sz, fl, rfl, h, Kept.refl U sz m, Finset.Subset.refl C, rfl⟩
  | cons r rs ih =>
    have hstart : Merging sz₀ (fl r) rs m C U sz fl := by
      refine ⟨h.inv, h.candidate, h.grow, fun j hj hjU => ?_⟩
      rcases h.seen j hj hjU with hc | hc | hc
      · exact absurd hc List.not_mem_nil
      · rcases List.mem_cons.mp hc with hc | hc
        · have hmem := h.inv.mem_list hj hjU (Finset.notMem_empty j)
          rw [hc] at hmem
          exact .inl hmem
        · exact .inr (.inl hc)
      · exact .inr (.inr hc)
    obtain ⟨m1, C1, sz1, fl1, hm1, h1, k1, c1, l1⟩ :=
      hstart.loop m.nPool ⟨[], rfl⟩ (h.inv.list_le r) (h.inv.lists.head r)
    obtain ⟨m', C', sz', fl', hm', h', k', c', l'⟩ := ih h1
    refine ⟨m', C', sz', fl', ?_, h', k1.trans k', c'.trans c1, ?_⟩
    · rw [mergeAll, memsys3Merge, hm1]
      exact hm'
    · rw [l', l1, k1.nPool]
      rfl

theorem rootOf_mem {s : ℕ} (hs : 2 ≤ s) : rootOf s ∈ roots := by
  unfold rootOf roots
  split
  · rename_i hle
    have hlt : s - 2 < MX_SMALL - 1 := by
      unfold MX_SMALL at hle ⊢
      omega
    exact List.mem_append_right _ (List.mem_map_of_mem (List.mem_range.mpr hlt))
  · have hlt : s % N_HASH < N_HASH := Nat.mod_lt _ (by decide)
    exact List.mem_append_left _ (List.mem_map_of_mem (List.mem_range.mpr hlt))

end Sqlite.Mem3

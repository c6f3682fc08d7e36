import Sqlite.Sorter.Iter

/-! The merge of the runs: the tree of comparisons over the iterators. -/
namespace Sqlite.Sorter

open Foundation Record

section

variable {U : Type} {db : Db U} {K : Bytes → Prop} {le : Bytes → Bytes → Bool} {s : VdbeSorter U}
  {runs : ℕ → List Bytes} {k i w n : ℕ} {P : ℕ → ℕ → Prop}

def heads (runs : ℕ → List Bytes) (j : ℕ) : Option Bytes := (runs j).head?

def treeOf (aTree : List ℕ) (i : ℕ) : ℕ := aTree.getD i 0

/-- The iterators of the sorter are on the runs; the tree has an entry for each. -/
structure VdbeSorter.On (s : VdbeSorter U) (k : ℕ) (runs : ℕ → List Bytes) : Prop where
  nTree : s.nTree = 2 ^ k
  pos : 0 < k
  aTree : s.aTree.length = 2 ^ k
  aIter : s.aIter.length = 2 ^ k
  holds : ∀ j < 2 ^ k, ∃ p, s.aIter[j]? = some p ∧ p.Holds (s.pTemp1.getD []) (runs j)
  outside : ∀ j, 2 ^ k ≤ j → runs j = []

theorem VdbeSorterIter.Holds.pFile {f : Bytes} {p : VdbeSorterIter} {run : List Bytes} (h : p.Holds f run) :
    p.pFile = run.head?.isSome := by
  obtain _ | ⟨r, run⟩ := run
  · rw [h]
    rfl
  · exact h.1

theorem VdbeSorterIter.Holds.key {f : Bytes} {p : VdbeSorterIter} {run : List Bytes} {r : Bytes} (h : p.Holds f run)
    (hr : run.head? = some r) : p.key = some r := by
  obtain _ | ⟨x, run⟩ := run
  · cases hr
  · obtain rfl := Option.some.inj hr
    exact h.2.2.1

theorem treeOf_set {aTree : List ℕ} {i v : ℕ} (hi : i < aTree.length) :
    treeOf (aTree.set i v) = Function.update (treeOf aTree) i v := by
  funext j
  unfold treeOf
  obtain rfl | hne := eq_or_ne j i
  · rw [Function.update_self, List.getD_eq_getElem?_getD, List.getElem?_set_self hi, Option.getD_some]
  · rw [Function.update_of_ne hne, List.getD_eq_getElem?_getD, List.getD_eq_getElem?_getD,
      List.getElem?_set_ne hne.symm]

/-- The players at a node. -/
theorem players_eq (hs : s.On k runs) (hlt : i < 2 ^ k) :
    (if s.nTree / 2 ≤ i then some ((i - s.nTree / 2) * 2, (i - s.nTree / 2) * 2 + 1)
      else do some (← s.aTree[i * 2]?, ← s.aTree[i * 2 + 1]?)) =
    some (winner (2 ^ k) (treeOf s.aTree) (2 * i), winner (2 ^ k) (treeOf s.aTree) (2 * i + 1)) := by
  obtain ⟨j, rfl⟩ := Nat.exists_eq_succ_of_ne_zero hs.pos.ne'
  have hpow : 2 ^ j.succ = 2 ^ j * 2 := pow_succ 2 j
  have hlen := hs.aTree
  rw [hs.nTree]
  unfold winner
  by_cases hhalf : 2 ^ j.succ / 2 ≤ i
  · rw [if_pos hhalf, if_pos (by omega), if_pos (by omega)]
    congr 2 <;> omega
  · rw [if_neg hhalf, if_neg (by omega), if_neg (by omega), Nat.mul_comm i 2,
      List.getElem?_eq_getElem (by omega), List.getElem?_eq_getElem (by omega)]
    simp only [treeOf, Option.bind_eq_bind, Option.bind_some]
    rw [List.getD_eq_getElem _ _ (by omega), List.getD_eq_getElem _ _ (by omega)]

/-- The comparison at a node sets its winner. -/
theorem doCompare_spec (h : db.pKeyInfo.Compares K le) (hs : s.On k runs) (hK : ∀ j, ∀ y ∈ runs j, K y)
    (hlt : i < 2 ^ k) (h₁ : winner (2 ^ k) (treeOf s.aTree) (2 * i) < 2 ^ k)
    (h₂ : winner (2 ^ k) (treeOf s.aTree) (2 * i + 1) < 2 ^ k) :
    ∃ pUnpacked aTree, vdbeSorterDoCompare db s i = some { s with pUnpacked, aTree } ∧ aTree.length = 2 ^ k ∧
      treeOf aTree = recompute le (heads runs) (2 ^ k) (treeOf s.aTree) i := by
  have hplay := players_eq hs hlt
  unfold recompute
  generalize winner (2 ^ k) (treeOf s.aTree) (2 * i) = i1 at *
  generalize winner (2 ^ k) (treeOf s.aTree) (2 * i + 1) = i2 at *
  obtain ⟨p1, hp1, hh1⟩ := hs.holds i1 h₁
  obtain ⟨p2, hp2, hh2⟩ := hs.holds i2 h₂
  have hset : ∀ v, (s.aTree.set i v).length = 2 ^ k ∧
      treeOf (s.aTree.set i v) = Function.update (treeOf s.aTree) i v :=
    fun v => ⟨by rw [List.length_set, hs.aTree], treeOf_set (by rw [hs.aTree]; exact hlt)⟩
  have hstep : vdbeSorterDoCompare db s i = (if !p1.pFile then some { s with aTree := s.aTree.set i i2 }
      else if !p2.pFile then some { s with aTree := s.aTree.set i i1 }
      else do
        let r ← vdbeSorterCompare db s.pUnpacked (← p1.key) (some (← p2.key))
        some { s with pUnpacked := some r.2, aTree := s.aTree.set i (if r.1 ≤ 0 then i1 else i2) }) := by
    unfold vdbeSorterDoCompare
    rw [hplay]
    simp only [Option.bind_eq_bind, Option.bind_some, hp1, hp2]
  rw [hstep, hh1.pFile, hh2.pFile]
  cases hr1 : (runs i1).head? with
  | none =>
    rw [play_none hr1]
    exact ⟨s.pUnpacked, _, rfl, hset i2⟩
  | some r1 =>
    cases hr2 : (runs i2).head? with
    | none =>
      rw [play_some hr1 hr2]
      exact ⟨s.pUnpacked, _, rfl, hset i1⟩
    | some r2 =>
      obtain ⟨res, u, hc, -, hle⟩ := compare_spec s.pUnpacked h (hK i1 r1 (List.mem_of_mem_head? hr1))
        (hK i2 r2 (List.mem_of_mem_head? hr2)) (.inl rfl)
      refine ⟨some u, s.aTree.set i (if res ≤ 0 then i1 else i2), ?_, (hset _).1, ?_⟩
      · simp only [Option.isSome_some, Bool.not_true, Bool.false_eq_true, if_false, hh1.key hr1, hh2.key hr2, hc,
          Option.bind_eq_bind, Option.bind_some]
      · rw [(hset _).2, play_le hr1 hr2]
        simp only [hle]

theorem VdbeSorter.On.congr (hs : s.On k runs) {aTree : List ℕ} (hl : aTree.length = 2 ^ k) (pUnpacked : Option U) :
    VdbeSorter.On { s with aTree, pUnpacked } k runs := ⟨hs.nTree, hs.pos, hl, hs.aIter, hs.holds, hs.outside⟩

theorem winner_lt {aTree : ℕ → ℕ} {head : ℕ → Option Bytes} {N m c : ℕ} (hs : Settled le head N aTree P)
    (hn : Node N m c) (hP : P m c) : winner N aTree c < N := by
  have hb := (champion_bounds le head hn.1).2
  have hhi := hn.2
  rw [hs m c hn hP]
  omega

/-- The tree has the winners at all of its nodes. -/
structure VdbeSorter.Ready (le : Bytes → Bytes → Bool) (s : VdbeSorter U) (k : ℕ) (runs : ℕ → List Bytes) : Prop
    extends s.On k runs where
  settled : Settled le (heads runs) (2 ^ k) (treeOf s.aTree) fun _ _ => True

/-- The nodes from `n` down to the root. -/
theorem treeLoop_spec (h : db.pKeyInfo.Compares K le) (hs : s.On k runs) (hK : ∀ j, ∀ y ∈ runs j, K y)
    (hn : n < 2 ^ k) (ht : Settled le (heads runs) (2 ^ k) (treeOf s.aTree) fun _ j => n < j) :
    ∃ pUnpacked aTree, treeLoop db n s = some { s with pUnpacked, aTree } ∧
      VdbeSorter.Ready le { s with pUnpacked, aTree } k runs := by
  induction n generalizing s with
  | zero => exact ⟨s.pUnpacked, s.aTree, rfl, hs, fun h i hn _ => ht h i hn hn.pos⟩
  | succ n ih =>
    obtain ⟨m, hm⟩ := exists_node (Nat.succ_pos n) hn
    obtain ⟨u, aTree, heq, hl, htree⟩ := doCompare_spec h hs hK hn (winner_lt ht hm.left (by omega))
      (winner_lt ht hm.right (by omega))
    have hb := ht.build (Nat.succ_pos n) hn
    rw [← htree] at hb
    obtain ⟨u', aTree', heq', hs'⟩ := ih (hs.congr hl u) (by omega) hb
    exact ⟨u', aTree', by rw [treeLoop, heq]; exact heq', hs'⟩

/-- The nodes from the `m + 1`st above the leaf of `w` up to the root. -/
theorem pathLoop_spec (h : db.pKeyInfo.Compares K le) (hs : s.On k runs) (hK : ∀ j, ∀ y ∈ runs j, K y)
    (hw : w < 2 ^ k) {m : ℕ} (hm : m ≤ k) (ht : Settled le (heads runs) (2 ^ k) (treeOf s.aTree)
      fun h i => h ≤ m ∨ (2 ^ k + w) / 2 ^ h ≠ i) :
    ∃ pUnpacked aTree, pathLoop db ((2 ^ k + w) / 2 ^ (m + 1)) s = some { s with pUnpacked, aTree } ∧
      VdbeSorter.Ready le { s with pUnpacked, aTree } k runs := by
  induction hd : k - m generalizing m s with
  | zero =>
    obtain rfl : m = k := by omega
    have h0 : (2 ^ m + w) / 2 ^ (m + 1) = 0 := Nat.div_eq_of_lt (by rw [pow_succ]; omega)
    rw [h0, pathLoop, if_pos rfl]
    exact ⟨s.pUnpacked, s.aTree, rfl, hs, fun h i hn _ => ht h i hn (.inl hn.height_le)⟩
  | succ d ih =>
    have hn := node_div (m := m + 1) (k := k) (w := w) (by omega) hw
    have hpos := hn.pos
    obtain ⟨u, aTree, heq, hl, htree⟩ := doCompare_spec h hs hK hn.lt (winner_lt ht hn.left (.inl le_rfl))
      (winner_lt ht hn.right (.inl le_rfl))
    have hb := ht.climb hn
    rw [← htree] at hb
    obtain ⟨u', aTree', heq', hs'⟩ := ih (hs.congr hl u) (m := m + 1) (by omega) hb (by omega)
    refine ⟨u', aTree', ?_, hs'⟩
    rw [Nat.pow_succ 2 (m + 1), ← Nat.div_div_eq_div_mul] at heq'
    rw [pathLoop, if_neg hpos.ne', heq]
    exact heq'

/-- The sorter has the least head at the root. -/
theorem VdbeSorter.Ready.least (h : TotalOn K le) (hs : s.Ready le k runs) (hK : ∀ j, ∀ y ∈ runs j, K y) :
    ∃ w p, s.aTree[1]? = some w ∧ LeastHead le (heads runs) 0 (2 ^ k) w ∧ s.aIter[w]? = some p ∧ s.least = some p ∧
      p.Holds (s.pTemp1.getD []) (runs w) := by
  have hroot := hs.settled.root trivial hs.pos h fun j x hx => hK j x (List.mem_of_mem_head? hx)
  have hlen := hs.aTree
  have h1 := Nat.one_lt_two_pow hs.pos.ne'
  obtain ⟨p, hp, hh⟩ := hs.holds _ hroot.high
  have hget : s.aTree[1]? = some (treeOf s.aTree 1) := by
    rw [treeOf, List.getD_eq_getElem _ _ (by omega), List.getElem?_eq_getElem (by omega)]
  refine ⟨treeOf s.aTree 1, p, hget, hroot, hp, ?_, hh⟩
  simp only [VdbeSorter.least, hget, hp, Option.bind_eq_bind, Option.bind_some]

/-- The root has a record unless there are none. -/
theorem all_isEmpty {p : VdbeSorterIter} {f : Bytes} (hw : LeastHead le (heads runs) 0 (2 ^ k) w)
    (hp : p.Holds f (runs w)) : (!p.pFile) = (List.range (2 ^ k)).all fun j => (runs j).isEmpty := by
  rw [hp.pFile, Bool.eq_iff_iff]
  simp only [List.all_eq_true, List.mem_range, List.isEmpty_iff, Bool.not_eq_true', Option.isSome_eq_false_iff,
    Option.isNone_iff_eq_none]
  constructor
  · intro hnone j hj
    exact List.head?_eq_none_iff.mp (hw.none hnone j (by omega) hj)
  · intro hall
    rw [hall w hw.high]
    rfl

/-- The next record of run `w` takes the place of its head. -/
theorem next_spec (h : db.pKeyInfo.Compares K le) (hs : s.Ready le k runs) (hK : ∀ j, ∀ y ∈ runs j, K y)
    (hmax : ∀ j, ∀ y ∈ runs j, y.length ≤ 2 ^ 30) {r : Bytes} {run : List Bytes} (hw : s.aTree[1]? = some w)
    (hlt : w < 2 ^ k) (hr : runs w = r :: run) :
    ∃ pUnpacked aTree aIter, sqlite3VdbeSorterNext db s = some ({ s with pUnpacked, aTree, aIter },
        (List.range (2 ^ k)).all fun j => (Function.update runs w run j).isEmpty) ∧
      VdbeSorter.Ready le { s with pUnpacked, aTree, aIter } k (Function.update runs w run) := by
  obtain ⟨p, hp, hh⟩ := hs.holds w hlt
  have hlen := hs.aIter
  have hsub : ∀ j, ∀ y ∈ Function.update runs w run j, y ∈ runs j := by
    intro j y hy
    obtain rfl | hne := eq_or_ne j w
    · rw [Function.update_self] at hy
      rw [hr]
      exact List.mem_cons_of_mem r hy
    · rwa [Function.update_of_ne hne] at hy
  rw [hr] at hh
  obtain ⟨p', hnext, hh', -⟩ := iterNext_spec db.raw hh.2.2.2 hh.1 fun y hy => hmax w y (hr ▸ List.mem_cons_of_mem r hy)
  have hon : VdbeSorter.On { s with aIter := s.aIter.set w p' } k (Function.update runs w run) := by
    refine ⟨hs.nTree, hs.pos, hs.aTree, by rw [List.length_set, hlen], fun j hj => ?_, fun j hj => ?_⟩
    · obtain rfl | hne := eq_or_ne j w
      · exact ⟨p', List.getElem?_set_self (by omega), by rwa [Function.update_self]⟩
      · dsimp only
        rw [List.getElem?_set_ne hne.symm, Function.update_of_ne hne]
        exact hs.holds j hj
    · rw [Function.update_of_ne (by omega)]
      exact hs.outside j hj
  have hchange : Settled le (heads (Function.update runs w run)) (2 ^ k) (treeOf s.aTree)
      fun h i => h = 0 ∨ (2 ^ k + w) / 2 ^ h ≠ i :=
    hs.settled.change fun j _ hne => by rw [heads, heads, Function.update_of_ne hne]
  have hK' := fun j y hy => hK j y (hsub j y hy)
  obtain ⟨u, aTree, hpath, hready⟩ := pathLoop_spec h hon hK' hlt (Nat.zero_le k)
    fun h i hn hP => hchange h i hn (hP.imp_left Nat.le_zero.mp)
  obtain ⟨w', p'', -, hleast, -, hl, hp''⟩ := hready.least h.order hK'
  refine ⟨u, aTree, s.aIter.set w p', ?_, hready⟩
  have hne : s.aTree ≠ [] := by
    rintro h0
    rw [h0] at hw
    cases hw
  rw [Nat.zero_add, pow_one] at hpath
  dsimp only at hpath hl
  have hstart : (s.nTree + w) / 2 = (2 ^ k + w) / 2 := by rw [hs.nTree]
  rw [sqlite3VdbeSorterNext, if_pos hne]
  simp only [hw, hp, hnext, hstart, hpath, hl, Option.bind_eq_bind, Option.bind_some, all_isEmpty hleast hp'']

/-- What the runs still have, one run after the other. -/
def remaining (k : ℕ) (runs : ℕ → List Bytes) : List Bytes := ((List.range (2 ^ k)).map runs).flatten

theorem all_remaining : (remaining k runs).isEmpty = (List.range (2 ^ k)).all fun j => (runs j).isEmpty := by
  rw [Bool.eq_iff_iff, List.isEmpty_iff, remaining, List.flatten_eq_nil_iff]
  simp only [List.mem_map, forall_exists_index, and_imp, forall_apply_eq_imp_iff₂, List.all_eq_true, List.isEmpty_iff]

/-- The records before and behind the head of run `w`. -/
theorem remaining_split {r : Bytes} {run : List Bytes} (hlt : w < 2 ^ k) (hr : runs w = r :: run) :
    ∃ l₁ l₂, remaining k runs = l₁ ++ r :: l₂ ∧ remaining k (Function.update runs w run) = l₁ ++ l₂ ∧
      (∀ y ∈ l₁, ∃ j < w, y ∈ runs j) ∧ ∀ y ∈ l₂, y ∈ run ∨ ∃ j, w < j ∧ j < 2 ^ k ∧ y ∈ runs j := by
  have hrange : List.range (2 ^ k) = List.range w ++ w :: List.range' (w + 1) (2 ^ k - w - 1) := by
    rw [List.range_eq_range', List.range_eq_range', ← List.range'_succ, show 2 ^ k - w - 1 + 1 = 2 ^ k - w by omega]
    have happ : List.range' 0 w 1 ++ List.range' (0 + 1 * w) (2 ^ k - w) 1 = List.range' 0 (w + (2 ^ k - w)) 1 :=
      List.range'_append
    rw [Nat.one_mul, Nat.zero_add, show w + (2 ^ k - w) = 2 ^ k by omega] at happ
    exact happ.symm
  have hbefore : (List.range w).map (Function.update runs w run) = (List.range w).map runs :=
    List.map_congr_left fun j hj => Function.update_of_ne (by have := List.mem_range.mp hj; omega) _ _
  have hbehind : (List.range' (w + 1) (2 ^ k - w - 1)).map (Function.update runs w run) =
      (List.range' (w + 1) (2 ^ k - w - 1)).map runs :=
    List.map_congr_left fun j hj => Function.update_of_ne (by have := List.mem_range'_1.mp hj; omega) _ _
  refine ⟨((List.range w).map runs).flatten, run ++ ((List.range' (w + 1) (2 ^ k - w - 1)).map runs).flatten,
    ?_, ?_, fun y hy => ?_, fun y hy => ?_⟩
  · rw [remaining, hrange, List.map_append, List.map_cons, List.flatten_append, List.flatten_cons, hr, List.cons_append]
  · rw [remaining, hrange, List.map_append, List.map_cons, List.flatten_append, List.flatten_cons, hbefore, hbehind,
      Function.update_self]
  · obtain ⟨l, hl, hy⟩ := List.mem_flatten.mp hy
    obtain ⟨j, hj, rfl⟩ := List.mem_map.mp hl
    exact ⟨j, List.mem_range.mp hj, hy⟩
  · obtain hy | hy := List.mem_append.mp hy
    · exact .inl hy
    · obtain ⟨l, hl, hy⟩ := List.mem_flatten.mp hy
      obtain ⟨j, hj, rfl⟩ := List.mem_map.mp hl
      have := List.mem_range'_1.mp hj
      exact .inr ⟨j, by omega, by omega, hy⟩

/-- The keys that the sorter has one after the other, up to its end. -/
inductive Delivers (db : Db U) : VdbeSorter U → List Bytes → VdbeSorter U → Prop
  | done (s : VdbeSorter U) : Delivers db s [] s
  | next {s s' s'' : VdbeSorter U} {p : VdbeSorterIter} {r : Bytes} {out : List Bytes} : s.aTree ≠ [] →
    s.least = some p → p.key = some r → sqlite3VdbeSorterNext db s = some (s', out.isEmpty) →
    Delivers db s' out s'' → Delivers db s (r :: out) s''

/-- The merge delivers a stable sort of the runs. -/
theorem delivers_spec (h : db.pKeyInfo.Compares K le) (hs : s.Ready le k runs) (hK : ∀ j, ∀ y ∈ runs j, K y)
    (hmax : ∀ j, ∀ y ∈ runs j, y.length ≤ 2 ^ 30) (hsort : ∀ j, (runs j).Pairwise fun a b => le a b) :
    ∃ out pUnpacked aTree aIter, Delivers db s out { s with pUnpacked, aTree, aIter } ∧
      StableSort K le (remaining k runs) out ∧
      VdbeSorter.Ready le { s with pUnpacked, aTree, aIter } k fun _ => [] := by
  induction hn : (remaining k runs).length generalizing s runs with
  | zero =>
    have hnil := List.eq_nil_of_length_eq_zero hn
    have hruns : runs = fun _ => [] := by
      funext j
      obtain hlt | hge := lt_or_ge j (2 ^ k)
      · have hmem : runs j ∈ (List.range (2 ^ k)).map runs := List.mem_map.mpr ⟨j, List.mem_range.mpr hlt, rfl⟩
        exact List.flatten_eq_nil_iff.mp hnil _ hmem
      · exact hs.outside j hge
    rw [hnil, ← hruns]
    exact ⟨[], s.pUnpacked, s.aTree, s.aIter, .done s, .nil, hs⟩
  | succ n ih =>
    obtain ⟨w, p, hw, hleast, hp, hl, hh⟩ := hs.least h.order hK
    obtain ⟨r, run, hr⟩ : ∃ r run, runs w = r :: run := by
      cases hc : runs w with
      | cons r run => exact ⟨r, run, rfl⟩
      | nil =>
        have hall := hleast.none (by rw [heads, hc]; rfl)
        have hnil : remaining k runs = [] := List.flatten_eq_nil_iff.mpr fun l hl => by
          obtain ⟨j, hj, rfl⟩ := List.mem_map.mp hl
          exact List.head?_eq_none_iff.mp (hall j (by omega) (List.mem_range.mp hj))
        rw [hnil] at hn
        cases hn
    have hhead : heads runs w = some r := by rw [heads, hr]; rfl
    obtain ⟨u, aTree, aIter, hnext, hready⟩ := next_spec h hs hK hmax hw hleast.high hr
    obtain ⟨l₁, l₂, hsplit, hsplit', hl₁, hl₂⟩ := remaining_split hleast.high hr
    have hsub : ∀ j, ∀ y ∈ Function.update runs w run j, y ∈ runs j := by
      intro j y hy
      obtain rfl | hne := eq_or_ne j w
      · rw [Function.update_self] at hy
        rw [hr]
        exact List.mem_cons_of_mem r hy
      · rwa [Function.update_of_ne hne] at hy
    have hsort' : ∀ j, (Function.update runs w run j).Pairwise fun a b => le a b := by
      intro j
      obtain rfl | hne := eq_or_ne j w
      · rw [Function.update_self]
        exact (List.pairwise_cons.mp (hr ▸ hsort j)).2
      · rw [Function.update_of_ne hne]
        exact hsort j
    obtain ⟨out, u', aTree', aIter', hdel, hst, hready'⟩ := ih hready (fun j y hy => hK j y (hsub j y hy))
      (fun j y hy => hmax j y (hsub j y hy)) hsort' (by
        rw [hsplit, List.length_append, List.length_cons] at hn
        rw [hsplit', List.length_append]
        omega)
    have heof : ((List.range (2 ^ k)).all fun j => (Function.update runs w run j).isEmpty) = out.isEmpty := by
      rw [← all_remaining, Bool.eq_iff_iff, List.isEmpty_iff, List.isEmpty_iff]
      exact ⟨fun h0 => List.perm_nil.mp (h0 ▸ hst.perm), fun h0 => List.perm_nil.mp (h0 ▸ hst.perm.symm)⟩
    rw [heof] at hnext
    refine ⟨r :: out, u', aTree', aIter', .next ?_ hl (hh.key hhead) hnext hdel, ?_, hready'⟩
    · rintro h0
      rw [h0] at hw
      cases hw
    have hKr := hK w r (hr ▸ List.mem_cons_self)
    -- in each run the head is least
    have hheads : ∀ j, ∀ y ∈ runs j, ∃ x, heads runs j = some x ∧ le x y ∧ K x := by
      intro j y hy
      cases hc : runs j with
      | nil =>
        rw [hc] at hy
        cases hy
      | cons x l =>
        have hKx := hK j x (hc ▸ List.mem_cons_self)
        refine ⟨x, by rw [heads, hc]; rfl, ?_, hKx⟩
        rw [hc] at hy
        obtain rfl | hy := List.mem_cons.mp hy
        · exact h.order.refl hKx
        · exact (List.pairwise_cons.mp (hc ▸ hsort j)).1 y hy
    rw [hsplit]
    rw [hsplit'] at hst
    refine hst.cons h.order (fun y hy => ?_) (fun y hy hle => ?_) fun y hy => ?_
    · obtain rfl | hy := List.mem_cons.mp hy
      · exact hKr
      · obtain hy | hy := List.mem_append.mp hy
        · obtain ⟨j, -, hy⟩ := hl₁ y hy
          exact hK j y hy
        · obtain hy | ⟨j, -, -, hy⟩ := hl₂ y hy
          · exact hK w y (hr ▸ List.mem_cons_of_mem r hy)
          · exact hK j y hy
    · obtain ⟨j, hj, hy⟩ := hl₁ y hy
      obtain ⟨x, hx, hxy, hKx⟩ := hheads j y hy
      exact hleast.before r hhead j (by omega) hj x hx (h.order.trans x y r hKx (hK j y hy) hKr hxy hle)
    · obtain hy | ⟨j, hj, hj', hy⟩ := hl₂ y hy
      · exact (List.pairwise_cons.mp (hr ▸ hsort w)).1 y hy
      · obtain ⟨x, hx, hxy, hKx⟩ := hheads j y hy
        exact h.order.trans r x y hKr hKx (hK j y hy) (hleast.after r hhead j hj hj' x hx) hxy

end

end Sqlite.Sorter

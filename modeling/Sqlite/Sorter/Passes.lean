import Sqlite.Sorter.Merge

/-! The passes over the runs: groups of sixteen runs become one run of the other file. -/
namespace Sqlite.Sorter

open Foundation Record

section

variable {U : Type} {db : Db U} {K : Bytes → Prop} {le : Bytes → Bytes → Bool} {s s' : VdbeSorter U}
  {rs outs : List (List Bytes)} {run out : List Bytes} {k i n : ℕ} {writer : FileWriter} {bytes f : Bytes}

/-- A run with records, all of them in order and of a length that the sorter can handle. -/
structure IsRun (K : Bytes → Prop) (le : Bytes → Bytes → Bool) (run : List Bytes) : Prop where
  ne_nil : run ≠ []
  sorted : run.Pairwise fun a b => le a b
  keys : ∀ y ∈ run, K y
  short : ∀ y ∈ run, y.length ≤ 2 ^ 30

theorem length_content_append (run run' : List Bytes) :
    (content (run ++ run')).length = (content run).length + (content run').length := by
  rw [content, List.flatMap_append, List.length_append]
  rfl

theorem pma_pos (h : (content run).length < 2 ^ 64) : 0 < (pma run).length := by
  have := varintLen_pos (content run).length
  rw [pma, List.length_append, length_putVarint h]
  omega

/-- The file has the runs from `iReadOff` up to `iWriteOff`. -/
structure VdbeSorter.Stores (s : VdbeSorter U) (rs : List (List Bytes)) : Prop where
  file : s.iWriteOff ≤ (s.pTemp1.getD []).length
  small : s.iWriteOff < 2 ^ 31
  eq : ((s.pTemp1.getD []).take s.iWriteOff).drop s.iReadOff = rs.flatMap pma

theorem VdbeSorter.Stores.length (h : s.Stores rs) : (rs.flatMap pma).length = s.iWriteOff - s.iReadOff := by
  rw [← h.eq, List.length_drop, List.length_take, min_eq_left h.file]

theorem VdbeSorter.Stores.content_lt (h : s.Stores (run :: rs)) : (content run).length < 2 ^ 31 := by
  have hlen := h.length
  have hsmall := h.small
  rw [List.flatMap_cons, List.length_append, pma, List.length_append] at hlen
  omega

theorem VdbeSorter.Stores.tail (h : s.Stores (run :: rs)) {aIter : List VdbeSorterIter} :
    VdbeSorter.Stores { s with aIter, iReadOff := s.iReadOff + (pma run).length } rs := by
  refine ⟨h.file, h.small, ?_⟩
  have heq := congrArg (List.drop (pma run).length) h.eq
  rwa [List.drop_drop, List.flatMap_cons, List.drop_left] at heq

/-- The iterators of the first `n` runs. -/
theorem initLoop_spec (hdb : 0 < db.pageSize) (hs : s.Stores rs) (hne : rs ≠ []) (hruns : ∀ run ∈ rs, IsRun K le run)
    (hroom : i + min n rs.length ≤ s.aIter.length) (nByte : ℕ) :
    ∃ aIter iReadOff, initLoop db n i s nByte =
        some ({ s with aIter, iReadOff }, nByte + (content (rs.take n).flatten).length) ∧
      VdbeSorter.Stores { s with aIter, iReadOff } (rs.drop n) ∧ aIter.length = s.aIter.length ∧
      (∀ j run, (rs.take n)[j]? = some run → ∃ p, aIter[i + j]? = some p ∧ p.Holds (s.pTemp1.getD []) run) ∧
      ∀ j, j < i ∨ i + min n rs.length ≤ j → aIter[j]? = s.aIter[j]? := by
  induction n generalizing i s rs nByte with
  | zero => exact ⟨s.aIter, s.iReadOff, rfl, hs, rfl, fun j run h => by simp at h, fun _ _ => rfl⟩
  | succ n ih =>
    obtain _ | ⟨run, rs⟩ := rs
    · exact absurd rfl hne
    have hrun := hruns run List.mem_cons_self
    rw [List.length_cons] at hroom
    obtain ⟨p, hinit, hh, heof⟩ := iterInit_spec db.raw hdb hs.file hs.small
      (show _ = pma run ++ rs.flatMap pma by rw [hs.eq, List.flatMap_cons]) hrun.short nByte
    have heof := heof hrun.ne_nil
    have htail : VdbeSorter.Stores { s with aIter := s.aIter.set i p, iReadOff := p.iEof } rs := by
      rw [heof]
      exact hs.tail
    have hlen := htail.length
    dsimp only at hlen
    have hset : ∀ j, j < i ∨ i + 1 ≤ j → (s.aIter.set i p)[j]? = s.aIter[j]? :=
      fun j hj => List.getElem?_set_ne (by omega)
    have hself : (s.aIter.set i p)[i]? = some p := List.getElem?_set_self (by omega)
    rw [initLoop]
    simp only [hinit, Option.bind_eq_bind, Option.bind_some]
    rw [if_neg (by omega)]
    obtain rfl | hcons := eq_or_ne rs []
    · rw [List.flatMap_nil, List.length_nil] at hlen
      rw [if_pos (by omega)]
      refine ⟨s.aIter.set i p, p.iEof, by simp, by simpa using htail, List.length_set, fun j run' hj => ?_,
        fun j hj => ?_⟩
      · rw [List.take_succ_cons, List.take_nil] at hj
        obtain _ | j := j
        · obtain rfl := Option.some.inj hj
          exact ⟨p, hself, hh⟩
        · cases hj
      · rw [List.length_singleton] at hj
        exact hset j (by omega)
    · obtain ⟨run', rs', rfl⟩ := List.exists_cons_of_ne_nil hcons
      have hpos := pma_pos (htail.content_lt.trans (by norm_num))
      rw [List.flatMap_cons, List.length_append] at hlen
      rw [if_neg (by omega)]
      obtain ⟨aIter, iReadOff, heq, hst, hl, hits, hsame⟩ := ih (i := i + 1) htail hcons
        (fun run hm => hruns run (List.mem_cons_of_mem _ hm)) (by rw [List.length_set]; omega)
        (nByte + (content run).length)
      refine ⟨aIter, iReadOff, ?_, hst, hl.trans List.length_set, fun j r hj => ?_, fun j hj => ?_⟩
      · rw [heq, List.take_succ_cons, List.flatten_cons, length_content_append, Nat.add_assoc]
      · obtain _ | j := j
        · obtain rfl := Option.some.inj hj
          exact ⟨p, by rw [Nat.add_zero, hsame i (.inl (by omega))]; exact hself, hh⟩
        · rw [List.take_succ_cons, List.getElem?_cons_succ] at hj
          obtain ⟨p', hp', hh'⟩ := hits j r hj
          exact ⟨p', by rwa [show i + (j + 1) = i + 1 + j by omega], hh'⟩
      · rw [List.length_cons] at hj
        rw [hsame j (by omega)]
        exact hset j (by omega)

/-- No iterator is in use. -/
structure VdbeSorter.Idle (s : VdbeSorter U) (k : ℕ) : Prop where
  nTree : s.nTree = 2 ^ k
  pos : 0 < k
  aTree : s.aTree.length = 2 ^ k
  aIter : s.aIter.length = 2 ^ k
  zero : ∀ j < 2 ^ k, s.aIter[j]? = some .vdbeSorterIterZero

theorem VdbeSorter.Ready.idle (h : s.Ready le k fun _ => []) : s.Idle k := by
  refine ⟨h.nTree, h.pos, h.aTree, h.aIter, fun j hj => ?_⟩
  obtain ⟨p, hp, rfl⟩ := h.holds j hj
  exact hp

theorem flatten_getD (n : ℕ) (hn : rs.length ≤ n) :
    ((List.range n).map fun j => rs.getD j []).flatten = rs.flatten := by
  induction rs generalizing n with
  | nil => simp
  | cons run rs ih =>
    obtain ⟨n, rfl⟩ := Nat.exists_eq_succ_of_ne_zero (Nat.ne_zero_of_lt hn)
    rw [List.length_cons] at hn
    rw [Nat.succ_eq_add_one, List.range_succ_eq_map, List.map_cons, List.map_map, List.flatten_cons, List.flatten_cons,
      ← ih n (by omega)]
    rfl

theorem isRun_getD (hruns : ∀ run ∈ rs, IsRun K le run) (j : ℕ) :
    (rs.getD j []).Pairwise (fun a b => le a b) ∧ ∀ y ∈ rs.getD j [], K y ∧ y.length ≤ 2 ^ 30 := by
  rw [List.getD_eq_getElem?_getD]
  cases hj : rs[j]? with
  | none => exact ⟨.nil, fun y hy => by cases hy⟩
  | some run =>
    have hrun := hruns run (List.mem_of_getElem? hj)
    exact ⟨hrun.sorted, fun y hy => ⟨hrun.keys y hy, hrun.short y hy⟩⟩

/-- The merge of the first sixteen runs is set up. -/
theorem initMerge_spec (h : db.pKeyInfo.Compares K le) (hdb : 0 < db.pageSize) (hi : s.Idle k) (hs : s.Stores rs)
    (hne : rs ≠ []) (hruns : ∀ run ∈ rs, IsRun K le run) (hroom : min 16 rs.length ≤ 2 ^ k) :
    ∃ aIter iReadOff aTree pUnpacked, vdbeSorterInitMerge db s = some ({ s with aIter, iReadOff, aTree, pUnpacked },
        (content (rs.take 16).flatten).length) ∧
      VdbeSorter.Stores { s with aIter, iReadOff, aTree, pUnpacked } (rs.drop 16) ∧
      VdbeSorter.Ready le { s with aIter, iReadOff, aTree, pUnpacked } k fun j => (rs.take 16).getD j [] := by
  obtain ⟨aIter, iReadOff, hinit, hst, hl, hits, hsame⟩ := initLoop_spec (n := 16) (i := 0) hdb hs hne
    hruns (by rw [hi.aIter]; omega) 0
  have hmem : ∀ j, ∀ y ∈ (rs.take 16).getD j [], K y := fun j y hy =>
    ((isRun_getD (fun run hm => hruns run (List.mem_of_mem_take hm)) j).2 y hy).1
  have hon : VdbeSorter.On { s with aIter, iReadOff } k fun j => (rs.take 16).getD j [] := by
    refine ⟨hi.nTree, hi.pos, hi.aTree, hl.trans hi.aIter, fun j hj => ?_, fun j hj => ?_⟩
    · dsimp only
      rw [List.getD_eq_getElem?_getD]
      cases hr : (rs.take 16)[j]? with
      | none =>
        have hge := List.getElem?_eq_none_iff.mp hr
        rw [List.length_take] at hge
        exact ⟨.vdbeSorterIterZero, by rw [hsame j (.inr (by omega)), hi.zero j hj], rfl⟩
      | some run =>
        obtain ⟨p, hp, hh⟩ := hits j run hr
        exact ⟨p, by rwa [Nat.zero_add] at hp, hh⟩
    · rw [List.getD_eq_default _ _ (by rw [List.length_take]; omega)]
  have hpos := Nat.two_pow_pos k
  have hleaves : Settled le (heads fun j => (rs.take 16).getD j []) (2 ^ k) (treeOf s.aTree)
      fun _ j => 2 ^ k - 1 < j := by
    intro m j hj hlt
    obtain _ | m := m
    · exact winner_leaf hj
    · have := hj.lt
      omega
  obtain ⟨pUnpacked, aTree, htree, hready⟩ := treeLoop_spec h hon hmem (n := 2 ^ k - 1) (by omega) hleaves
  refine ⟨aIter, iReadOff, aTree, pUnpacked, ?_, ⟨hst.file, hst.small, hst.eq⟩, hready⟩
  have hn : s.nTree - 1 = 2 ^ k - 1 := by rw [hi.nTree]
  rw [vdbeSorterInitMerge, SORTER_MAX_MERGE_COUNT, hinit]
  simp only [Option.bind_eq_bind, Option.bind_some, hn, htree, Nat.zero_add]

theorem key_length {p : VdbeSorterIter} {r : Bytes} (h : p.key = some r) : p.nKey = r.length := by
  have key : ∀ (src : Bytes) (i n : ℕ), bytesAt src i n = some r → n = r.length := by
    intro src i n hb
    unfold bytesAt at hb
    split at hb
    · obtain rfl := Option.some.inj hb
      rw [List.length_take, List.length_drop]
      omega
    · cases hb
  unfold VdbeSorterIter.key VdbeSorterIter.deref at h
  split at h
  · exact key _ _ _ h
  · exact key _ _ _ h

/-- The merged run is written as the records come. -/
theorem mergedLoop_spec (h : Delivers db s out s') (hne : out ≠ []) (hw : writer.Holds bytes)
    (hn : out.length ≤ n) :
    ∃ writer', mergedLoop db n s writer = some (s', writer') ∧ writer'.Holds (bytes ++ content out) := by
  induction h generalizing writer bytes n with
  | done s => exact absurd rfl hne
  | @next s s₁ s₂ p r out _ hl hkey hnext hdel ih =>
    obtain ⟨n, rfl⟩ := Nat.exists_eq_succ_of_ne_zero (Nat.ne_zero_of_lt hn)
    rw [List.length_cons] at hn
    obtain ⟨w₁, hw₁, h₁⟩ := write_spec hw (sqlite3PutVarint r.length)
    obtain ⟨w₂, hw₂, h₂⟩ := write_spec h₁ r
    rw [Nat.succ_eq_add_one, mergedLoop]
    simp only [hl, hkey, key_length hkey, fileWriterWriteVarint, hw₁, hw₂, hnext, Option.bind_eq_bind, Option.bind_some]
    obtain _ | ⟨r', out⟩ := out
    · cases hdel
      exact ⟨w₂, rfl, by simpa [record] using h₂⟩
    · obtain ⟨w₃, hw₃, h₃⟩ := ih (n := n) (List.cons_ne_nil r' out) h₂ (by omega)
      refine ⟨w₃, ?_, by simpa [record] using h₃⟩
      rw [List.isEmpty_cons, if_neg Bool.false_ne_true]
      exact hw₃

/-! The size of the merged run. -/

theorem varintLen_add_le (a b : ℕ) : sqlite3VarintLen (a + b) ≤ sqlite3VarintLen a + sqlite3VarintLen b := by
  wlog hab : a ≤ b generalizing a b
  · rw [Nat.add_comm a b, Nat.add_comm (sqlite3VarintLen a)]
    exact this b a (by omega)
  have hpos := varintLen_pos a
  have h9 := varintLen_le_nine (a + b)
  by_contra hgt
  have hlt : sqlite3VarintLen b < 9 := by omega
  have hb := lt_of_varintLen hlt le_rfl
  have hsum : a + b < 128 ^ (sqlite3VarintLen b + 1) := by
    rw [pow_succ]
    omega
  have hle := varintLen_le hsum
  omega

theorem length_content_flatten (rs : List (List Bytes)) :
    (content rs.flatten).length = (rs.map fun run => (content run).length).sum := by
  induction rs with
  | nil => rfl
  | cons run rs ih => rw [List.flatten_cons, length_content_append, ih, List.map_cons, List.sum_cons]

theorem length_pma_le (hr : ((rs.map fun run => (content run).length).sum) < 2 ^ 64) (hne : rs ≠ []) :
    (pma rs.flatten).length ≤ (rs.flatMap pma).length := by
  have hpma : ∀ {run}, (content run).length < 2 ^ 64 →
      (pma run).length = sqlite3VarintLen (content run).length + (content run).length := fun h => by
    rw [pma, List.length_append, length_putVarint h]
  induction rs with
  | nil => exact absurd rfl hne
  | cons run rs ih =>
    rw [List.map_cons, List.sum_cons] at hr
    rw [List.flatMap_cons, List.length_append]
    obtain rfl | hcons := eq_or_ne rs []
    · simp
    · have ih := ih (by omega) hcons
      have hadd := varintLen_add_le (content run).length (content rs.flatten).length
      rw [hpma (by rw [length_content_flatten]; omega)] at ih
      rw [hpma (by rw [length_content_flatten, List.map_cons, List.sum_cons]; omega), hpma (by omega),
        List.flatten_cons, length_content_append]
      omega

theorem sum_content_le : (rs.map fun run => (content run).length).sum ≤ (rs.flatMap pma).length := by
  induction rs with
  | nil => rfl
  | cons run rs ih =>
    rw [List.map_cons, List.sum_cons, List.flatMap_cons, List.length_append, pma, List.length_append]
    omega

theorem VdbeSorter.Stores.sum_take_le (h : s.Stores rs) (n : ℕ) :
    ((rs.take n).map fun run => (content run).length).sum ≤ s.iWriteOff := by
  have h₁ : (rs.map fun run => (content run).length).sum ≤ (rs.flatMap pma).length := sum_content_le
  have h₂ := h.length
  have h₃ := congrArg (fun l => (l.map fun run => (content run).length).sum) (List.take_append_drop n rs)
  simp only [List.map_append, List.sum_append] at h₃
  omega

/-! A pass. -/

/-- The second file has the bytes. -/
def Temp2.Has (t : Temp2) (bytes : Bytes) : Prop :=
  t.iWrite2 ≤ t.pTemp2.length ∧ t.pTemp2.take t.iWrite2 = bytes

/-- The next sixteen runs become one. -/
theorem passLoop_step (h : db.pKeyInfo.Compares K le) (hdb : 0 < db.pageSize) (hi : s.Idle k) (hs : s.Stores rs)
    (hne : rs ≠ []) (hruns : ∀ run ∈ rs, IsRun K le run) (hroom : min 16 rs.length ≤ 2 ^ k) {t : Temp2}
    (ht : t.Has bytes) {iNew : ℕ} (hnew : iNew * 16 < s.nPMA) (hmany : 16 < s.nPMA) :
    ∃ aIter iReadOff aTree pUnpacked out, ∃ t' : Temp2, passLoop db (n + 1) iNew s t =
        passLoop db n (iNew + 1) { s with aIter, iReadOff, aTree, pUnpacked } t' ∧
      VdbeSorter.Idle { s with aIter, iReadOff, aTree, pUnpacked } k ∧
      VdbeSorter.Stores { s with aIter, iReadOff, aTree, pUnpacked } (rs.drop 16) ∧
      StableSort K le (rs.take 16).flatten out ∧ IsRun K le out ∧ t'.Has (bytes ++ pma out) := by
  obtain ⟨aIter₁, iReadOff, aTree₁, u₁, hinit, hst, hready⟩ := initMerge_spec h hdb hi hs hne hruns hroom
  have hrun := isRun_getD fun run (hm : run ∈ rs.take 16) => hruns run (List.mem_of_mem_take hm)
  obtain ⟨out, u, aTree, aIter, hdel, hout, hready'⟩ := delivers_spec h hready (fun j y hy => ((hrun j).2 y hy).1)
    (fun j y hy => ((hrun j).2 y hy).2) fun j => (hrun j).1
  rw [remaining, flatten_getD _ (by rw [List.length_take]; exact hroom)] at hout
  have hmem : ∀ y ∈ out, ∃ run ∈ rs, y ∈ run := by
    intro y hy
    obtain ⟨run, hm, hy⟩ := List.mem_flatten.mp (hout.perm.mem_iff.mp hy)
    exact ⟨run, List.mem_of_mem_take hm, hy⟩
  have hisRun : IsRun K le out := by
    refine ⟨?_, hout.sorted, fun y hy => ?_, fun y hy => ?_⟩
    · obtain ⟨run, rs', rfl⟩ := List.exists_cons_of_ne_nil hne
      rintro rfl
      have hnil := List.flatten_eq_nil_iff.mp (List.nil_perm.mp hout.perm) run (by simp)
      exact (hruns run List.mem_cons_self).ne_nil hnil
    · obtain ⟨run, hm, hy⟩ := hmem y hy
      exact (hruns run hm).keys y hy
    · obtain ⟨run, hm, hy⟩ := hmem y hy
      exact (hruns run hm).short y hy
  have hcl : (content out).length = (content (rs.take 16).flatten).length := length_content_perm hout.perm
  have hfuel : out.length ≤ s.iWriteOff := by
    have h₁ := length_le_content fun y hy => (hisRun.short y hy).trans_lt (show 2 ^ 30 < 2 ^ 64 by norm_num)
    have h₂ := hs.sum_take_le 16
    rw [hcl, length_content_flatten] at h₁
    omega
  obtain ⟨w₁, hw₁, hh₁⟩ := write_spec (holds_init db.raw hdb ht.1)
    (sqlite3PutVarint (content (rs.take 16).flatten).length)
  obtain ⟨w₂, hw₂, hh₂⟩ := mergedLoop_spec hdel hisRun.ne_nil hh₁ hfuel
  rw [ht.2, List.append_assoc, ← hcl, ← pma] at hh₂
  obtain ⟨f', hf', htake⟩ := finish_spec hh₂
  have hlen := congrArg List.length htake
  rw [List.length_take] at hlen
  refine ⟨aIter, iReadOff, aTree, u, out, ⟨f', (bytes ++ pma out).length⟩, ?_, hready'.idle,
    ⟨hst.file, hst.small, hst.eq⟩, hout, hisRun, by dsimp only [Temp2.Has]; omega, htake⟩
  rw [passLoop, SORTER_MAX_MERGE_COUNT, if_pos hnew, hinit]
  simp only [Option.bind_eq_bind, Option.bind_some]
  rw [if_neg (by omega)]
  simp only [fileWriterWriteVarint, hw₁, hw₂, hf', Option.bind_some]

/-- A pass leaves a file of fewer runs, which are stable sorts of groups of runs. -/
theorem passLoop_spec (h : db.pKeyInfo.Compares K le) (hdb : 0 < db.pageSize) (hi : s.Idle k) (hs : s.Stores rs)
    (hruns : ∀ run ∈ rs, IsRun K le run) (hroom : min 16 rs.length ≤ 2 ^ k) {t : Temp2}
    (ht : t.Has bytes) (iNew : ℕ) (hnew : rs ≠ [] → s.nPMA = iNew * 16 + rs.length)
    (hend : rs = [] → s.nPMA ≤ iNew * 16) (hmany : 16 < s.nPMA) (hn : rs.length < n) :
    ∃ aIter iReadOff aTree pUnpacked outs gs, ∃ t' : Temp2, passLoop db n iNew s t =
        some ({ s with aIter, iReadOff, aTree, pUnpacked }, some (t', iNew + outs.length)) ∧
      VdbeSorter.Idle { s with aIter, iReadOff, aTree, pUnpacked } k ∧
      gs.flatten = rs.flatten ∧ List.Forall₂ (StableSort K le) gs outs ∧ (∀ run ∈ outs, IsRun K le run) ∧
      t'.Has (bytes ++ outs.flatMap pma) ∧ (outs.flatMap pma).length ≤ (rs.flatMap pma).length ∧
      16 * outs.length < rs.length + 16 ∧ (rs ≠ [] → outs ≠ []) := by
  induction n generalizing s rs t bytes iNew with
  | zero => omega
  | succ n ih =>
    obtain rfl | hne := eq_or_ne rs []
    · refine ⟨s.aIter, s.iReadOff, s.aTree, s.pUnpacked, [], [], t, ?_, hi, rfl, .nil, by simp, by simpa using ht,
        le_rfl, by simp, fun h => absurd rfl h⟩
      have hstop := hend rfl
      rw [passLoop, SORTER_MAX_MERGE_COUNT, if_neg (by omega)]
      rfl
    · have hlen := hnew hne
      have hpos := List.length_pos_of_ne_nil hne
      have hdrop : (rs.drop 16).length = rs.length - 16 := List.length_drop
      obtain ⟨aIter, iReadOff, aTree, u, out, t', hstep, hi', hs', hout, hrun, ht'⟩ := passLoop_step (n := n) h hdb hi
        hs hne hruns hroom ht (show iNew * 16 < s.nPMA by omega) hmany
      obtain ⟨aIter', iReadOff', aTree', u', outs, gs, t'', hloop, hi'', hgs, hall, hruns', ht'', hle, hcount, -⟩ :=
        ih hi' hs' (fun run hm => hruns run (List.mem_of_mem_drop hm)) (by omega) ht' (iNew + 1)
          (fun h0 => by
            have := List.length_pos_of_ne_nil h0
            dsimp only
            omega)
          (fun h0 => by
            rw [h0, List.length_nil] at hdrop
            dsimp only
            omega)
          hmany (by omega)
      refine ⟨aIter', iReadOff', aTree', u', out :: outs, (rs.take 16).flatten :: gs, t'', ?_, hi'', ?_,
        .cons hout hall, ?_, ?_, ?_, ?_, fun _ => List.cons_ne_nil out outs⟩
      · rw [hstep, hloop, List.length_cons, show iNew + 1 + outs.length = iNew + (outs.length + 1) by omega]
      · rw [List.flatten_cons, hgs, ← List.flatten_append, List.take_append_drop]
      · intro run hm
        obtain rfl | hm := List.mem_cons.mp hm
        · exact hrun
        · exact hruns' run hm
      · rwa [List.flatMap_cons, ← List.append_assoc]
      · have hsum := hs.sum_take_le 16
        have hsmall := hs.small
        have hgroup := length_pma_le
          (show ((rs.take 16).map fun run => (content run).length).sum < 2 ^ 64 by omega) fun h0 => by
          obtain h0 | h0 := List.take_eq_nil_iff.mp h0
          · omega
          · exact hne h0
        have hperm : (pma out).length = (pma (rs.take 16).flatten).length := by
          rw [pma, pma, List.length_append, List.length_append, length_content_perm hout.perm]
        have hsplit := congrArg (fun l => (List.flatMap pma l).length) (List.take_append_drop 16 rs)
        simp only [List.flatMap_append, List.length_append] at hsplit
        rw [List.flatMap_cons, List.length_append]
        omega
      · rw [List.length_cons]
        omega

/-- The runs of the last pass are merged as the records are asked for. -/
theorem mergeLoops_spec (h : db.pKeyInfo.Compares K le) (hdb : 0 < db.pageSize) (hi : s.Idle k) (hs : s.Stores rs)
    (hne : rs ≠ []) (hruns : ∀ run ∈ rs, IsRun K le run) (hroom : min 16 rs.length ≤ 2 ^ k)
    (hnPMA : s.nPMA = rs.length) (hoff : s.iReadOff = 0) (hn : rs.length ≤ n) (pTemp2 : Bytes) :
    ∃ s' rs', mergeLoops db n s pTemp2 = some s' ∧ (s'.Ready le k fun j => rs'.getD j []) ∧ rs'.length ≤ 2 ^ k ∧
      rs' ≠ [] ∧ (∀ run ∈ rs', IsRun K le run) ∧
      ∀ out, StableSort K le rs'.flatten out → StableSort K le rs.flatten out := by
  induction n generalizing s rs pTemp2 with
  | zero => exact absurd (List.eq_nil_of_length_eq_zero (Nat.le_zero.mp hn)) hne
  | succ n ih =>
    have hpos := List.length_pos_of_ne_nil hne
    obtain hfew | hmany := le_or_gt s.nPMA 16
    · obtain ⟨aIter, iReadOff, aTree, u, hinit, -, hready⟩ := initMerge_spec h hdb hi hs hne hruns hroom
      rw [List.take_of_length_le (by omega)] at hready
      refine ⟨_, rs, ?_, hready, by omega, hne, hruns, fun out ho => ho⟩
      rw [mergeLoops, passLoop, SORTER_MAX_MERGE_COUNT, if_pos (by omega), hinit]
      simp only [Option.bind_eq_bind, Option.bind_some]
      rw [if_pos hfew, Option.bind_some]
    · obtain ⟨aIter, iReadOff, aTree, u, outs, gs, t, hpass, hi', hgs, hall, hruns', ht, hle, hcount, hne'⟩ :=
        passLoop_spec (n := s.nPMA + 1) h hdb hi hs hruns hroom
          (show Temp2.Has { pTemp2, iWrite2 := 0 } [] from ⟨Nat.zero_le _, rfl⟩) 0 (fun _ => by omega)
          (fun h0 => absurd h0 hne) hmany (by omega)
      rw [Nat.zero_add] at hpass
      rw [List.nil_append] at ht
      have hlen := congrArg List.length ht.2
      rw [List.length_take, min_eq_left ht.1] at hlen
      have hold := hs.length
      have hsmall := hs.small
      obtain ⟨s', rs', heq, hready, hl, hne'', hrs', hout⟩ := ih (s := { s with
          aIter, aTree, nPMA := outs.length, pTemp1 := some t.pTemp2, iWriteOff := t.iWrite2, iReadOff := 0
          pUnpacked := u })
        ⟨hi'.nTree, hi'.pos, hi'.aTree, hi'.aIter, hi'.zero⟩ ⟨ht.1, by dsimp only; omega, ht.2⟩ (hne' hne) hruns'
        (by omega) rfl rfl (by omega) (s.pTemp1.getD [])
      refine ⟨s', rs', ?_, hready, hl, hne'', hrs', fun out ho => ?_⟩
      · rw [mergeLoops, hpass]
        exact heq
      · rw [← hgs]
        exact (hout out ho).flatten hall

end

end Sqlite.Sorter

import Sqlite.Record.CompareSound
import Sqlite.Sorter.Passes

/-! A whole use of the sorter: all records are written, then taken out in order. -/
namespace Sqlite.Sorter

open Foundation Record

section Definitions

variable {U : Type} (db : Db U)

/-- The records are written one after the other; with each one comes whether the heap is nearly full. -/
def writeAll (s : VdbeSorter U) : List (Bytes × Bool) → Option (VdbeSorter U)
  | [] => some s
  | (pVal, nearlyFull) :: l => do writeAll (← sqlite3VdbeSorterWrite db s pVal nearlyFull) l

/-- The loop of `OP_SorterData` and `OP_SorterNext`, for `n` records at most. -/
def takeAll : ℕ → VdbeSorter U → Bool → Option (List Bytes)
  | _, _, true => some []
  | 0, _, false => none
  | n + 1, s, false => do
    let key ← vdbeSorterRowkey s
    let (s, bEof) ← sqlite3VdbeSorterNext db s
    some (key :: (← takeAll n s bEof))

/-- What comes out of the sorter after the records `l` went in. -/
def sortRecords (l : List (Bytes × Bool)) : Option (List Bytes) := do
  let s ← writeAll db (sqlite3VdbeSorterInit db) l
  let (s, bEof) ← sqlite3VdbeSorterRewind db s
  takeAll db l.length s bEof

end Definitions

section

variable {U : Type} {db : Db U} {K : Bytes → Prop} {le : Bytes → Bytes → Bool} {s s' : VdbeSorter U}
  {written : List Bytes} {l : List (Bytes × Bool)} {out : List Bytes} {r : Bytes} {k n : ℕ}

/-- No run and no record is larger than a file that an `int` can measure. -/
def fileBound (l : List Bytes) : ℕ := (l.map fun r => (record r).length + 9).sum

/-- The records are in runs of the file, each a stable sort of what was in memory when it was written, and in
memory, the newest first. -/
structure VdbeSorter.Collects (K : Bytes → Prop) (le : Bytes → Bytes → Bool) (s : VdbeSorter U) (written : List Bytes) :
    Prop where
  aTree : s.aTree = []
  iReadOff : s.iReadOff = 0
  runs : ∃ gs rs, List.Forall₂ (StableSort K le) gs rs ∧ written = gs.flatten ++ s.pRecord.reverse ∧
    (∀ run ∈ rs, IsRun K le run) ∧ s.Stores rs ∧ s.nPMA = rs.length
  nInMemory : s.nInMemory = (content s.pRecord).length
  bound : s.iWriteOff + fileBound s.pRecord ≤ fileBound written

theorem fileBound_eq (l : List Bytes) : fileBound l = (content l).length + 9 * l.length := by
  induction l with
  | nil => rfl
  | cons r l ih =>
    rw [fileBound] at ih ⊢
    rw [List.map_cons, List.sum_cons, ih, content_cons, List.length_append, List.length_cons]
    omega

theorem fileBound_append (l l' : List Bytes) : fileBound (l ++ l') = fileBound l + fileBound l' := by
  rw [fileBound, List.map_append, List.sum_append]
  rfl

/-- The records in memory become a run. -/
theorem VdbeSorter.Collects.flush (h : db.pKeyInfo.Compares K le) (hdb : 0 < db.pageSize)
    (hs : s.Collects K le written) (hK : ∀ y ∈ written, K y ∧ y.length ≤ 2 ^ 30) (hmax : fileBound written < 2 ^ 31)
    (hne : s.pRecord ≠ []) :
    ∃ s', vdbeSorterListToPMA db s = some s' ∧ VdbeSorter.Collects K le { s' with nInMemory := 0 } written ∧
      s'.pRecord = [] ∧ s'.nPMA = s.nPMA + 1 := by
  obtain ⟨gs, rs, hall, hw, hruns, hst, hnPMA⟩ := hs.runs
  have hmem : ∀ y ∈ s.pRecord, K y ∧ y.length ≤ 2 ^ 30 := fun y hy => hK y (by rw [hw]; simp [hy])
  have hbound := hs.bound
  have hfb := fileBound_eq s.pRecord
  have hpos := List.length_pos_of_ne_nil hne
  have hlen := length_le_content fun y hy => (hmem y hy).2.trans_lt (show 2 ^ 30 < 2 ^ 64 by norm_num)
  have hsize := hs.nInMemory
  obtain ⟨run, u, f, hrun, hflush, htake⟩ := listToPMA_spec h hdb (fun y hy => (hmem y hy).1) hsize (by omega)
    (by omega) (fun y hy => (hmem y hy).2.trans_lt (by norm_num)) hst.file
  have hperm : run.Perm s.pRecord := hrun.perm.trans (List.reverse_perm _)
  have hcl := length_content_perm hperm
  have hpma : (pma run).length ≤ (content s.pRecord).length + 9 := by
    have h9 := varintLen_le_nine (content run).length
    rw [pma, List.length_append, length_putVarint (by omega)]
    omega
  have hflen := congrArg List.length htake
  rw [List.length_take, List.length_append, List.length_take, min_eq_left hst.file] at hflen
  have heq := hst.eq
  rw [hs.iReadOff, List.drop_zero] at heq
  refine ⟨_, hflush, ⟨hs.aTree, hs.iReadOff, ?_, rfl, ?_⟩, rfl, rfl⟩
  · refine ⟨gs ++ [s.pRecord.reverse], rs ++ [run], ?_, by simp [hw], fun run' hm => ?_, ⟨?_, ?_, ?_⟩, by simp [hnPMA]⟩
    · exact List.rel_append hall (.cons hrun .nil)
    · obtain hm | hm := List.mem_append.mp hm
      · exact hruns run' hm
      · obtain rfl := List.mem_singleton.mp hm
        exact ⟨List.ne_nil_of_length_pos (by rw [hperm.length_eq]; exact hpos), hrun.sorted,
          fun y hy => (hmem y (hperm.mem_iff.mp hy)).1, fun y hy => (hmem y (hperm.mem_iff.mp hy)).2⟩
    · dsimp only [Option.getD_some]
      omega
    · dsimp only
      omega
    · dsimp only [Option.getD_some]
      rw [hs.iReadOff, List.drop_zero, htake, heq, List.flatMap_append]
      simp
  · dsimp only
    rw [show fileBound [] = 0 from rfl]
    omega

/-- A record more. -/
theorem write_collects (h : db.pKeyInfo.Compares K le) (hdb : 0 < db.pageSize) (hs : s.Collects K le written)
    (hK : ∀ y ∈ written ++ [r], K y ∧ y.length ≤ 2 ^ 30) (hmax : fileBound (written ++ [r]) < 2 ^ 31)
    (nearlyFull : Bool) :
    ∃ s', sqlite3VdbeSorterWrite db s r nearlyFull = some s' ∧ s'.Collects K le (written ++ [r]) := by
  have hr := hK r (by simp)
  have hc : VdbeSorter.Collects K le { s with
      nInMemory := s.nInMemory + (sqlite3VarintLen r.length + r.length), pRecord := r :: s.pRecord }
      (written ++ [r]) := by
    obtain ⟨gs, rs, hall, hw, hruns, hst, hnPMA⟩ := hs.runs
    have hb := hs.bound
    refine ⟨hs.aTree, hs.iReadOff, ⟨gs, rs, hall, by simp [hw], hruns, ⟨hst.file, hst.small, hst.eq⟩, hnPMA⟩, ?_, ?_⟩
    · dsimp only
      rw [content_cons, List.length_append, length_record (hr.2.trans_lt (by norm_num)), hs.nInMemory]
      omega
    · dsimp only
      have h₁ : fileBound (r :: s.pRecord) = fileBound [r] + fileBound s.pRecord := fileBound_append [r] s.pRecord
      rw [fileBound_append, h₁]
      omega
  unfold sqlite3VdbeSorterWrite
  dsimp only
  split
  · obtain ⟨s', hflush, hc', -, -⟩ := hc.flush h hdb hK hmax (List.cons_ne_nil r _)
    exact ⟨_, by rw [hflush]; rfl, hc'⟩
  · exact ⟨_, rfl, hc⟩

theorem writeAll_collects (h : db.pKeyInfo.Compares K le) (hdb : 0 < db.pageSize) (hs : s.Collects K le written)
    (hK : ∀ y ∈ written ++ l.map Prod.fst, K y ∧ y.length ≤ 2 ^ 30)
    (hmax : fileBound (written ++ l.map Prod.fst) < 2 ^ 31) :
    ∃ s', writeAll db s l = some s' ∧ s'.Collects K le (written ++ l.map Prod.fst) := by
  induction l generalizing s written with
  | nil => exact ⟨s, rfl, by simpa using hs⟩
  | cons x l ih =>
    obtain ⟨r, nearlyFull⟩ := x
    rw [List.map_cons, List.append_cons] at hK hmax ⊢
    dsimp only at hK hmax ⊢
    have hle := fileBound_append (written ++ [r]) (l.map Prod.fst)
    obtain ⟨s₁, hw, hs₁⟩ := write_collects h hdb hs (fun y hy => hK y (List.mem_append_left _ hy)) (by omega) nearlyFull
    obtain ⟨s', heq, hs'⟩ := ih hs₁ hK hmax
    exact ⟨s', by rw [writeAll, hw]; exact heq, hs'⟩

theorem init_collects : (sqlite3VdbeSorterInit db).Collects K le [] :=
  ⟨rfl, rfl, ⟨[], [], .nil, rfl, (by simp), ⟨Nat.zero_le _, by norm_num [sqlite3VdbeSorterInit], rfl⟩, rfl⟩, rfl,
    le_rfl⟩

/-! The way out. -/

theorem takeAll_list (hs : s.aTree = []) (hn : s.pRecord.length ≤ n) :
    takeAll db n s s.pRecord.isEmpty = some s.pRecord := by
  induction n generalizing s with
  | zero =>
    have hnil := List.eq_nil_of_length_eq_zero (Nat.le_zero.mp hn)
    rw [hnil]
    rfl
  | succ n ih =>
    cases hp : s.pRecord with
    | nil => rfl
    | cons r pRecord =>
      rw [hp, List.length_cons] at hn
      have hrest := ih (s := { s with pRecord }) hs (by dsimp only; omega)
      dsimp only at hrest
      have hkey : vdbeSorterRowkey s = some r := by
        rw [vdbeSorterRowkey, if_neg (fun h => h hs), hp]
        rfl
      have hnext : sqlite3VdbeSorterNext db s = some ({ s with pRecord }, pRecord.isEmpty) := by
        rw [sqlite3VdbeSorterNext, if_neg (fun h => h hs), hp]
      rw [List.isEmpty_cons, takeAll, hkey, hnext]
      simp only [Option.bind_eq_bind, Option.bind_some, hrest]

theorem takeAll_delivers (h : Delivers db s out s') (hn : out.length ≤ n) :
    takeAll db n s out.isEmpty = some out := by
  induction h generalizing n with
  | done s => cases n <;> rfl
  | @next s s₁ s₂ p r out hne hl hkey hnext hdel ih =>
    obtain ⟨n, rfl⟩ := Nat.exists_eq_succ_of_ne_zero (Nat.ne_zero_of_lt hn)
    rw [List.length_cons] at hn
    have hrow : vdbeSorterRowkey s = some r := by
      rw [vdbeSorterRowkey, if_pos hne, hl]
      exact hkey
    rw [List.isEmpty_cons, Nat.succ_eq_add_one, takeAll, hrow, hnext]
    simp only [Option.bind_eq_bind, Option.bind_some, ih (n := n) (by omega)]

theorem treeSize_spec (hn : n ≤ 16) : ∃ k, 0 < k ∧ treeSize n 16 2 = some (2 ^ k) ∧ n ≤ 2 ^ k := by
  have key : ∀ n < 17, treeSize n 16 2 =
      some (2 ^ if n ≤ 2 then 1 else if n ≤ 4 then 2 else if n ≤ 8 then 3 else 4) := by
    decide
  refine ⟨_, ?_, key n (by omega), ?_⟩
  · split_ifs <;> omega
  · split_ifs <;> omega

/-- Of the records in memory, if there are any, a run is made before the runs are merged. -/
theorem VdbeSorter.Collects.flushRest (h : db.pKeyInfo.Compares K le) (hdb : 0 < db.pageSize)
    (hs : s.Collects K le written) (hK : ∀ y ∈ written, K y ∧ y.length ≤ 2 ^ 30) (hmax : fileBound written < 2 ^ 31)
    (h0 : s.nPMA ≠ 0) :
    ∃ s', vdbeSorterListToPMA db s = some s' ∧ VdbeSorter.Collects K le { s' with nInMemory := 0 } written ∧
      s'.pRecord = [] ∧ s'.nPMA ≠ 0 := by
  obtain hnil | hne := eq_or_ne s.pRecord []
  · obtain ⟨gs, rs, hall, hw, hruns, hst, hnPMA⟩ := hs.runs
    have hsize := hs.nInMemory
    rw [hnil, content_nil, List.length_nil] at hsize
    refine ⟨s, if_pos hsize, ⟨hs.aTree, hs.iReadOff, ⟨gs, rs, hall, hw, hruns, ⟨hst.file, hst.small, hst.eq⟩, hnPMA⟩,
      ?_, hs.bound⟩, hnil, h0⟩
    dsimp only
    rw [hnil, content_nil, List.length_nil]
  · obtain ⟨s', hflush, hc, hp, hn⟩ := hs.flush h hdb hK hmax hne
    exact ⟨s', hflush, hc, hp, by omega⟩

/-- The records come out of the memory, or of the merge of the runs. -/
theorem rewind_spec (h : db.pKeyInfo.Compares K le) (hdb : 0 < db.pageSize) (hs : s.Collects K le written)
    (hK : ∀ y ∈ written, K y ∧ y.length ≤ 2 ^ 30) (hmax : fileBound written < 2 ^ 31) :
    ∃ s' bEof out, sqlite3VdbeSorterRewind db s = some (s', bEof) ∧ StableSort K le written out ∧
      takeAll db written.length s' bEof = some out := by
  obtain ⟨gs, rs, hall, hw, -, -, hnPMA⟩ := hs.runs
  unfold sqlite3VdbeSorterRewind
  obtain h0 | h0 := eq_or_ne s.nPMA 0
  · obtain rfl := List.eq_nil_of_length_eq_zero (hnPMA.symm.trans h0)
    cases hall
    rw [List.flatten_nil, List.nil_append] at hw
    have hbound := hs.bound
    have hfb := fileBound_eq s.pRecord
    obtain ⟨pRecord, pUnpacked, hsort, hout⟩ :=
      sort_spec h s (fun y hy => (hK y (by rw [hw]; exact List.mem_reverse.mpr hy)).1) (by omega)
    have hlen := hout.perm.length_eq
    have hempty : s.pRecord.isEmpty = pRecord.isEmpty := by
      rw [List.length_reverse] at hlen
      rw [Bool.eq_iff_iff, List.isEmpty_iff_length_eq_zero, List.isEmpty_iff_length_eq_zero, hlen]
    rw [← hw] at hout hlen
    refine ⟨{ s with pRecord, pUnpacked }, pRecord.isEmpty, pRecord, ?_, hout, ?_⟩
    · rw [if_pos h0, hsort, hempty]
      rfl
    · exact takeAll_list (s := { s with pRecord, pUnpacked }) hs.aTree (by dsimp only; omega)
  · obtain ⟨s₁, hflush, hc, hp, hn⟩ := hs.flushRest h hdb hK hmax h0
    obtain ⟨gs₁, rs₁, hall₁, hw₁, hruns₁, hst₁, hnPMA₁⟩ := hc.runs
    dsimp only at hw₁ hnPMA₁
    rw [hp, List.reverse_nil, List.append_nil] at hw₁
    obtain ⟨k, hk, htree, hle⟩ := treeSize_spec (n := min s₁.nPMA 16) (Nat.min_le_right _ _)
    have hidle : VdbeSorter.Idle { s₁ with
        aIter := List.replicate (2 ^ k) VdbeSorterIter.vdbeSorterIterZero, aTree := List.replicate (2 ^ k) 0
        nTree := 2 ^ k } k :=
      ⟨rfl, hk, List.length_replicate, List.length_replicate, fun j hj => by rw [List.getElem?_replicate, if_pos hj]⟩
    obtain ⟨s', rs', hloop, hready, hl, -, hrs', hmerge⟩ := mergeLoops_spec h hdb hidle
      ⟨hst₁.file, hst₁.small, hst₁.eq⟩ (List.ne_nil_of_length_pos (by omega)) hruns₁ (by omega) hnPMA₁ hc.iReadOff
      (le_of_eq hnPMA₁.symm) []
    have hrun := isRun_getD hrs'
    obtain ⟨out, u, aTree, aIter, hdel, hout, -⟩ := delivers_spec h hready (fun j y hy => ((hrun j).2 y hy).1)
      (fun j y hy => ((hrun j).2 y hy).2) fun j => (hrun j).1
    obtain ⟨w, p, -, hleast, -, hhead, hh⟩ := hready.least h.order fun j y hy => ((hrun j).2 y hy).1
    have heof : (!p.pFile) = out.isEmpty := by
      rw [all_isEmpty hleast hh, ← all_remaining, Bool.eq_iff_iff, List.isEmpty_iff, List.isEmpty_iff]
      exact ⟨fun h0 => List.perm_nil.mp (h0 ▸ hout.perm), fun h0 => List.perm_nil.mp (h0 ▸ hout.perm.symm)⟩
    rw [remaining, flatten_getD _ hl] at hout
    have hsorted := (hmerge out hout).flatten hall₁
    rw [← hw₁] at hsorted
    refine ⟨s', out.isEmpty, out, ?_, hsorted, takeAll_delivers hdel (le_of_eq hsorted.perm.length_eq)⟩
    rw [if_neg h0]
    simp only [hflush, SORTER_MAX_MERGE_COUNT, htree, hloop, hhead, heof, Option.bind_eq_bind, Option.bind_some]

/-- Whatever the sizes of pages and of the cache, the contents of fresh memory and the fill of the heap are, and
however many runs and passes that makes: all records come out, in order, and records that compare equal in the
order in which they went in. There is one such list only. -/
theorem sortRecords_spec (h : db.pKeyInfo.Compares K le) (hdb : 0 < db.pageSize)
    (hK : ∀ y ∈ l.map Prod.fst, K y ∧ y.length ≤ 2 ^ 30) (hmax : fileBound (l.map Prod.fst) < 2 ^ 31) :
    ∃ out, sortRecords db l = some out ∧ StableSort K le (l.map Prod.fst) out ∧
      ∀ out', StableSort K le (l.map Prod.fst) out' → out' = out := by
  have hinit : (sqlite3VdbeSorterInit db).Collects K le [] := init_collects
  obtain ⟨s, hw, hs⟩ := writeAll_collects h hdb hinit hK hmax
  obtain ⟨s', bEof, out, hrewind, hout, htake⟩ := rewind_spec h hdb hs hK hmax
  rw [List.nil_append, List.length_map] at htake
  refine ⟨out, ?_, hout, fun out' hout' => hout'.unique h.order hout fun y hy => (hK y hy).1⟩
  simp only [sortRecords, hw, hrewind, htake, Option.bind_eq_bind, Option.bind_some]

end

/-! Records as keys: they are unpacked and compared by their values. -/

section Records

variable (toDouble : ℤ → ℕ) (sqlite3ValueText : Utf.Enc → Utf.Enc → Bytes → Option Bytes)
  (serialGet : Option Bytes → ℕ → Option Mem) (k : Record.KeyInfo)

/-- The functions for records as the sorter calls them. -/
def recordKeys : KeyInfo UnpackedRecord where
  unpack := sqlite3VdbeRecordUnpack serialGet k
  recordCompare aKey1 r2 := (sqlite3VdbeRecordCompare toDouble sqlite3ValueText serialGet aKey1 r2).map Prod.fst

/-- The first record does not come behind the second one. -/
def recordLe (aKey1 aKey2 : Bytes) : Bool :=
  (compareUnpacked toDouble sqlite3ValueText serialGet k aKey1 aKey2).any fun res => res ≤ 0

end Records

/-- The bytes of some records. -/
def Stored (S : StoredRecord → Prop) (b : Bytes) : Prop := ∃ r, S r ∧ b = encode r.fields

section

variable {toDouble : ℤ → ℕ} {sqlite3ValueText : Utf.Enc → Utf.Enc → Bytes → Option Bytes}
  {serialGet : Option Bytes → ℕ → Option Mem} {k : Record.KeyInfo} {S : StoredRecord → Prop} {n : ℕ}

theorem compareUnpacked_recordKeys (aKey1 aKey2 : Bytes) :
    compareUnpacked toDouble sqlite3ValueText serialGet k aKey1 aKey2 = (do
      (recordKeys toDouble sqlite3ValueText serialGet k).recordCompare aKey1
        (← (recordKeys toDouble sqlite3ValueText serialGet k).unpack aKey2)) := by
  unfold compareUnpacked
  congr 1
  funext r2
  change _ = (sqlite3VdbeRecordCompare toDouble sqlite3ValueText serialGet aKey1 r2).map Prod.fst
  cases sqlite3VdbeRecordCompare toDouble sqlite3ValueText serialGet aKey1 r2 with
  | none => rfl
  | some res => rfl

/-- Where all fields are unpacked, the first difference of the fields decides. -/
theorem compareUnpacked_stored (hround : Rounds toDouble) (hreads : Record.Reads serialGet) (hk : k.IsOrder)
    (hn : ∀ r, S r → r.fields.length = n) (hle : n ≤ k.nField + 1) {a b : StoredRecord} (ha : S a) (hb : S b) :
    compareUnpacked toDouble sqlite3ValueText serialGet k (encode a.fields) (encode b.fields) =
      some (fieldsOrder toDouble sqlite3ValueText serialGet k a b) := by
  have hlen := hn a ha
  rw [compareUnpacked_eq sqlite3ValueText hround hreads hk, recordOrder_eq k (hlen.trans (hn b hb).symm)]
  congr 1
  split_ifs with h₁ h₂
  · rfl
  · omega
  · exact (not_not.mp h₁).symm

theorem recordLe_iff (hround : Rounds toDouble) (hreads : Record.Reads serialGet) (hk : k.IsOrder)
    (hn : ∀ r, S r → r.fields.length = n) (hle : n ≤ k.nField + 1) {a b : StoredRecord} (ha : S a) (hb : S b) :
    recordLe toDouble sqlite3ValueText serialGet k (encode a.fields) (encode b.fields) ↔
      fieldsOrder toDouble sqlite3ValueText serialGet k a b ≤ 0 := by
  rw [recordLe, compareUnpacked_stored hround hreads hk hn hle ha hb, Option.any_some, decide_eq_true_iff]

/-- The comparison of records is one that the sorter can use. -/
theorem recordKeys_compares (hround : Rounds toDouble) (hreads : Record.Reads serialGet) (hk : k.IsOrder)
    (hn : ∀ r, S r → r.fields.length = n) (hle : n ≤ k.nField + 1)
    (hclash : ∀ i, ¬Clash toDouble (column serialGet S i)) :
    (recordKeys toDouble sqlite3ValueText serialGet k).Compares (Stored S)
      (recordLe toDouble sqlite3ValueText serialGet k) := by
  have hanti : Antisymm (fieldsOrder toDouble sqlite3ValueText serialGet k) := antisymm_fieldsOrder hk
  have htrans : TransOn (fieldsOrder toDouble sqlite3ValueText serialGet k) S :=
    transOn_fieldsOrder hround hreads hk hn hclash
  have hiff : ∀ {a b : StoredRecord}, S a → S b →
      (recordLe toDouble sqlite3ValueText serialGet k (encode a.fields) (encode b.fields) ↔
        fieldsOrder toDouble sqlite3ValueText serialGet k a b ≤ 0) :=
    fun ha hb => recordLe_iff hround hreads hk hn hle ha hb
  refine ⟨⟨?_, ?_⟩, ?_⟩
  · rintro _ _ ⟨a, ha, rfl⟩ ⟨b, hb, rfl⟩
    rw [hiff ha hb, hiff hb ha]
    have hab := hanti a b
    omega
  · rintro _ _ _ ⟨a, ha, rfl⟩ ⟨b, hb, rfl⟩ ⟨c, hc, rfl⟩
    rw [hiff ha hb, hiff hb hc, hiff ha hc]
    exact htrans a b c ha hb hc
  · rintro _ _ ⟨a, ha, rfl⟩ ⟨b, hb, rfl⟩
    have hcompare := @compareUnpacked_recordKeys toDouble sqlite3ValueText serialGet k (encode a.fields)
      (encode b.fields)
    have hunpack : (recordKeys toDouble sqlite3ValueText serialGet k).unpack (encode b.fields) =
        some (b.unpacked serialGet k) := recordUnpack_spec hreads k b
    rw [compareUnpacked_stored hround hreads hk hn hle ha hb, hunpack, Option.bind_eq_bind,
      Option.bind_some] at hcompare
    exact ⟨_, _, hunpack, hcompare.symm, (hiff ha hb).symm⟩

/-- All records come out in the order of their values, and records of equal values in the order in which they went
in, whatever the sizes of pages and of the cache, the contents of fresh memory and the fill of the heap are, and
however many runs and passes over the file that makes. There is one such list only. -/
theorem sortRecords_stored (hround : Rounds toDouble)
    (hget : serialGet = serialGetAsWritten ∨ serialGet = sqlite3VdbeSerialGet) (hk : k.IsOrder)
    (hn : ∀ r, S r → r.fields.length = n) (hle : n ≤ k.nField + 1)
    (hclash : ∀ i, ¬Clash toDouble (column serialGet S i)) (db : Db UnpackedRecord)
    (hkeys : db.pKeyInfo = recordKeys toDouble sqlite3ValueText serialGet k) (hdb : 0 < db.pageSize)
    (l : List (Bytes × Bool)) (hl : ∀ y ∈ l.map Prod.fst, Stored S y ∧ y.length ≤ 2 ^ 30)
    (hmax : fileBound (l.map Prod.fst) < 2 ^ 31) :
    ∃ out, sortRecords db l = some out ∧
      StableSort (Stored S) (recordLe toDouble sqlite3ValueText serialGet k) (l.map Prod.fst) out ∧
      ∀ out', StableSort (Stored S) (recordLe toDouble sqlite3ValueText serialGet k) (l.map Prod.fst) out' →
        out' = out := by
  have hreads : Record.Reads serialGet := by
    obtain rfl | rfl := hget
    · exact reads_asWritten
    · exact reads_serialGet
  have hcompares : db.pKeyInfo.Compares (Stored S) (recordLe toDouble sqlite3ValueText serialGet k) := by
    rw [hkeys]
    exact recordKeys_compares hround hreads hk hn hle hclash
  exact sortRecords_spec hcompares hdb hl hmax

/-- The smallest pages and cache: a run is written out at 5120 bytes. -/
def smallDb : Db UnpackedRecord where
  pageSize := 512
  cache_size := 0
  tempInMemory := false
  raw _ := 0
  pKeyInfo := recordKeys Binary64.ofInt (fun _ _ z => some z) serialGetAsWritten oneColumn

def padding : Bytes := List.replicate 5199 0

theorem length_padding : padding.length = 5199 := List.length_replicate

theorem length_blob (v : UInt8) : (v :: padding).length = sqlite3VdbeSerialTypeLen 10412 := by
  rw [List.length_cons, length_padding]
  decide

/-- A blob of 5200 bytes. -/
def blobField (v : UInt8) : Field where
  serial_type := 10412
  content := v :: padding
  type_lt := by decide
  length_content := length_blob v

theorem length_blobRecord (v : UInt8) : (encode [blobField v]).length = 5203 := by
  have hhdr : (sqlite3PutVarint (headerSize (sqlite3PutVarint 10412).length) ++
      sqlite3PutVarint 10412).length = 3 := by decide
  have htypes : types [blobField v] = sqlite3PutVarint 10412 := List.append_nil _
  have hcontents : contents [blobField v] = v :: padding := List.append_nil _
  rw [encode, hdrSize, htypes, hcontents, List.length_append, hhdr, List.length_cons, length_padding]

/-- A blob is no number. -/
theorem mem_blob (b : Bytes) : ((serialGetAsWritten (some b) 10412).getD {}).int = false ∧
    ((serialGetAsWritten (some b) 10412).getD {}).real = false := by
  have hread : serialGetAsWritten (some b) 10412 =
      if sqlite3VdbeSerialTypeLen 10412 ≤ b.length then _ else none := rfl
  rw [hread]
  split <;> exact ⟨rfl, rfl⟩

def blobRecord (v : UInt8) : StoredRecord where
  fields := [blobField v]
  size_lt := by rw [length_blobRecord]; decide

/-- Seventeen blobs, each more than memory holds. -/
def seventeenBlobs : List (Bytes × Bool) :=
  (List.range 17).map fun i => (encode (blobRecord (.ofNat (5 * i % 17))).fields, false)

/-- Each record is a run of its own, and there are too many runs for one pass. -/
theorem sortRecords_stored_blobs :
    SORTER_MAX_MERGE_COUNT < seventeenBlobs.length ∧
      (∀ y ∈ seventeenBlobs.map Prod.fst, SORTER_MIN_WORKING * smallDb.pageSize < y.length) ∧
      ∃ out, sortRecords smallDb seventeenBlobs = some out ∧
        StableSort (Stored fun r => ∃ v, r = blobRecord v)
          (recordLe Binary64.ofInt (fun _ _ z => some z) serialGetAsWritten oneColumn)
          (seventeenBlobs.map Prod.fst) out := by
  have hmem : ∀ y ∈ seventeenBlobs.map Prod.fst, ∃ v, y = encode (blobRecord v).fields := by
    intro y hy
    rw [seventeenBlobs, List.map_map] at hy
    obtain ⟨i, -, rfl⟩ := List.mem_map.mp hy
    exact ⟨_, rfl⟩
  have hstored : ∀ y ∈ seventeenBlobs.map Prod.fst, Stored (fun r => ∃ v, r = blobRecord v) y := by
    intro y hy
    obtain ⟨v, rfl⟩ := hmem y hy
    exact ⟨_, ⟨v, rfl⟩, rfl⟩
  have hlen : ∀ y ∈ seventeenBlobs.map Prod.fst, y.length = 5203 := by
    intro y hy
    obtain ⟨v, rfl⟩ := hmem y hy
    exact length_blobRecord v
  have hn : ∀ r, (∃ v, r = blobRecord v) → r.fields.length = 1 := by
    rintro r ⟨v, rfl⟩
    rfl
  have hclash : ∀ i, ¬Clash Binary64.ofInt (column serialGetAsWritten (fun r => ∃ v, r = blobRecord v) i) := by
    rintro i ⟨-, -, r, -, -, ⟨-, ⟨v, rfl⟩, hv⟩, -⟩
    obtain _ | i := i
    · have hvalue : ((blobField v).mem serialGetAsWritten).value = Value.real r := Option.some.inj hv
      have hmem : (blobField v).mem serialGetAsWritten =
          (serialGetAsWritten (some (v :: padding)) 10412).getD {} := rfl
      obtain ⟨hint, hreal⟩ := mem_blob (v :: padding)
      rw [← hmem] at hint hreal
      rw [Mem.value, hint, hreal] at hvalue
      split_ifs at hvalue
    · cases hv
  have hmax : fileBound (seventeenBlobs.map Prod.fst) < 2 ^ 31 := by
    have hone : ∀ n ∈ (seventeenBlobs.map Prod.fst).map fun r => (record r).length + 9, n ≤ 6000 := by
      intro n hn
      obtain ⟨y, hy, rfl⟩ := List.mem_map.mp hn
      have hvarint : (sqlite3PutVarint 5203).length = 2 := by decide
      rw [record, List.length_append, hlen y hy, hvarint]
      decide
    refine (List.sum_le_card_nsmul _ _ hone).trans_lt ?_
    rw [List.length_map, List.length_map, seventeenBlobs, List.length_map, List.length_range]
    decide
  obtain ⟨out, hsort, hout, -⟩ := sortRecords_stored rounds_ofInt (.inl rfl) isOrder_oneColumn hn (by decide) hclash
    smallDb rfl (by decide) seventeenBlobs
    (fun y hy => ⟨hstored y hy, by rw [hlen y hy]; decide⟩) hmax
  exact ⟨by decide, fun y hy => by rw [hlen y hy]; decide, out, hsort, hout⟩

end

end Sqlite.Sorter

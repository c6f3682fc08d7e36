import Sqlite.Rowset.Calls

/-! Whole runs of a row set: each test sees the values that were inserted before the last change of
the batch number. -/
namespace Sqlite.Rowset

inductive RowSetOp
  | insert (rowid : ℤ)
  | test (iBatch : ℕ) (iRowid : ℤ)

def step (s : RowSet) : RowSetOp → Option RowSet
  | .insert rowid => some (sqlite3RowSetInsert s rowid)
  | .test iBatch iRowid => (sqlite3RowSetTest s iBatch iRowid).map Prod.fst

def run (s : RowSet) : List RowSetOp → Option RowSet
  | [] => some s
  | op :: ops => (step s op).bind fun s => run s ops

/-- The batch number in force after a call. -/
def nextBatch (iBatch : ℕ) : RowSetOp → ℕ
  | .insert _ => iBatch
  | .test b _ => b

def batchInForce (ops : List RowSetOp) : ℕ := ops.foldl nextBatch 0

/-- Call `k` is a test whose batch number is not the one in force before it. -/
def Changes (ops : List RowSetOp) (k : ℕ) : Prop :=
  ∃ b r, ops[k]? = some (.test b r) ∧ b ≠ batchInForce (ops.take k)

/-- The value was inserted before the most recent test that changed the batch number. -/
def Visible (ops : List RowSetOp) (r : ℤ) : Prop :=
  ∃ k, Changes ops k ∧ (∀ j, Changes ops j → j ≤ k) ∧ .insert r ∈ ops.take k

/-- The values inserted since the batch number last changed, after a call. -/
def nextWaiting (h : ℕ × List ℤ) : RowSetOp → ℕ × List ℤ
  | .insert v => (h.1, h.2 ++ [v])
  | .test b _ => (b, if b = h.1 then h.2 else [])

def waiting (ops : List RowSetOp) : List ℤ := (ops.foldl nextWaiting (0, [])).2

/-- At each test that changes the batch number, fewer than 2^40 values are waiting, or they were
inserted in increasing order. -/
def Fits (ops : List RowSetOp) : Prop :=
  ∀ k, Changes ops k → (waiting (ops.take k)).length < 2 ^ 40 ∨ (waiting (ops.take k)).Pairwise (· < ·)

variable {ops : List RowSetOp} {op : RowSetOp} {s : RowSet} {b k n : ℕ} {r v : ℤ} {mem : Heap}

theorem batchInForce_append : batchInForce (ops ++ [op]) = nextBatch (batchInForce ops) op := by
  simp [batchInForce]

theorem waiting_fst (ops : List RowSetOp) : (ops.foldl nextWaiting (0, [])).1 = batchInForce ops := by
  induction ops using List.reverseRecOn with
  | nil => rfl
  | append_singleton ops op ih =>
    rw [batchInForce_append, List.foldl_append, ← ih]
    cases op <;> rfl

theorem waiting_insert : waiting (ops ++ [.insert v]) = waiting ops ++ [v] := by
  simp [waiting, nextWaiting]

theorem waiting_test :
    waiting (ops ++ [.test b r]) = if b = batchInForce ops then waiting ops else [] := by
  rw [← waiting_fst]
  simp [waiting, nextWaiting]

theorem Changes.lt (h : Changes ops k) : k < ops.length := by
  obtain ⟨b, r, hk, -⟩ := h
  exact (List.getElem?_eq_some_iff.mp hk).1

theorem changes_append_of_lt (hk : k < ops.length) : Changes (ops ++ [op]) k ↔ Changes ops k := by
  simp only [Changes, List.getElem?_append_left hk, List.take_append_of_le_length hk.le]

theorem changes_append_length :
    Changes (ops ++ [op]) ops.length ↔ ∃ b r, op = .test b r ∧ b ≠ batchInForce ops := by
  simp [Changes]

theorem Changes.of_append (h : Changes (ops ++ [op]) k) (hop : ¬ Changes (ops ++ [op]) ops.length) :
    Changes ops k := by
  have hlt := h.lt
  rw [List.length_append, List.length_singleton] at hlt
  rcases Nat.lt_succ_iff_lt_or_eq.mp hlt with hk | rfl
  · exact (changes_append_of_lt hk).mp h
  · exact absurd h hop

/-- A call that keeps the batch number keeps what is visible. -/
theorem visible_append (hop : ¬ Changes (ops ++ [op]) ops.length) :
    Visible (ops ++ [op]) r ↔ Visible ops r := by
  constructor
  · rintro ⟨k, hk, hmax, hins⟩
    have hk' := hk.of_append hop
    rw [List.take_append_of_le_length hk'.lt.le] at hins
    exact ⟨k, hk', fun j hj => hmax j ((changes_append_of_lt hj.lt).mpr hj), hins⟩
  · rintro ⟨k, hk, hmax, hins⟩
    refine ⟨k, (changes_append_of_lt hk.lt).mpr hk, fun j hj => hmax j (hj.of_append hop), ?_⟩
    rwa [List.take_append_of_le_length hk.lt.le]

/-- A new batch number makes all values visible. -/
theorem visible_append_change (hop : Changes (ops ++ [op]) ops.length) :
    Visible (ops ++ [op]) r ↔ .insert r ∈ ops := by
  have hmax : ∀ j, Changes (ops ++ [op]) j → j ≤ ops.length := by
    intro j hj
    have hlt := hj.lt
    rw [List.length_append, List.length_singleton] at hlt
    omega
  constructor
  · rintro ⟨k, hk, hlast, hins⟩
    obtain rfl := le_antisymm (hmax k hk) (hlast _ hop)
    rwa [List.take_left] at hins
  · intro hins
    exact ⟨ops.length, hop, hmax, by rwa [List.take_left]⟩

theorem not_changes_insert : ¬ Changes (ops ++ [.insert v]) ops.length := by
  simp [changes_append_length]

theorem not_changes_test (hb : b = batchInForce ops) : ¬ Changes (ops ++ [.test b v]) ops.length := by
  rw [changes_append_length]
  rintro ⟨b', r', heq, hne⟩
  cases heq
  exact hne hb

/-- A value was inserted when it is visible or waiting. -/
theorem insert_mem_iff (ops : List RowSetOp) (r : ℤ) :
    .insert r ∈ ops ↔ Visible ops r ∨ r ∈ waiting ops := by
  induction ops using List.reverseRecOn with
  | nil => simp [Visible, Changes, waiting]
  | append_singleton ops op ih =>
    cases op with
    | insert v =>
      rw [visible_append not_changes_insert, waiting_insert]
      simp only [List.mem_append, List.mem_singleton, RowSetOp.insert.injEq, ih, or_assoc]
    | test b v =>
      rw [waiting_test]
      by_cases hb : b = batchInForce ops
      · rw [visible_append (not_changes_test hb), if_pos hb]
        simpa using ih
      · have hop : Changes (ops ++ [.test b v]) ops.length :=
          changes_append_length.mpr ⟨b, v, rfl, hb⟩
        rw [visible_append_change hop, if_neg hb]
        simp

theorem visible_test : Visible (ops ++ [.test b v]) r ↔
    Visible ops r ∨ (b ≠ batchInForce ops ∧ r ∈ waiting ops) := by
  by_cases hb : b = batchInForce ops
  · rw [visible_append (not_changes_test hb)]
    simp [hb]
  · rw [visible_append_change (changes_append_length.mpr ⟨b, v, rfl, hb⟩), insert_mem_iff]
    simp [hb]

theorem run_append : run s (ops ++ [op]) = (run s ops).bind fun s => step s op := by
  induction ops generalizing s with
  | nil => simp [run]
  | cons o ops ih =>
    rw [List.cons_append, run, run, Option.bind_assoc]
    congr 1
    funext s
    exact ih

theorem Fits.prefix (h : Fits (ops ++ [op])) : Fits ops := by
  intro k hk
  have hfit := h k ((changes_append_of_lt hk.lt).mpr hk)
  rwa [List.take_append_of_le_length hk.lt.le] at hfit

theorem Fits.last (h : Fits (ops ++ [.test b r])) (hb : b ≠ batchInForce ops) :
    (waiting ops).length < 2 ^ nBucket ∨ (waiting ops).Pairwise (· < ·) := by
  have hfit := h ops.length (changes_append_length.mpr ⟨b, r, rfl, hb⟩)
  rwa [List.take_left] at hfit

/-- After a run, the row set holds the visible and the waiting values of its history. -/
theorem run_holds (mem : Heap) (h : Fits ops) :
    ∃ s, run (sqlite3RowSetInit mem) ops = some s ∧ s.iBatch = batchInForce ops ∧
      Holds s (waiting ops) (Visible ops) := by
  induction ops using List.reverseRecOn with
  | nil =>
    refine ⟨_, rfl, rfl, ?_⟩
    have hnone : Visible [] = fun _ => False := by
      funext x
      simp [Visible, Changes]
    rw [hnone]
    exact holds_init mem
  | append_singleton ops op ih =>
    obtain ⟨s, hs, hbatch, hholds⟩ := ih h.prefix
    rw [run_append, hs, Option.bind_some, batchInForce_append]
    cases op with
    | insert v =>
      have hvis : Visible (ops ++ [.insert v]) = Visible ops :=
        funext fun x => propext (visible_append not_changes_insert)
      refine ⟨_, rfl, ?_, ?_⟩
      · rw [nextBatch, ← hbatch, sqlite3RowSetInsert]
        cases s.pLast <;> rfl
      · rw [waiting_insert, hvis]
        exact sqlite3RowSetInsert_spec hholds
    | test b r =>
      obtain ⟨s', found, htest, hb', hholds', -⟩ :=
        sqlite3RowSetTest_spec (r := r) hholds (fun hb => h.last (hbatch ▸ hb))
      have hvis : Visible (ops ++ [.test b r]) = fun x => Visible ops x ∨ (b ≠ s.iBatch ∧ x ∈ waiting ops) := by
        funext x
        rw [hbatch, visible_test]
      refine ⟨s', by rw [step, htest, Option.map_some], hb', ?_⟩
      rw [waiting_test, hvis, ← hbatch]
      exact hholds'

/-- In each run that fits, a test tells whether the value is visible with its batch number. -/
theorem rowset_sound (mem : Heap) (ops : List RowSetOp) (iBatch : ℕ) (iRowid : ℤ)
    (h : Fits (ops ++ [.test iBatch iRowid])) :
    ∃ s s' found, run (sqlite3RowSetInit mem) ops = some s ∧
      sqlite3RowSetTest s iBatch iRowid = some (s', found) ∧
      (found = true ↔ Visible (ops ++ [.test iBatch iRowid]) iRowid) := by
  obtain ⟨s, hs, hbatch, hholds⟩ := run_holds mem h.prefix
  obtain ⟨s', found, htest, -, -, hfound⟩ :=
    sqlite3RowSetTest_spec (r := iRowid) hholds (fun hb => h.last (hbatch ▸ hb))
  refine ⟨s, s', found, hs, htest, ?_⟩
  rw [hfound, hbatch, visible_test]

theorem length_waiting_le (ops : List RowSetOp) : (waiting ops).length ≤ ops.length := by
  induction ops using List.reverseRecOn with
  | nil => simp [waiting]
  | append_singleton ops op ih =>
    rw [List.length_append, List.length_singleton]
    cases op with
    | insert v =>
      rw [waiting_insert, List.length_append, List.length_singleton]
      omega
    | test b v =>
      rw [waiting_test]
      split_ifs
      · omega
      · simp

theorem fits_of_length (h : ops.length < 2 ^ 40) : Fits ops := by
  intro k _
  have hle := length_waiting_le (ops.take k)
  have htake := List.length_take_le' k ops
  exact Or.inl (by omega)

theorem rowset_sound_five :
    ∃ s s' found, run (sqlite3RowSetInit fun _ => ⟨0, none, none⟩)
        [.insert 5, .insert 3, .test 1 5, .insert 4] = some s ∧
      sqlite3RowSetTest s 2 4 = some (s', found) ∧
      (found = true ↔ Visible ([.insert 5, .insert 3, .test 1 5, .insert 4] ++ [.test 2 4]) 4) :=
  rowset_sound _ _ _ _ (fits_of_length (by simp))

theorem run_replicate (mem : Heap) (n : ℕ) (v : ℤ) :
    ∃ s, run (sqlite3RowSetInit mem) (List.replicate n (.insert v)) = some s ∧ s.iBatch = 0 ∧
      Holds s (List.replicate n v) fun _ => False := by
  induction n with
  | zero => exact ⟨_, rfl, rfl, holds_init mem⟩
  | succ n ih =>
    obtain ⟨s, hs, hbatch, hholds⟩ := ih
    rw [List.replicate_succ', List.replicate_succ', run_append, hs, Option.bind_some]
    refine ⟨_, rfl, ?_, sqlite3RowSetInsert_spec hholds⟩
    rw [← hbatch, sqlite3RowSetInsert]
    cases s.pLast <;> rfl

theorem test_full (mem : Heap) (hn : 2 ^ nBucket ≤ n) :
    ∃ s, run (sqlite3RowSetInit mem) (List.replicate n (.insert 0)) = some s ∧
      sqlite3RowSetTest s 1 0 = none := by
  obtain ⟨s, hs, hbatch, hholds⟩ := run_replicate mem n 0
  have h2 : 1 < n := lt_of_lt_of_le (by decide) hn
  have hflush := flush_full hholds (by rwa [List.length_replicate])
    (by
      rw [List.pairwise_replicate]
      omega)
  refine ⟨s, hs, ?_⟩
  rw [sqlite3RowSetTest, hbatch, hflush]
  rfl

/-- With 2^40 equal values waiting, the sort leaves its array of 40 buckets. -/
theorem rowset_overflow :
    ∃ s, run (sqlite3RowSetInit fun _ => ⟨0, none, none⟩) (List.replicate (2 ^ nBucket) (.insert 0)) =
        some s ∧ sqlite3RowSetTest s 1 0 = none :=
  test_full _ le_rfl

end Sqlite.Rowset

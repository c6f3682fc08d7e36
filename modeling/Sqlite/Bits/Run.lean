import Sqlite.Bits.AllocSound

/-! Whole runs of a bit vector: a test tells whether the last call for the number was a set. -/
namespace Sqlite.Bits

open Foundation

inductive BitvecOp
  | set (i : ℕ)
  | clear (i : ℕ)
  | test (i : ℕ)

def BitvecOp.InRange (iSize : ℕ) : BitvecOp → Prop
  | set i => 1 ≤ i ∧ i ≤ iSize
  | clear i => 1 ≤ i ∧ i ≤ iSize
  | test _ => True

def step (ptr : ℕ) (p : Bitvec) : BitvecOp → Option Bitvec
  | .set i => sqlite3BitvecSet ptr p i
  | .clear i => sqlite3BitvecClear ptr p i
  | .test i => (sqlite3BitvecTest ptr p i).map fun _ => p

def run (ptr : ℕ) (p : Bitvec) : List BitvecOp → Option Bitvec
  | [] => some p
  | op :: ops => (step ptr p op).bind fun p => run ptr p ops

/-- The last set or clear of the number is a set. -/
def LastSet (ops : List BitvecOp) (i : ℕ) : Prop :=
  ∃ pre post, ops = pre ++ .set i :: post ∧ .clear i ∉ post

variable {ptr iSize i : ℕ} {p : Bitvec} {ops : List BitvecOp} {op : BitvecOp} {S : ℕ → Prop}

theorem lastSet_append : LastSet (ops ++ [op]) i ↔ op = .set i ∨ (op ≠ .clear i ∧ LastSet ops i) := by
  constructor
  · rintro ⟨pre, post, heq, hpost⟩
    rcases List.eq_nil_or_concat post with rfl | ⟨post, o, rfl⟩
    · exact Or.inl (List.append_inj_right' heq rfl |> List.cons.inj |>.1)
    · rw [List.concat_eq_append, ← List.cons_append, ← List.append_assoc] at heq
      obtain ⟨hops, ho⟩ := List.append_inj' heq rfl
      obtain rfl := (List.cons.inj ho).1
      simp only [List.concat_eq_append, List.mem_append, List.mem_singleton, not_or] at hpost
      exact Or.inr ⟨fun h => hpost.2 h.symm, pre, post, hops, hpost.1⟩
  · rintro (rfl | ⟨hop, pre, post, rfl, hpost⟩)
    · exact ⟨ops, [], rfl, by simp⟩
    · refine ⟨pre, post ++ [op], by simp, ?_⟩
      simp only [List.mem_append, List.mem_singleton, not_or]
      exact ⟨hpost, fun h => hop h.symm⟩

/-- The bit vector holds the numbers that were set last. -/
def Holds (ptr iSize : ℕ) (p : Bitvec) (ops : List BitvecOp) : Prop :=
  p ≠ .null ∧ Repr ptr iSize p (fun x => LastSet ops (x + 1)) ∧
    ∀ i, LastSet ops i → 1 ≤ i ∧ i ≤ iSize

theorem Holds.test (hptr : ptr = 4 ∨ ptr = 8) (h : Holds ptr iSize p ops) (i : ℕ) :
    ∃ b, sqlite3BitvecTest ptr p i = some b ∧ (b = true ↔ LastSet ops i) := by
  obtain ⟨hp, hrepr, hrange⟩ := h
  rw [sqlite3BitvecTest, hrepr.iSize_eq hp]
  split_ifs with hout
  · refine ⟨false, rfl, ?_⟩
    simp only [Bool.false_eq_true, false_iff]
    intro hlast
    have hr := hrange i hlast
    omega
  · obtain ⟨b, hb, hiff⟩ := testLoop_spec (nint_pos hptr) hrepr (by omega : i - 1 < iSize)
    have hi : i - 1 + 1 = i := by omega
    rw [hi] at hiff
    exact ⟨b, hb, hiff⟩

theorem Holds.step (hptr : ptr = 4 ∨ ptr = 8) (h : Holds ptr iSize p ops) (hop : op.InRange iSize) :
    ∃ p', step ptr p op = some p' ∧ Holds ptr iSize p' (ops ++ [op]) := by
  obtain ⟨hp, hrepr, hrange⟩ := h
  have hrange' : ∀ i, LastSet (ops ++ [op]) i → 1 ≤ i ∧ i ≤ iSize := by
    intro i hlast
    rcases lastSet_append.mp hlast with rfl | ⟨-, hlast⟩
    · exact hop
    · exact hrange i hlast
  cases op with
  | set i =>
    obtain ⟨h1, hle⟩ := hop
    -- without a failed allocation the call succeeds
    obtain ⟨r, S', hr, hne, hrepr', hafter⟩ := (Alloc.setLoop_sets hptr (fun _ => true) (2 * iSize + 2)).2 iSize
      le_rfl p _ (i - 1) 0 hrepr hp (by omega)
    have hp' : setLoop ptr (2 * iSize + 2) p (i - 1) = some r.p := by
      rw [← Alloc.setLoop_map (fun _ => rfl) p (i - 1) 0, hr, Option.map_some]
    refine ⟨r.p, ?_, hne, hrepr'.congr fun x => ?_, hrange'⟩
    · have hset : sqlite3BitvecSet ptr p i = checkedSet (setLoop ptr (2 * p.iSize + 2)) p i := by
        cases p with
        | null => exact absurd rfl hp
        | mk => rfl
      have hsize := hrepr.iSize_eq hp
      rw [Bits.step, hset, checkedSet, hsize, if_pos ⟨h1, hle⟩, hp']
    · have hx : x = i - 1 ↔ i = x + 1 := by omega
      rw [hafter.ok (hafter.rc_eq fun _ => rfl), lastSet_append, or_comm, hx]
      simp
  | clear i =>
    obtain ⟨h1, hle⟩ := hop
    obtain ⟨p', hp', hrepr', hne⟩ := clearLoop_spec (nint_pos hptr) hrepr (by omega : i - 1 < iSize)
    refine ⟨p', ?_, hne hp, hrepr'.congr fun x => ?_, hrange'⟩
    · have hclear : sqlite3BitvecClear ptr p i = if 0 < i then clearLoop ptr p (i - 1) else none := by
        cases p with
        | null => exact absurd rfl hp
        | mk => rfl
      rw [Bits.step, hclear, if_pos (by omega : 0 < i), hp']
    · have hx : x = i - 1 ↔ i = x + 1 := by omega
      rw [lastSet_append, Ne, hx, and_comm]
      simp
  | test i =>
    obtain ⟨b, hb, -⟩ := Holds.test hptr ⟨hp, hrepr, hrange⟩ i
    refine ⟨p, by rw [Bits.step, hb, Option.map_some], hp, hrepr.congr fun x => ?_, hrange'⟩
    rw [lastSet_append]
    simp

theorem run_append (p : Bitvec) (ops : List BitvecOp) (op : BitvecOp) :
    run ptr p (ops ++ [op]) = (run ptr p ops).bind fun p => step ptr p op := by
  induction ops generalizing p with
  | nil => simp [run]
  | cons o ops ih =>
    rw [List.cons_append, run, run, Option.bind_assoc]
    congr 1
    funext p
    exact ih p

theorem run_holds (hptr : ptr = 4 ∨ ptr = 8) (hmax : iSize ≤ 2147483646)
    (hops : ∀ op ∈ ops, BitvecOp.InRange iSize op) :
    ∃ p, run ptr (sqlite3BitvecCreate iSize) ops = some p ∧ Holds ptr iSize p ops := by
  induction ops using List.reverseRecOn with
  | nil =>
    refine ⟨_, rfl, by simp [sqlite3BitvecCreate], ?_, ?_⟩
    · have hnptr := (nptr_bounds hptr).2.1
      exact (repr_create (nint_pos hptr) (by omega)).congr fun x => by simp [LastSet]
    · simp [LastSet]
  | append_singleton ops op ih =>
    obtain ⟨p, hp, hholds⟩ := ih fun o ho => hops o (by simp [ho])
    obtain ⟨p', hp', hholds'⟩ := hholds.step hptr (hops op (by simp))
    exact ⟨p', by rw [run_append, hp, Option.bind_some, hp'], hholds'⟩

/-- A bit vector is a finite set, for pointers of 4 and of 8 bytes. -/
theorem bitvec_refines_set (hptr : ptr = 4 ∨ ptr = 8) (iSize : ℕ) (hmax : iSize ≤ 2147483646)
    (ops : List BitvecOp) (hops : ∀ op ∈ ops, op.InRange iSize) :
    ∃ p, run ptr (sqlite3BitvecCreate iSize) ops = some p ∧ ∀ i, ∃ b,
      sqlite3BitvecTest ptr p i = some b ∧ (b = true ↔ LastSet ops i) ∧
        (i < 1 ∨ iSize < i → b = false) := by
  obtain ⟨p, hp, hholds⟩ := run_holds hptr hmax hops
  refine ⟨p, hp, fun i => ?_⟩
  obtain ⟨b, hb, hiff⟩ := hholds.test hptr i
  refine ⟨b, hb, hiff, fun hout => Bool.eq_false_iff.mpr fun htrue => ?_⟩
  have hrange := hholds.2.2 i (hiff.mp htrue)
  omega

theorem bitvec_refines_set_five :
    ∃ p, run 8 (sqlite3BitvecCreate 5000) [.set 5, .set 4129, .clear 5, .test 9] = some p ∧ ∀ i, ∃ b,
      sqlite3BitvecTest 8 p i = some b ∧
        (b = true ↔ LastSet [.set 5, .set 4129, .clear 5, .test 9] i) ∧
        (i < 1 ∨ 5000 < i → b = false) :=
  bitvec_refines_set (Or.inr rfl) 5000 (by decide) _ (by simp [BitvecOp.InRange])

end Sqlite.Bits

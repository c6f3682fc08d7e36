import Sqlite.Bits.Insert

/-! Setting a bit when allocations may fail. -/
namespace Sqlite.Bits.Alloc

open Foundation

inductive Rc
  | SQLITE_OK
  | SQLITE_NOMEM
  deriving DecidableEq

/-- `rc |= ...` -/
def Rc.or : Rc → Rc → Rc
  | .SQLITE_OK, rc => rc
  | .SQLITE_NOMEM, _ => .SQLITE_NOMEM

/-- What a call returns, with the bit vector and the number of allocations made up to its end. -/
structure Result where
  rc : Rc
  p : Bitvec
  count : ℕ

/-- The assertions of `sqlite3BitvecSet` and `i--`; `f` is the rest of the function. -/
def checkedSet (f : Bitvec → ℕ → ℕ → Option Result) (p : Bitvec) (i count : ℕ) : Option Result :=
  if 0 < i ∧ i ≤ p.iSize then f p (i - 1) count else none

/-- The loop that sets the first `n` entries of the old hash table again. -/
def rehashLoop (f : Bitvec → ℕ → ℕ → Option Result) (aiValues : ℕ → ℕ) :
    ℕ → Result → Option Result
  | 0, r => some r
  | j + 1, r =>
    (rehashLoop f aiValues j r).bind fun r =>
      if aiValues j ≠ 0 then
        (checkedSet f r.p (aiValues j) r.count).map fun s => { s with rc := r.rc.or s.rc }
      else some r

/-- From `bitvec_set_rehash` on. `alloc k` tells whether allocation number `k` succeeds. -/
def setRehash (ptr : ℕ) (alloc : ℕ → Bool) (f : Bitvec → ℕ → ℕ → Option Result)
    (iSize nSet iDivisor : ℕ) (aBitmap : ℕ → BitVec 8) (aHash : ℕ → ℕ) (apSub : ℕ → Bitvec)
    (i h count : ℕ) : Option Result :=
  if BITVEC_MXHASH ptr ≤ nSet then
    if alloc count then
      (checkedSet f (.mk iSize nSet (divisor ptr iSize) (fun _ => 0) (fun _ => 0) (fun _ => .null)) i
        (count + 1)).bind
          (rehashLoop f aHash (BITVEC_NINT ptr))
    else some ⟨.SQLITE_NOMEM, .mk iSize nSet iDivisor aBitmap aHash apSub, count + 1⟩
  else
    some ⟨.SQLITE_OK, .mk iSize (nSet + 1) iDivisor aBitmap (Function.update aHash h i) apSub, count⟩

/-- `p->u.apSub[bin]`, created when it is missing; `none` if it cannot be. -/
def subOrNew (alloc : ℕ → Bool) (iDivisor count : ℕ) : Bitvec → Option (Bitvec × ℕ)
  | .null => if alloc count then some (sqlite3BitvecCreate iDivisor, count + 1) else none
  | p => some (p, count)

/-- `sqlite3BitvecSet` from `i--` on, with at most `n` levels of bit vectors and calls. -/
def setLoop (ptr : ℕ) (alloc : ℕ → Bool) : ℕ → Bitvec → ℕ → ℕ → Option Result
  | 0, _, _, _ => none
  | _ + 1, .null, _, _ => none
  | n + 1, .mk iSize nSet iDivisor aBitmap aHash apSub, i, count =>
    if BITVEC_NBIT ptr < iSize ∧ iDivisor ≠ 0 then
      match subOrNew alloc iDivisor count (apSub (i / iDivisor)) with
      | none => some ⟨.SQLITE_NOMEM, .mk iSize nSet iDivisor aBitmap aHash apSub, count + 1⟩
      | some (sub, count) =>
        (setLoop ptr alloc n sub (i % iDivisor) count).map fun r => { r with
          p := .mk iSize nSet iDivisor aBitmap aHash (Function.update apSub (i / iDivisor) r.p) }
    else if iSize ≤ BITVEC_NBIT ptr then
      some ⟨.SQLITE_OK, .mk iSize nSet iDivisor (Function.update aBitmap (i / BITVEC_SZELEM)
        (aBitmap (i / BITVEC_SZELEM) ||| bitMask i)) aHash apSub, count⟩
    else if aHash (BITVEC_HASH ptr i) = 0 then
      if nSet < BITVEC_NINT ptr - 1 then
        some ⟨.SQLITE_OK, .mk iSize (nSet + 1) iDivisor aBitmap
          (Function.update aHash (BITVEC_HASH ptr i) (i + 1)) apSub, count⟩
      else
        setRehash ptr alloc (setLoop ptr alloc n) iSize nSet iDivisor aBitmap aHash apSub (i + 1)
          (BITVEC_HASH ptr i) count
    else
      (seek (nextSlot ptr) aHash (i + 1) (BITVEC_NINT ptr) (BITVEC_HASH ptr i)).bind fun h =>
        if aHash h = i + 1 then
          some ⟨.SQLITE_OK, .mk iSize nSet iDivisor aBitmap aHash apSub, count⟩
        else
          setRehash ptr alloc (setLoop ptr alloc n) iSize nSet iDivisor aBitmap aHash apSub (i + 1) h
            count

def sqlite3BitvecSet (ptr : ℕ) (alloc : ℕ → Bool) (p : Bitvec) (i : ℕ) : Option Result :=
  match p with
  | .null => some ⟨.SQLITE_OK, .null, 0⟩
  | p => checkedSet (setLoop ptr alloc (2 * p.iSize + 2)) p i 0

section
variable {ptr n : ℕ} {alloc : ℕ → Bool} {f : Bitvec → ℕ → ℕ → Option Result}
  {g : Bitvec → ℕ → Option Bitvec}

theorem checkedSet_map (h : ∀ p i count, (f p i count).map (·.p) = g p i) (p : Bitvec) (i count : ℕ) :
    (checkedSet f p i count).map (·.p) = Bits.checkedSet g p i := by
  rw [checkedSet, Bits.checkedSet]
  split_ifs
  · exact h _ _ _
  · rfl

theorem rehashLoop_map (h : ∀ p i count, (f p i count).map (·.p) = g p i) (aiValues : ℕ → ℕ) (j : ℕ)
    (r : Result) : (rehashLoop f aiValues j r).map (·.p) = Bits.rehashLoop g aiValues j r.p := by
  induction j with
  | zero => rfl
  | succ j ih =>
    rw [rehashLoop, Bits.rehashLoop, ← ih, Option.map_bind, Option.bind_map]
    congr 1
    funext r
    simp only [Function.comp_apply]
    split_ifs
    · rw [← checkedSet_map h, Option.map_map]
      rfl
    · rfl

theorem setLoop_map (halloc : ∀ k, alloc k = true) (p : Bitvec) (i count : ℕ) :
    (setLoop ptr alloc n p i count).map (·.p) = Bits.setLoop ptr n p i := by
  induction n generalizing p i count with
  | zero => rfl
  | succ n ih =>
    cases p with
    | null => rfl
    | mk iSize nSet iDivisor aBitmap aHash apSub =>
      have hrehash : ∀ v h count, (setRehash ptr alloc (setLoop ptr alloc n) iSize nSet iDivisor aBitmap
          aHash apSub v h count).map (·.p) =
          Bits.setRehash ptr (Bits.setLoop ptr n) iSize nSet iDivisor aBitmap aHash apSub v h := by
        intro v h count
        rw [setRehash, Bits.setRehash]
        split_ifs with hfull hal
        · rw [← checkedSet_map ih _ _ (count + 1), Option.map_bind, Option.bind_map]
          congr 1
          funext r
          exact rehashLoop_map ih _ _ r
        · exact absurd (halloc count) hal
        · rfl
      have hsub : ∀ q, ∃ count', Alloc.subOrNew alloc iDivisor count q =
          some (Bits.subOrNew iDivisor q, count') := by
        intro q
        cases q with
        | null => exact ⟨count + 1, by simp [Alloc.subOrNew, Bits.subOrNew, halloc]⟩
        | mk => exact ⟨count, rfl⟩
      rw [setLoop, Bits.setLoop]
      split_ifs
      · obtain ⟨count', hcount⟩ := hsub (apSub (i / iDivisor))
        rw [hcount, ← ih _ _ count']
        dsimp only
        rw [Option.map_map, Option.map_map]
        rfl
      · rfl
      · rfl
      · exact hrehash _ _ _
      · rw [Option.map_bind]
        congr 1
        funext h
        simp only [Function.comp_apply]
        split_ifs
        · rfl
        · exact hrehash _ _ _

/-- Without a failure the call is that of the model in which there are none. -/
theorem sqlite3BitvecSet_map (halloc : ∀ k, alloc k = true) (p : Bitvec) (i : ℕ) :
    (sqlite3BitvecSet ptr alloc p i).map (·.p) = Bits.sqlite3BitvecSet ptr p i := by
  cases p with
  | null => rfl
  | mk => exact checkedSet_map (setLoop_map halloc) _ _ _

end

inductive BitvecOp
  | set (alloc : ℕ → Bool) (i : ℕ)
  | clear (i : ℕ)
  | test (i : ℕ)

def BitvecOp.InRange (iSize : ℕ) : BitvecOp → Prop
  | set _ i => 1 ≤ i ∧ i ≤ iSize
  | clear i => 1 ≤ i ∧ i ≤ iSize
  | test _ => True

def step (ptr : ℕ) (p : Bitvec) : BitvecOp → Option Bitvec
  | .set alloc i => (sqlite3BitvecSet ptr alloc p i).map (·.p)
  | .clear i => sqlite3BitvecClear ptr p i
  | .test i => (sqlite3BitvecTest ptr p i).map fun _ => p

def run (ptr : ℕ) (p : Bitvec) : List BitvecOp → Option Bitvec
  | [] => some p
  | op :: ops => (step ptr p op).bind fun p => run ptr p ops

/-- The call for `i` comes to a hash table that is full enough to be split up. -/
def Rehashes (ptr : ℕ) : Bitvec → ℕ → Prop
  | .null, _ => False
  | .mk iSize nSet iDivisor _ aHash apSub, i =>
    if iDivisor ≠ 0 then Rehashes ptr (apSub (i / iDivisor)) (i % iDivisor)
    else BITVEC_NBIT ptr < iSize ∧ (∀ h < BITVEC_NINT ptr, aHash h ≠ i + 1) ∧
      BITVEC_MXHASH ptr ≤ nSet ∧ (aHash (BITVEC_HASH ptr i) ≠ 0 ∨ BITVEC_NINT ptr - 1 ≤ nSet)

/-- Both numbers belong to one hash table or bitmap. -/
def SameTable : Bitvec → ℕ → ℕ → Prop
  | .null, _, _ => False
  | .mk _ _ iDivisor _ _ apSub, i, j =>
    iDivisor ≠ 0 → i / iDivisor = j / iDivisor ∧
      SameTable (apSub (i / iDivisor)) (i % iDivisor) (j % iDivisor)

end Sqlite.Bits.Alloc

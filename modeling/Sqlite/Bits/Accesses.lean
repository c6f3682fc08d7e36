import Sqlite.Bits.Alloc
import Sqlite.Foundation.Traced

/-! The operations on a bit vector that must not leave its arrays. -/
namespace Sqlite.Bits.Alloc

open Foundation Foundation.Traced

inductive Access
  | divide (iDivisor : ℕ)
  | apSub (bin : ℕ)
  | aBitmap (bit : ℕ)
  | assert (i iSize : ℕ)

def Access.Ok (ptr : ℕ) : Access → Prop
  | .divide iDivisor => iDivisor ≠ 0
  | .apSub bin => bin < BITVEC_NPTR ptr
  | .aBitmap bit => bit < BITVEC_NBIT ptr
  | .assert i iSize => 0 < i ∧ i ≤ iSize

/-- `testLoop`, with the operations. -/
def testTrace (ptr : ℕ) : Bitvec → ℕ → Traced Access Bool
  | .null, _ => return false
  | .mk iSize _ iDivisor aBitmap aHash apSub, i =>
    if iDivisor ≠ 0 then do
      tell (.divide iDivisor)
      tell (.apSub (i / iDivisor))
      testTrace ptr (apSub (i / iDivisor)) (i % iDivisor)
    else if iSize ≤ BITVEC_NBIT ptr then do
      tell (.aBitmap i)
      return aBitmap (i / BITVEC_SZELEM) &&& bitMask i ≠ 0
    else
      lift ((seek (fun h => (h + 1) % BITVEC_NINT ptr) aHash (i + 1) (BITVEC_NINT ptr)
        (BITVEC_HASH ptr i)).map fun h => aHash h = i + 1)

/-- The assertions of `sqlite3BitvecSet` and `i--`; `f` is the rest of the function. -/
def checkedSetTrace (f : Bitvec → ℕ → ℕ → Traced Access Result) (p : Bitvec) (i count : ℕ) :
    Traced Access Result := do
  tell (.assert i p.iSize)
  if 0 < i ∧ i ≤ p.iSize then f p (i - 1) count else stop

def rehashTrace (f : Bitvec → ℕ → ℕ → Traced Access Result) (aiValues : ℕ → ℕ) :
    ℕ → Result → Traced Access Result
  | 0, r => return r
  | j + 1, r => do
    let r ← rehashTrace f aiValues j r
    if aiValues j ≠ 0 then do
      let s ← checkedSetTrace f r.p (aiValues j) r.count
      return { s with rc := r.rc.or s.rc }
    else return r

def setRehashTrace (ptr : ℕ) (alloc : ℕ → Bool) (f : Bitvec → ℕ → ℕ → Traced Access Result)
    (iSize nSet iDivisor : ℕ) (aBitmap : ℕ → BitVec 8) (aHash : ℕ → ℕ) (apSub : ℕ → Bitvec)
    (i h count : ℕ) : Traced Access Result :=
  if BITVEC_MXHASH ptr ≤ nSet then
    if alloc count then do
      let r ← checkedSetTrace f
        (.mk iSize nSet (divisor ptr iSize) (fun _ => 0) (fun _ => 0) (fun _ => .null)) i (count + 1)
      rehashTrace f aHash (BITVEC_NINT ptr) r
    else return ⟨.SQLITE_NOMEM, .mk iSize nSet iDivisor aBitmap aHash apSub, count + 1⟩
  else
    return ⟨.SQLITE_OK, .mk iSize (nSet + 1) iDivisor aBitmap (Function.update aHash h i) apSub, count⟩

/-- `setLoop`, with the operations, also those of a call that does not end within `n` levels. -/
def setTrace (ptr : ℕ) (alloc : ℕ → Bool) : ℕ → Bitvec → ℕ → ℕ → Traced Access Result
  | 0, _, _, _ => stop
  | _ + 1, .null, _, _ => stop
  | n + 1, .mk iSize nSet iDivisor aBitmap aHash apSub, i, count =>
    if BITVEC_NBIT ptr < iSize ∧ iDivisor ≠ 0 then do
      tell (.divide iDivisor)
      tell (.apSub (i / iDivisor))
      match subOrNew alloc iDivisor count (apSub (i / iDivisor)) with
      | none => return ⟨.SQLITE_NOMEM, .mk iSize nSet iDivisor aBitmap aHash apSub, count + 1⟩
      | some (sub, count) => do
        let r ← setTrace ptr alloc n sub (i % iDivisor) count
        return { r with
          p := .mk iSize nSet iDivisor aBitmap aHash (Function.update apSub (i / iDivisor) r.p) }
    else if iSize ≤ BITVEC_NBIT ptr then do
      tell (.aBitmap i)
      return ⟨.SQLITE_OK, .mk iSize nSet iDivisor (Function.update aBitmap (i / BITVEC_SZELEM)
        (aBitmap (i / BITVEC_SZELEM) ||| bitMask i)) aHash apSub, count⟩
    else if aHash (BITVEC_HASH ptr i) = 0 then
      if nSet < BITVEC_NINT ptr - 1 then
        return ⟨.SQLITE_OK, .mk iSize (nSet + 1) iDivisor aBitmap
          (Function.update aHash (BITVEC_HASH ptr i) (i + 1)) apSub, count⟩
      else
        setRehashTrace ptr alloc (setTrace ptr alloc n) iSize nSet iDivisor aBitmap aHash apSub (i + 1)
          (BITVEC_HASH ptr i) count
    else do
      let h ← lift (seek (nextSlot ptr) aHash (i + 1) (BITVEC_NINT ptr) (BITVEC_HASH ptr i))
      if aHash h = i + 1 then return ⟨.SQLITE_OK, .mk iSize nSet iDivisor aBitmap aHash apSub, count⟩
      else
        setRehashTrace ptr alloc (setTrace ptr alloc n) iSize nSet iDivisor aBitmap aHash apSub (i + 1)
          h count

/-- `clearLoop`, with the operations. -/
def clearTrace (ptr : ℕ) : Bitvec → ℕ → Traced Access Bitvec
  | .null, _ => return .null
  | .mk iSize nSet iDivisor aBitmap aHash apSub, i =>
    if iDivisor ≠ 0 then do
      tell (.divide iDivisor)
      tell (.apSub (i / iDivisor))
      let sub ← clearTrace ptr (apSub (i / iDivisor)) (i % iDivisor)
      return .mk iSize nSet iDivisor aBitmap aHash (Function.update apSub (i / iDivisor) sub)
    else if iSize ≤ BITVEC_NBIT ptr then do
      tell (.aBitmap i)
      return .mk iSize nSet iDivisor (Function.update aBitmap (i / BITVEC_SZELEM)
        (aBitmap (i / BITVEC_SZELEM) &&& ~~~bitMask i)) aHash apSub
    else
      lift ((refill ptr aHash (i + 1) (BITVEC_NINT ptr)).map fun r =>
        .mk iSize r.2 iDivisor aBitmap r.1 apSub)

/-- A call, with the operations; a call of `sqlite3BitvecSet` is followed for `n` levels. -/
def stepTrace (ptr n : ℕ) (p : Bitvec) : BitvecOp → Traced Access Bitvec
  | .set alloc i =>
    match p with
    | .null => return .null
    | p => (·.p) <$> checkedSetTrace (setTrace ptr alloc n) p i 0
  | .clear i =>
    match p with
    | .null => return .null
    | p => if 0 < i then clearTrace ptr p (i - 1) else stop
  | .test i => if p.iSize < i ∨ i = 0 then return p else (fun _ => p) <$> testTrace ptr p (i - 1)

def runTrace (ptr n : ℕ) (p : Bitvec) : List BitvecOp → Traced Access Bitvec
  | [] => return p
  | op :: ops => do
    let p ← stepTrace ptr n p op
    runTrace ptr n p ops

section
variable {ptr n : ℕ} {alloc : ℕ → Bool} {f : Bitvec → ℕ → ℕ → Traced Access Result}
  {g : Bitvec → ℕ → ℕ → Option Result}

/-! The results are those of the calls without the operations. -/

theorem testTrace_result (p : Bitvec) (i : ℕ) : (testTrace ptr p i).result = testLoop ptr p i := by
  induction p generalizing i with
  | null => rfl
  | mk iSize nSet iDivisor aBitmap aHash apSub ih =>
    rw [testTrace, testLoop]
    split_ifs
    · simp [ih]
    · rfl
    · rfl

theorem checkedSetTrace_result (h : ∀ p i count, (f p i count).result = g p i count) (p : Bitvec)
    (i count : ℕ) : (checkedSetTrace f p i count).result = checkedSet g p i count := by
  rw [checkedSetTrace, checkedSet, result_bind, result_tell, Option.bind_some]
  split_ifs
  · exact h p (i - 1) count
  · rfl

theorem rehashTrace_result (h : ∀ p i count, (f p i count).result = g p i count) (aiValues : ℕ → ℕ)
    (j : ℕ) (r : Result) : (rehashTrace f aiValues j r).result = rehashLoop g aiValues j r := by
  induction j with
  | zero => rfl
  | succ j ih =>
    rw [rehashTrace, rehashLoop, result_bind, ih]
    congr 1
    funext r
    split_ifs
    · rw [result_bind, checkedSetTrace_result h, Option.map_eq_bind]
      rfl
    · rfl

theorem setTrace_result (p : Bitvec) (i count : ℕ) :
    (setTrace ptr alloc n p i count).result = setLoop ptr alloc n p i count := by
  induction n generalizing p i count with
  | zero => rfl
  | succ n ih =>
    cases p with
    | null => rfl
    | mk iSize nSet iDivisor aBitmap aHash apSub =>
      have hrehash : ∀ v h count, (setRehashTrace ptr alloc (setTrace ptr alloc n) iSize nSet iDivisor
          aBitmap aHash apSub v h count).result =
          setRehash ptr alloc (setLoop ptr alloc n) iSize nSet iDivisor aBitmap aHash apSub v h count := by
        intro v h count
        rw [setRehashTrace, setRehash]
        split_ifs
        · rw [result_bind, checkedSetTrace_result ih]
          congr 1
          funext r
          exact rehashTrace_result ih aHash _ r
        · rfl
        · rfl
      rw [setTrace, setLoop]
      split_ifs
      · simp only [result_bind, result_tell, Option.bind_some]
        cases subOrNew alloc iDivisor count (apSub (i / iDivisor)) with
        | none => rfl
        | some s =>
          simp only [result_bind, ih, Option.map_eq_bind]
          rfl
      · rfl
      · rfl
      · exact hrehash _ _ _
      · rw [result_bind, result_lift]
        congr 1
        funext h
        split_ifs
        · rfl
        · exact hrehash _ _ _

theorem clearTrace_result (p : Bitvec) (i : ℕ) : (clearTrace ptr p i).result = clearLoop ptr p i := by
  induction p generalizing i with
  | null => rfl
  | mk iSize nSet iDivisor aBitmap aHash apSub ih =>
    rw [clearTrace, clearLoop]
    split_ifs
    · simp [ih, Option.map_eq_bind]
    · rfl
    · rfl

end

/-- The sizes fit together on every level, and the values of the hash tables fit the sizes. -/
inductive Fits (ptr : ℕ) : ℕ → Bitvec → Prop
  | null (n : ℕ) : Fits ptr n .null
  | mk {n nSet iDivisor : ℕ} {aBitmap : ℕ → BitVec 8} {aHash : ℕ → ℕ} {apSub : ℕ → Bitvec}
      (hsize : n < 2 ^ 32)
      (hcap : iDivisor ≠ 0 → BITVEC_NBIT ptr < n ∧ n ≤ iDivisor * BITVEC_NPTR ptr ∧ iDivisor < 2 ^ 32)
      (hsub : iDivisor ≠ 0 → ∀ bin, Fits ptr iDivisor (apSub bin))
      (hhash : ∀ j < BITVEC_NINT ptr, aHash j ≤ n) :
      Fits ptr n (.mk n nSet iDivisor aBitmap aHash apSub)

variable {ptr n d i count k : ℕ} {alloc : ℕ → Bool} {p : Bitvec} {f : Bitvec → ℕ → ℕ → Traced Access Result}
  {aBitmap : ℕ → BitVec 8} {aHash : ℕ → ℕ} {apSub : ℕ → Bitvec}

theorem Fits.iSize_eq (h : Fits ptr n p) (hp : p ≠ .null) : p.iSize = n := by
  cases h with
  | null => exact absurd rfl hp
  | mk => rfl

theorem Fits.create (h : n < 2 ^ 32) : Fits ptr n (sqlite3BitvecCreate n) :=
  .mk h (fun h0 => absurd rfl h0) (fun h0 => absurd rfl h0) fun _ _ => Nat.zero_le n

/-- Where the sum wraps, the size of the smaller bit vectors is zero. -/
theorem divisor_cap (hptr : ptr = 4 ∨ ptr = 8) (hn : n < 2 ^ 32) (h0 : divisor ptr n ≠ 0) :
    n ≤ divisor ptr n * BITVEC_NPTR ptr ∧ divisor ptr n < 2 ^ 32 := by
  obtain ⟨h1, h2, -⟩ := nptr_bounds hptr
  have hwidth : 2 ^ 32 ≤ 2 ^ (8 * ptr) := Nat.pow_le_pow_right (by decide) (by omega)
  rw [divisor] at h0 ⊢
  generalize BITVEC_NPTR ptr = N at h0 h1 h2 ⊢
  generalize 2 ^ (8 * ptr) = M at h0 hwidth ⊢
  have hfit : n + N - 1 < M := by
    by_contra hwrap
    have hmod : (n + N - 1) % M = n + N - 1 - M := by
      rw [Nat.mod_eq_sub_mod (by omega), Nat.mod_eq_of_lt (by omega)]
    rw [hmod, Nat.div_eq_of_lt (by omega)] at h0
    exact h0 rfl
  rw [Nat.mod_eq_of_lt hfit]
  have hsplit := Nat.div_add_mod (n + N - 1) N
  have hmod := Nat.mod_lt (n + N - 1) (by omega : 0 < N)
  refine ⟨by rw [mul_comm]; omega, ?_⟩
  have hle : (n + N - 1) / N ≤ (n + N - 1) / 2 := Nat.div_le_div_left h1 two_pos
  omega

/-- Below a size that fits, the index of the smaller bit vector is in range. -/
theorem bin_lt (hcap : n ≤ d * BITVEC_NPTR ptr) (hi : i < n) : i / d < BITVEC_NPTR ptr :=
  Nat.div_lt_of_lt_mul (by omega)

theorem testTrace_keeps (h : Fits ptr n p) (hi : i < n) :
    Keeps (Access.Ok ptr) (fun _ => True) (testTrace ptr p i) := by
  induction h generalizing i with
  | null n => exact keeps_pure trivial
  | mk hsize hcap hsub hhash ih =>
    rw [testTrace]
    split_ifs with hdiv hbits
    · obtain ⟨-, hcap, -⟩ := hcap hdiv
      refine keeps_tell (e := .divide _) (I := Access.Ok ptr) hdiv ?_
      refine keeps_tell (e := .apSub _) (I := Access.Ok ptr) (bin_lt hcap hi) ?_
      exact ih hdiv _ (Nat.mod_lt i (Nat.pos_of_ne_zero hdiv))
    · exact keeps_tell (e := .aBitmap i) (I := Access.Ok ptr) (hi.trans_le hbits) (keeps_pure trivial)
    · exact keeps_lift fun _ _ => trivial

/-- What a call leaves of a bit vector for numbers below `n`. -/
def Left (ptr n : ℕ) (p : Bitvec) : Prop := p ≠ .null ∧ Fits ptr n p

/-- `f` keeps the bit vectors for numbers below `n`. -/
def SetKeeps (ptr : ℕ) (f : Bitvec → ℕ → ℕ → Traced Access Result) : Prop :=
  ∀ n p i count, Left ptr n p → i < n → Keeps (Access.Ok ptr) (fun r => Left ptr n r.p) (f p i count)

theorem checkedSetTrace_keeps (hf : SetKeeps ptr f) (h : Left ptr n p) (h0 : 0 < i) (hi : i ≤ n) :
    Keeps (Access.Ok ptr) (fun r => Left ptr n r.p) (checkedSetTrace f p i count) := by
  have hin : 0 < i ∧ i ≤ p.iSize := ⟨h0, h.2.iSize_eq h.1 ▸ hi⟩
  rw [checkedSetTrace]
  refine keeps_tell (e := .assert i p.iSize) (I := Access.Ok ptr) hin ?_
  rw [if_pos hin]
  exact hf n p (i - 1) count h (by omega)

theorem rehashTrace_keeps (hf : SetKeeps ptr f) (hvals : ∀ j < k, aHash j ≤ n) {r : Result}
    (h : Left ptr n r.p) : Keeps (Access.Ok ptr) (fun r => Left ptr n r.p) (rehashTrace f aHash k r) := by
  induction k with
  | zero => exact keeps_pure h
  | succ k ih =>
    rw [rehashTrace]
    refine (ih fun j hj => hvals j (by omega)).bind fun r hr => ?_
    split_ifs with hval
    · refine (checkedSetTrace_keeps hf hr (Nat.pos_of_ne_zero hval) (hvals k (by omega))).bind fun s hs => ?_
      exact keeps_pure hs
    · exact keeps_pure hr

theorem setRehashTrace_keeps (hptr : ptr = 4 ∨ ptr = 8) (hf : SetKeeps ptr f) {nSet iDivisor h : ℕ}
    (hp : Fits ptr n (.mk n nSet iDivisor aBitmap aHash apSub)) (hn : BITVEC_NBIT ptr < n)
    (h0 : 0 < i) (hi : i ≤ n) :
    Keeps (Access.Ok ptr) (fun r => Left ptr n r.p)
      (setRehashTrace ptr alloc f n nSet iDivisor aBitmap aHash apSub i h count) := by
  cases hp with
  | mk hsize hcap hsub hhash =>
    rw [setRehashTrace]
    split_ifs
    · have hempty : Fits ptr n
          (.mk n nSet (divisor ptr n) (fun _ => 0) (fun _ => 0) (fun _ => .null)) :=
        .mk hsize (fun h0 => ⟨hn, divisor_cap hptr hsize h0⟩) (fun _ _ => .null _)
          fun _ _ => Nat.zero_le n
      refine (checkedSetTrace_keeps hf ⟨by simp, hempty⟩ h0 hi).bind fun r hr => ?_
      exact rehashTrace_keeps hf hhash hr
    · exact keeps_pure ⟨by simp, .mk hsize hcap hsub hhash⟩
    · refine keeps_pure ⟨by simp, .mk hsize hcap hsub fun j hj => ?_⟩
      rw [Function.update_apply]
      split_ifs
      · exact hi
      · exact hhash j hj

theorem subOrNew_left {sub : Bitvec} {count' : ℕ} (hd : d < 2 ^ 32) (h : Fits ptr d p)
    (hsub : subOrNew alloc d count p = some (sub, count')) : Left ptr d sub := by
  cases p with
  | null =>
    rw [subOrNew] at hsub
    split_ifs at hsub
    obtain ⟨rfl, -⟩ := Prod.mk.inj (Option.some.inj hsub)
    exact ⟨by simp [sqlite3BitvecCreate], .create hd⟩
  | mk =>
    obtain ⟨rfl, -⟩ := Prod.mk.inj (Option.some.inj hsub)
    exact ⟨by simp, h⟩

/-- A call keeps the bit vector, on every level that it comes to. -/
theorem setTrace_keeps (hptr : ptr = 4 ∨ ptr = 8) (alloc : ℕ → Bool) (k : ℕ) :
    SetKeeps ptr (setTrace ptr alloc k) := by
  induction k with
  | zero => exact fun _ _ _ _ _ _ => keeps_stop
  | succ k ih =>
    intro n p i count hp hi
    cases hfits : hp.2 with
    | null => exact absurd rfl hp.1
    | @mk _ nSet d aBitmap aHash apSub hsize hcap hsub hhash =>
      have hrehash : ∀ h, Keeps (Access.Ok ptr) (fun r => Left ptr n r.p)
          (if BITVEC_NBIT ptr < n then setRehashTrace ptr alloc (setTrace ptr alloc k) n nSet d aBitmap
            aHash apSub (i + 1) h count else stop) := by
        intro h
        split_ifs with hn
        · exact setRehashTrace_keeps hptr ih hp.2 hn (Nat.succ_pos i) hi
        · exact keeps_stop
      rw [setTrace]
      split_ifs with hdiv hbits hfree hroom
      · obtain ⟨hn, hcap', hd⟩ := hcap hdiv.2
        refine keeps_tell (e := .divide d) (I := Access.Ok ptr) hdiv.2 ?_
        refine keeps_tell (e := .apSub _) (I := Access.Ok ptr) (bin_lt hcap' hi) ?_
        cases hnew : subOrNew alloc d count (apSub (i / d)) with
        | none => exact keeps_pure hp
        | some s =>
          have hleft := subOrNew_left hd (hsub hdiv.2 (i / d)) hnew
          refine (ih d s.1 (i % d) s.2 hleft (Nat.mod_lt i (Nat.pos_of_ne_zero hdiv.2))).bind fun r hr => ?_
          refine keeps_pure ⟨by simp, .mk hsize hcap (fun h0 bin => ?_) hhash⟩
          rw [Function.update_apply]
          split_ifs
          · exact hr.2
          · exact hsub h0 bin
      · refine keeps_tell (e := .aBitmap i) (I := Access.Ok ptr) (hi.trans_le hbits) (keeps_pure ⟨by simp, ?_⟩)
        exact .mk hsize hcap hsub hhash
      · refine keeps_pure ⟨by simp, .mk hsize hcap hsub fun j hj => ?_⟩
        rw [Function.update_apply]
        split_ifs
        · exact hi
        · exact hhash j hj
      · have := hrehash (BITVEC_HASH ptr i)
        rwa [if_pos (not_le.mp hbits)] at this
      · refine Keeps.bind (P := fun _ => True) (keeps_lift fun _ _ => trivial) fun h _ => ?_
        split_ifs
        · exact keeps_pure hp
        · have := hrehash h
          rwa [if_pos (not_le.mp hbits)] at this

theorem refill_le {r : (ℕ → ℕ) × ℕ} (hvals : ∀ j < k, aHash j ≤ n)
    (h : refill ptr aHash i k = some r) (j : ℕ) : r.1 j ≤ n := by
  induction k generalizing r with
  | zero =>
    obtain rfl := Option.some.inj h
    exact Nat.zero_le n
  | succ k ih =>
    rw [refill] at h
    obtain ⟨r', hr', h⟩ := Option.bind_eq_some_iff.mp h
    have hle := ih (fun j hj => hvals j (by omega)) hr'
    split_ifs at h
    · obtain ⟨slot, -, rfl⟩ := Option.map_eq_some_iff.mp h
      simp only [Function.update_apply]
      split_ifs
      · exact hvals k (Nat.lt_succ_self k)
      · exact hle
    · exact Option.some.inj h ▸ hle

theorem clearTrace_keeps (h : Fits ptr n p) (hi : i < n) :
    Keeps (Access.Ok ptr) (fun p' => Fits ptr n p' ∧ (p ≠ .null → p' ≠ .null)) (clearTrace ptr p i) := by
  induction h generalizing i with
  | null n => exact keeps_pure ⟨.null n, id⟩
  | mk hsize hcap hsub hhash ih =>
    rw [clearTrace]
    split_ifs with hdiv hbits
    · obtain ⟨-, hcap', -⟩ := hcap hdiv
      refine keeps_tell (e := .divide _) (I := Access.Ok ptr) hdiv ?_
      refine keeps_tell (e := .apSub _) (I := Access.Ok ptr) (bin_lt hcap' hi) ?_
      refine (ih hdiv _ (Nat.mod_lt i (Nat.pos_of_ne_zero hdiv))).bind fun sub hsub' => ?_
      refine keeps_pure ⟨.mk hsize hcap (fun h0 bin => ?_) hhash, by simp⟩
      rw [Function.update_apply]
      split_ifs
      · exact hsub'.1
      · exact hsub h0 bin
    · refine keeps_tell (e := .aBitmap _) (I := Access.Ok ptr) (hi.trans_le hbits) (keeps_pure ⟨?_, by simp⟩)
      exact .mk hsize hcap hsub hhash
    · refine keeps_lift fun p' hp' => ?_
      obtain ⟨r, hr, rfl⟩ := Option.map_eq_some_iff.mp hp'
      exact ⟨.mk hsize hcap hsub fun j _ => refill_le hhash hr j, by simp⟩

theorem stepTrace_keeps (hptr : ptr = 4 ∨ ptr = 8) (h : Left ptr n p) {op : BitvecOp}
    (hop : op.InRange n) : Keeps (Access.Ok ptr) (Left ptr n) (stepTrace ptr k p op) := by
  have hsize := h.2.iSize_eq h.1
  cases op with
  | set alloc i =>
    obtain ⟨h0, hi⟩ := hop
    cases p with
    | null => exact absurd rfl h.1
    | mk => exact (checkedSetTrace_keeps (setTrace_keeps hptr alloc k) h h0 hi).map fun r hr => hr
  | clear i =>
    obtain ⟨h0, hi⟩ := hop
    cases p with
    | null => exact absurd rfl h.1
    | mk iSize nSet d aBitmap aHash apSub =>
      change Keeps _ _ (if 0 < i then clearTrace ptr _ (i - 1) else stop)
      rw [if_pos (Nat.pos_of_ne_zero (by omega))]
      exact (clearTrace_keeps h.2 (by omega)).mono fun p' hp' => ⟨hp'.2 h.1, hp'.1⟩
  | test i =>
    rw [stepTrace]
    split_ifs with hout
    · exact keeps_pure h
    · exact (testTrace_keeps h.2 (by omega)).map fun _ _ => h

theorem stepTrace_result (p : Bitvec) (op : BitvecOp) :
    (stepTrace ptr (2 * p.iSize + 2) p op).result = step ptr p op := by
  cases op with
  | set alloc i =>
    cases p with
    | null => rfl
    | mk =>
      refine (result_map _ _).trans (congrArg (Option.map Result.p) ?_)
      exact checkedSetTrace_result setTrace_result _ i 0
  | clear i =>
    cases p with
    | null => rfl
    | mk iSize nSet d aBitmap aHash apSub =>
      change (if 0 < i then clearTrace ptr _ (i - 1) else stop).result =
        if 0 < i then clearLoop ptr _ (i - 1) else none
      split_ifs
      · exact clearTrace_result _ _
      · rfl
  | test i =>
    rw [stepTrace, step, sqlite3BitvecTest]
    split_ifs
    · rfl
    · rw [result_map, testTrace_result]

/-- With as many levels as the calls are given there, the run is the one without the operations. -/
theorem runTrace_result (hptr : ptr = 4 ∨ ptr = 8) {ops : List BitvecOp} (h : Left ptr n p)
    (hops : ∀ op ∈ ops, BitvecOp.InRange n op) : (runTrace ptr (2 * n + 2) p ops).result = run ptr p ops := by
  induction ops generalizing p with
  | nil => rfl
  | cons op ops ih =>
    have hkeeps := stepTrace_keeps (k := 2 * n + 2) hptr h (hops op List.mem_cons_self)
    rw [runTrace, run, result_bind, ← stepTrace_result, h.2.iSize_eq h.1]
    refine Option.bind_congr fun p' hp' => ?_
    exact ih (hkeeps.result p' hp') fun op' hop' => hops op' (List.mem_cons_of_mem op hop')

/-- In every run on a bit vector of a size that fits a `u32`, also when allocations fail and where a
call does not end, each operation is in order. -/
theorem bitvec_accesses {iSize : ℕ} {ops : List BitvecOp} (hptr : ptr = 4 ∨ ptr = 8)
    (hsize : iSize < 2 ^ 32) (hops : ∀ op ∈ ops, BitvecOp.InRange iSize op) (n : ℕ) :
    ∀ a ∈ (runTrace ptr n (sqlite3BitvecCreate iSize) ops).trace, a.Ok ptr := by
  have hrun : ∀ p, Left ptr iSize p → Keeps (Access.Ok ptr) (fun _ => True) (runTrace ptr n p ops) := by
    induction ops with
    | nil => exact fun p _ => keeps_pure trivial
    | cons op ops ih =>
      intro p hp
      rw [runTrace]
      refine (stepTrace_keeps hptr hp (hops op List.mem_cons_self)).bind ?_
      exact ih fun op' hop' => hops op' (List.mem_cons_of_mem op hop')
  exact (hrun _ ⟨by simp [sqlite3BitvecCreate], .create hsize⟩).operations

theorem bitvec_accesses_five :
    (∀ op ∈ [.set (fun _ => true) 5, .test 5, .clear 5], BitvecOp.InRange 5000 op) ∧
      ∀ a ∈ (runTrace 8 10 (sqlite3BitvecCreate 5000)
        [.set (fun _ => true) 5, .test 5, .clear 5]).trace, a.Ok 8 := by
  have hops : ∀ op ∈ [.set (fun _ => true) 5, .test 5, .clear 5], BitvecOp.InRange 5000 op := by
    intro op hop
    rcases List.mem_cons.mp hop with rfl | hop
    · exact ⟨by decide, by decide⟩
    rcases List.mem_cons.mp hop with rfl | hop
    · trivial
    obtain rfl := List.mem_singleton.mp hop
    exact ⟨by decide, by decide⟩
  exact ⟨hops, bitvec_accesses (.inr rfl) (by decide) hops 10⟩

end Sqlite.Bits.Alloc

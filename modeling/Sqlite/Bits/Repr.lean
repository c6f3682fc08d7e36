import Mathlib.Algebra.Order.Ring.Nat
import Sqlite.Foundation.ProbeSet

/-! What set of numbers a bit vector stands for, in each of its representations, and that tests and
clears agree with it. The numbers count from 0, as they do behind `i--`. -/
namespace Sqlite.Bits

open Foundation

/-! Bit vectors (`bitvec.c`): a bitmap, a hash table, or an array of smaller bit vectors. The
parameter `ptr` is `sizeof(Bitvec*)`. -/

def BITVEC_SZ : ℕ := 512
def BITVEC_USIZE (ptr : ℕ) : ℕ := (BITVEC_SZ - 3 * 4) / ptr * ptr
def BITVEC_SZELEM : ℕ := 8
def BITVEC_NELEM (ptr : ℕ) : ℕ := BITVEC_USIZE ptr / 1
def BITVEC_NBIT (ptr : ℕ) : ℕ := BITVEC_NELEM ptr * BITVEC_SZELEM
def BITVEC_NINT (ptr : ℕ) : ℕ := BITVEC_USIZE ptr / 4
def BITVEC_MXHASH (ptr : ℕ) : ℕ := BITVEC_NINT ptr / 2
def BITVEC_HASH (ptr x : ℕ) : ℕ := x * 1 % BITVEC_NINT ptr
def BITVEC_NPTR (ptr : ℕ) : ℕ := BITVEC_USIZE ptr / ptr

/-- The three members of the union are apart here; only the one in use has a meaning. -/
inductive Bitvec
  | null
  | mk (iSize nSet iDivisor : ℕ) (aBitmap : ℕ → BitVec 8) (aHash : ℕ → ℕ) (apSub : ℕ → Bitvec)

def Bitvec.iSize : Bitvec → ℕ
  | null => 0
  | mk iSize _ _ _ _ _ => iSize

def sqlite3BitvecCreate (iSize : ℕ) : Bitvec :=
  .mk iSize 0 0 (fun _ => 0) (fun _ => 0) (fun _ => .null)

/-- `1<<(i&(BITVEC_SZELEM-1))`. -/
def bitMask (i : ℕ) : BitVec 8 := 1#8 <<< (i &&& (BITVEC_SZELEM - 1))

/-- `sqlite3BitvecTest` from `i--` on. The result is `none` for a search that does not end. -/
def testLoop (ptr : ℕ) : Bitvec → ℕ → Option Bool
  | .null, _ => some false
  | .mk iSize _ iDivisor aBitmap aHash apSub, i =>
    if iDivisor ≠ 0 then testLoop ptr (apSub (i / iDivisor)) (i % iDivisor)
    else if iSize ≤ BITVEC_NBIT ptr then
      some (aBitmap (i / BITVEC_SZELEM) &&& bitMask i ≠ 0)
    else
      (seek (fun h => (h + 1) % BITVEC_NINT ptr) aHash (i + 1) (BITVEC_NINT ptr)
        (BITVEC_HASH ptr i)).map fun h => aHash h = i + 1

def sqlite3BitvecTest (ptr : ℕ) (p : Bitvec) (i : ℕ) : Option Bool :=
  if p.iSize < i ∨ i = 0 then some false else testLoop ptr p (i - 1)

/-- The step to the next slot in `sqlite3BitvecSet` and `sqlite3BitvecClear`. -/
def nextSlot (ptr h : ℕ) : ℕ := if BITVEC_NINT ptr ≤ h + 1 then 0 else h + 1

/-- `p->u.apSub[bin]`, created when it is missing. -/
def subOrNew (iDivisor : ℕ) : Bitvec → Bitvec
  | .null => sqlite3BitvecCreate iDivisor
  | p => p

/-- The assertions of `sqlite3BitvecSet` and `i--`; `f` is the rest of the function. -/
def checkedSet (f : Bitvec → ℕ → Option Bitvec) (p : Bitvec) (i : ℕ) : Option Bitvec :=
  if 0 < i ∧ i ≤ p.iSize then f p (i - 1) else none

/-- The loop that sets the first `n` entries of the old hash table again. -/
def rehashLoop (f : Bitvec → ℕ → Option Bitvec) (aiValues : ℕ → ℕ) : ℕ → Bitvec → Option Bitvec
  | 0, p => some p
  | j + 1, p =>
    (rehashLoop f aiValues j p).bind fun p =>
      if aiValues j ≠ 0 then checkedSet f p (aiValues j) else some p

/-- The size of the smaller bit vectors. The sum has the width of `BITVEC_NPTR`, which is a `size_t`. -/
def divisor (ptr iSize : ℕ) : ℕ := (iSize + BITVEC_NPTR ptr - 1) % 2 ^ (8 * ptr) / BITVEC_NPTR ptr

/-- From `bitvec_set_rehash` on, for the value `i` and the free slot `h`. -/
def setRehash (ptr : ℕ) (f : Bitvec → ℕ → Option Bitvec) (iSize nSet iDivisor : ℕ)
    (aBitmap : ℕ → BitVec 8) (aHash : ℕ → ℕ) (apSub : ℕ → Bitvec) (i h : ℕ) : Option Bitvec :=
  if BITVEC_MXHASH ptr ≤ nSet then
    (checkedSet f (.mk iSize nSet (divisor ptr iSize) (fun _ => 0) (fun _ => 0) (fun _ => .null)) i).bind
      (rehashLoop f aHash (BITVEC_NINT ptr))
  else some (.mk iSize (nSet + 1) iDivisor aBitmap (Function.update aHash h i) apSub)

/-- `sqlite3BitvecSet` from `i--` on, with at most `n` levels of bit vectors and calls. -/
def setLoop (ptr : ℕ) : ℕ → Bitvec → ℕ → Option Bitvec
  | 0, _, _ => none
  | _ + 1, .null, _ => none
  | n + 1, .mk iSize nSet iDivisor aBitmap aHash apSub, i =>
    if BITVEC_NBIT ptr < iSize ∧ iDivisor ≠ 0 then
      (setLoop ptr n (subOrNew iDivisor (apSub (i / iDivisor))) (i % iDivisor)).map fun sub =>
        .mk iSize nSet iDivisor aBitmap aHash (Function.update apSub (i / iDivisor) sub)
    else if iSize ≤ BITVEC_NBIT ptr then
      some (.mk iSize nSet iDivisor (Function.update aBitmap (i / BITVEC_SZELEM)
        (aBitmap (i / BITVEC_SZELEM) ||| bitMask i)) aHash apSub)
    else if aHash (BITVEC_HASH ptr i) = 0 then
      if nSet < BITVEC_NINT ptr - 1 then
        some (.mk iSize (nSet + 1) iDivisor aBitmap
          (Function.update aHash (BITVEC_HASH ptr i) (i + 1)) apSub)
      else
        setRehash ptr (setLoop ptr n) iSize nSet iDivisor aBitmap aHash apSub (i + 1)
          (BITVEC_HASH ptr i)
    else
      (seek (nextSlot ptr) aHash (i + 1) (BITVEC_NINT ptr) (BITVEC_HASH ptr i)).bind fun h =>
        if aHash h = i + 1 then some (.mk iSize nSet iDivisor aBitmap aHash apSub)
        else setRehash ptr (setLoop ptr n) iSize nSet iDivisor aBitmap aHash apSub (i + 1) h

/-- No allocation fails. The result is `none` where an assertion fails or a loop does not end. -/
def sqlite3BitvecSet (ptr : ℕ) (p : Bitvec) (i : ℕ) : Option Bitvec :=
  match p with
  | .null => some .null
  | p => checkedSet (setLoop ptr (2 * p.iSize + 2)) p i

/-- The first `n` values of a hash table but `i` in a new table, and how many they are. -/
def refill (ptr : ℕ) (aiValues : ℕ → ℕ) (i : ℕ) : ℕ → Option ((ℕ → ℕ) × ℕ)
  | 0 => some (fun _ => 0, 0)
  | j + 1 =>
    (refill ptr aiValues i j).bind fun r =>
      if aiValues j ≠ 0 ∧ aiValues j ≠ i then
        (seek (nextSlot ptr) r.1 0 (BITVEC_NINT ptr) (BITVEC_HASH ptr (aiValues j - 1))).map fun h =>
          (Function.update r.1 h (aiValues j), r.2 + 1)
      else some r

/-- `sqlite3BitvecClear` from `i--` on. -/
def clearLoop (ptr : ℕ) : Bitvec → ℕ → Option Bitvec
  | .null, _ => some .null
  | .mk iSize nSet iDivisor aBitmap aHash apSub, i =>
    if iDivisor ≠ 0 then
      (clearLoop ptr (apSub (i / iDivisor)) (i % iDivisor)).map fun sub =>
        .mk iSize nSet iDivisor aBitmap aHash (Function.update apSub (i / iDivisor) sub)
    else if iSize ≤ BITVEC_NBIT ptr then
      some (.mk iSize nSet iDivisor (Function.update aBitmap (i / BITVEC_SZELEM)
        (aBitmap (i / BITVEC_SZELEM) &&& ~~~bitMask i)) aHash apSub)
    else
      (refill ptr aHash (i + 1) (BITVEC_NINT ptr)).map fun r => .mk iSize r.2 iDivisor aBitmap r.1 apSub

def sqlite3BitvecClear (ptr : ℕ) (p : Bitvec) (i : ℕ) : Option Bitvec :=
  match p with
  | .null => some .null
  | p => if 0 < i then clearLoop ptr p (i - 1) else none

variable {ptr n d i x nSet : ℕ} {p : Bitvec} {S S' : ℕ → Prop} {aBitmap : ℕ → BitVec 8}
  {aHash : ℕ → ℕ} {apSub : ℕ → Bitvec} {T : Finset ℕ}

/-- The slot where the search for a stored value starts. -/
def home (ptr v : ℕ) : ℕ := BITVEC_HASH ptr (v - 1)

/-- A bit vector for numbers below `n`. -/
inductive Repr (ptr : ℕ) : ℕ → Bitvec → (ℕ → Prop) → Prop
  | null {n : ℕ} {S : ℕ → Prop} (hS : ∀ x, ¬ S x) : Repr ptr n .null S
  | bitmap {n nSet : ℕ} {aBitmap : ℕ → BitVec 8} {aHash : ℕ → ℕ} {apSub : ℕ → Bitvec} {S : ℕ → Prop}
      (hn : n ≤ BITVEC_NBIT ptr)
      (hS : ∀ x, S x ↔ x < n ∧ aBitmap (x / BITVEC_SZELEM) &&& bitMask x ≠ 0) :
      Repr ptr n (.mk n nSet 0 aBitmap aHash apSub) S
  | hash {n : ℕ} {aBitmap : ℕ → BitVec 8} {aHash : ℕ → ℕ} {apSub : ℕ → Bitvec} {S : ℕ → Prop}
      (hn : BITVEC_NBIT ptr < n) (hmax : n + BITVEC_NPTR ptr ≤ 2 ^ 32) (T : Finset ℕ)
      (hT : Stored (BITVEC_NINT ptr) (home ptr) aHash T) (hlt : T.card < BITVEC_NINT ptr)
      (hS : ∀ x, S x ↔ x + 1 ∈ T) (hSn : ∀ x, S x → x < n) :
      Repr ptr n (.mk n T.card 0 aBitmap aHash apSub) S
  | sub {n nSet d : ℕ} {aBitmap : ℕ → BitVec 8} {aHash : ℕ → ℕ} {apSub : ℕ → Bitvec} {S : ℕ → Prop}
      (hn : BITVEC_NBIT ptr < n) (hmax : n + BITVEC_NPTR ptr ≤ 2 ^ 32) (hd : 0 < d) (hdn : d < n)
      (hcap : n ≤ d * BITVEC_NPTR ptr) (hSn : ∀ x, S x → x < n)
      (hsub : ∀ bin < BITVEC_NPTR ptr, Repr ptr d (apSub bin) fun y => y < d ∧ S (bin * d + y)) :
      Repr ptr n (.mk n nSet d aBitmap aHash apSub) S

theorem Repr.congr (h : Repr ptr n p S) (hS : ∀ x, S x ↔ S' x) : Repr ptr n p S' := by
  have heq : S = S' := funext fun x => propext (hS x)
  exact heq ▸ h

theorem Repr.iSize_eq (h : Repr ptr n p S) (hp : p ≠ .null) : p.iSize = n := by
  cases h with
  | null => exact absurd rfl hp
  | bitmap => rfl
  | hash => rfl
  | sub => rfl

section Sizes
variable (hptr : ptr = 4 ∨ ptr = 8)

include hptr in
theorem nint_pos : 0 < BITVEC_NINT ptr := by
  rcases hptr with rfl | rfl <;> decide

include hptr in
theorem mxhash_le : BITVEC_MXHASH ptr ≤ BITVEC_NINT ptr - 1 := by
  rcases hptr with rfl | rfl <;> decide

include hptr in
theorem nptr_bounds : 1 < BITVEC_NPTR ptr ∧ BITVEC_NPTR ptr < 1000 ∧ 1 < BITVEC_NBIT ptr := by
  rcases hptr with rfl | rfl <;> decide

end Sizes

theorem hash_lt (h : 0 < BITVEC_NINT ptr) (v : ℕ) : BITVEC_HASH ptr v < BITVEC_NINT ptr :=
  Nat.mod_lt _ h

theorem home_succ (ptr i : ℕ) : home ptr (i + 1) = BITVEC_HASH ptr i := rfl

theorem nextSlot_eq (k : ℕ) (hk : k < BITVEC_NINT ptr) : nextSlot ptr k = (k + 1) % BITVEC_NINT ptr := by
  rw [nextSlot]
  split_ifs with h
  · have heq : k + 1 = BITVEC_NINT ptr := by omega
    rw [heq, Nat.mod_self]
  · rw [Nat.mod_eq_of_lt (by omega)]

/-- The slot of a value in the array of smaller bit vectors. -/
theorem bin_lt (hi : i < n) (hcap : n ≤ d * BITVEC_NPTR ptr) : i / d < BITVEC_NPTR ptr :=
  Nat.div_lt_of_lt_mul (lt_of_lt_of_le hi hcap)

theorem bin_add (i d : ℕ) : i / d * d + i % d = i := by
  rw [mul_comm]
  exact Nat.div_add_mod i d

theorem bitMask_eq (i : ℕ) : bitMask i = 1#8 <<< (i % 8) := by
  rw [bitMask, BITVEC_SZELEM, Nat.and_two_pow_sub_one_eq_mod i 3]

theorem getLsbD_bitMask (i x : ℕ) : (bitMask i).getLsbD (x % 8) = true ↔ i % 8 = x % 8 := by
  have hlt : ∀ k < 8, ∀ j < 8, (1#8 <<< k).getLsbD j = true ↔ k = j := by decide
  rw [bitMask_eq]
  exact hlt _ (Nat.mod_lt i (by decide)) _ (Nat.mod_lt x (by decide))

theorem and_bitMask (b : BitVec 8) (i : ℕ) : b &&& bitMask i ≠ 0 ↔ b.getLsbD (i % 8) = true := by
  have hlt : ∀ k < 8, ∀ b : BitVec 8, b &&& 1#8 <<< k ≠ 0 ↔ b.getLsbD k = true := by decide
  rw [bitMask_eq]
  exact hlt _ (Nat.mod_lt i (by decide)) b

theorem or_bitMask (b : BitVec 8) (i x : ℕ) :
    (b ||| bitMask i) &&& bitMask x ≠ 0 ↔ b &&& bitMask x ≠ 0 ∨ i % 8 = x % 8 := by
  rw [and_bitMask, and_bitMask, BitVec.getLsbD_or, Bool.or_eq_true, getLsbD_bitMask]

theorem and_not_bitMask (b : BitVec 8) (i x : ℕ) :
    (b &&& ~~~bitMask i) &&& bitMask x ≠ 0 ↔ b &&& bitMask x ≠ 0 ∧ i % 8 ≠ x % 8 := by
  have hlt : x % 8 < 8 := Nat.mod_lt x (by decide)
  rw [and_bitMask, and_bitMask, BitVec.getLsbD_and, BitVec.getLsbD_not, Bool.and_eq_true,
    Bool.and_eq_true, Bool.not_eq_true', ← Bool.not_eq_true, getLsbD_bitMask]
  simp [hlt]

/-- Two numbers are equal when they have the same byte and the same bit of it. -/
theorem eq_iff_byte_bit {i x : ℕ} : x = i ↔ x / BITVEC_SZELEM = i / BITVEC_SZELEM ∧ i % 8 = x % 8 := by
  rw [BITVEC_SZELEM]
  omega

/-- The byte of a number is written. -/
theorem bit_update (b : BitVec 8) :
    Function.update aBitmap (i / BITVEC_SZELEM) b (x / BITVEC_SZELEM) &&& bitMask x ≠ 0 ↔
      (x / BITVEC_SZELEM = i / BITVEC_SZELEM ∧ b &&& bitMask x ≠ 0) ∨
        (x / BITVEC_SZELEM ≠ i / BITVEC_SZELEM ∧ aBitmap (x / BITVEC_SZELEM) &&& bitMask x ≠ 0) := by
  by_cases h : x / BITVEC_SZELEM = i / BITVEC_SZELEM
  · rw [h, Function.update_self]
    simp
  · rw [Function.update_of_ne h]
    simp [h]

theorem repr_create (h : 0 < BITVEC_NINT ptr) (hmax : n + BITVEC_NPTR ptr ≤ 2 ^ 32) :
    Repr ptr n (sqlite3BitvecCreate n) fun _ => False := by
  by_cases hn : n ≤ BITVEC_NBIT ptr
  · exact .bitmap hn fun x => by simp
  · exact .hash (not_le.mp hn) hmax ∅ (Stored.empty _ _) (by simpa using h) (by simp) (by simp)

theorem testLoop_spec (h0 : 0 < BITVEC_NINT ptr) (h : Repr ptr n p S) (hi : i < n) :
    ∃ b, testLoop ptr p i = some b ∧ (b = true ↔ S i) := by
  induction h generalizing i with
  | null hS => exact ⟨false, rfl, by simp [hS i]⟩
  | bitmap hn hS =>
    refine ⟨_, by rw [testLoop, if_neg (by simp), if_pos hn], ?_⟩
    rw [hS, decide_eq_true_eq]
    simp [hi]
  | hash hn hmax T hT hlt hS hSn =>
    have hnext : ∀ k < BITVEC_NINT ptr, (fun h => (h + 1) % BITVEC_NINT ptr) k =
        (k + 1) % BITVEC_NINT ptr := fun _ _ => rfl
    obtain ⟨k, -, hseek, hmem, hnew⟩ := hT.seek_spec (v := i + 1) hnext (hash_lt h0 _) (by simp) hlt
    rw [home_succ] at hseek
    refine ⟨_, by rw [testLoop, if_neg (by simp), if_neg (not_le.mpr hn), hseek, Option.map_some], ?_⟩
    rw [hS, decide_eq_true_eq]
    by_cases hT' : i + 1 ∈ T
    · simp [hmem hT', hT']
    · simp [(hnew hT').1, hT']
  | @sub n nSet d aBitmap aHash apSub S hn hmax hd hdn hcap hSn hsub ih =>
    obtain ⟨b, hb, hiff⟩ := ih (i / d) (bin_lt hi hcap) (Nat.mod_lt i hd)
    refine ⟨b, by rw [testLoop, if_pos hd.ne', hb], ?_⟩
    rw [hiff]
    dsimp only
    rw [bin_add]
    simp [Nat.mod_lt i hd]

/-- One entry of the array is replaced. -/
theorem sub_update {p' : Bitvec} {Q : ℕ → Prop} (hsub : ∀ bin < BITVEC_NPTR ptr, Repr ptr d (apSub bin) fun y =>
      y < d ∧ S (bin * d + y)) (hp : Repr ptr d p' fun y => y < d ∧ Q (i / d * d + y))
    (hS : ∀ x, x / d ≠ i / d → (Q x ↔ S x)) (hd : 0 < d) :
    ∀ bin < BITVEC_NPTR ptr, Repr ptr d (Function.update apSub (i / d) p' bin) fun y =>
      y < d ∧ Q (bin * d + y) := by
  intro bin hbin
  by_cases heq : bin = i / d
  · subst heq
    rwa [Function.update_self]
  · rw [Function.update_of_ne heq]
    apply (hsub bin hbin).congr
    intro y
    refine and_congr_right fun hy => (hS _ ?_).symm
    rwa [mul_comm, Nat.mul_add_div hd, Nat.div_eq_of_lt hy]

theorem refill_spec (h0 : 0 < BITVEC_NINT ptr) (hT : Stored (BITVEC_NINT ptr) (home ptr) aHash T)
    (hlt : T.card < BITVEC_NINT ptr) {j : ℕ} (hj : j ≤ BITVEC_NINT ptr) :
    ∃ slot T', refill ptr aHash i j = some (slot, T'.card) ∧
      Stored (BITVEC_NINT ptr) (home ptr) slot T' ∧
      ∀ v, v ∈ T' ↔ v ≠ 0 ∧ v ≠ i ∧ ∃ k < j, aHash k = v := by
  induction j with
  | zero => exact ⟨_, ∅, rfl, Stored.empty _ _, by simp⟩
  | succ j ih =>
    obtain ⟨slot, T', hrefill, hT', hmem⟩ := ih (by omega)
    rw [refill, hrefill, Option.bind_some]
    split_ifs with hcond
    · have hsub : T' ⊆ T := by
        intro v hv
        obtain ⟨hv0, -, k, hk, rfl⟩ := (hmem v).mp hv
        exact (hT.mem _).mpr ⟨hv0, k, by omega, rfl⟩
      have hnew : aHash j ∉ T' := by
        intro hc
        obtain ⟨-, -, k, hk, heq⟩ := (hmem _).mp hc
        have hkj := hT.inj k (by omega) j (by omega) heq (by rw [heq]; exact hcond.1)
        omega
      obtain ⟨k, -, hseek, hstored⟩ := hT'.seek_zero_spec (v := aHash j)
        nextSlot_eq (hash_lt h0 _) hcond.1 hnew (lt_of_le_of_lt (Finset.card_le_card hsub) hlt)
      refine ⟨_, insert (aHash j) T', ?_, hstored, fun v => ?_⟩
      · dsimp only
        rw [home] at hseek
        rw [hseek, Finset.card_insert_of_notMem hnew]
        rfl
      · rw [Finset.mem_insert, hmem]
        constructor
        · rintro (rfl | ⟨hv0, hvi, k, hk, hkv⟩)
          · exact ⟨hcond.1, hcond.2, j, Nat.lt_succ_self j, rfl⟩
          · exact ⟨hv0, hvi, k, by omega, hkv⟩
        · rintro ⟨hv0, hvi, k, hk, hkv⟩
          rcases Nat.lt_succ_iff_lt_or_eq.mp hk with hk | rfl
          · exact Or.inr ⟨hv0, hvi, k, hk, hkv⟩
          · exact Or.inl hkv.symm
    · refine ⟨slot, T', rfl, hT', fun v => ?_⟩
      rw [hmem]
      refine and_congr_right fun hv0 => and_congr_right fun hvi => ?_
      constructor
      · rintro ⟨k, hk, hkv⟩
        exact ⟨k, by omega, hkv⟩
      · rintro ⟨k, hk, hkv⟩
        rcases Nat.lt_succ_iff_lt_or_eq.mp hk with hk | rfl
        · exact ⟨k, hk, hkv⟩
        · subst hkv
          exact absurd ⟨hv0, hvi⟩ hcond

theorem clearLoop_spec (h0 : 0 < BITVEC_NINT ptr) (h : Repr ptr n p S) (hi : i < n) :
    ∃ p', clearLoop ptr p i = some p' ∧ Repr ptr n p' (fun x => S x ∧ x ≠ i) ∧
      (p ≠ .null → p' ≠ .null) := by
  induction h generalizing i with
  | null hS => exact ⟨.null, rfl, .null fun x hx => hS x hx.1, fun h => h⟩
  | bitmap hn hS =>
    refine ⟨_, by rw [clearLoop, if_neg (by simp), if_pos hn], .bitmap hn fun x => ?_, by simp⟩
    have hne : x ≠ i ↔ _ := not_congr eq_iff_byte_bit
    rw [bit_update, hS, and_not_bitMask, hne]
    by_cases hx : x / BITVEC_SZELEM = i / BITVEC_SZELEM
    · simp [hx, and_assoc]
    · simp [hx]
  | @hash n aBitmap aHash apSub S hn hmax T hT hlt hS hSn =>
    obtain ⟨slot, T', hrefill, hT', hmem⟩ := refill_spec (i := i + 1) h0 hT hlt le_rfl
    have hsub : T' ⊆ T := by
      intro v hv
      obtain ⟨hv0, -, k, hk, rfl⟩ := (hmem v).mp hv
      exact (hT.mem _).mpr ⟨hv0, k, hk, rfl⟩
    refine ⟨_, by rw [clearLoop, if_neg (by simp), if_neg (not_le.mpr hn), hrefill, Option.map_some],
      .hash hn hmax T' hT' (lt_of_le_of_lt (Finset.card_le_card hsub) hlt) (fun x => ?_)
        (fun x hx => hSn x hx.1), by simp⟩
    rw [hmem, hS, hT.mem]
    constructor
    · rintro ⟨⟨hv0, k, hk, hkv⟩, hne⟩
      exact ⟨hv0, by omega, k, hk, hkv⟩
    · rintro ⟨hv0, hvi, k, hk, hkv⟩
      exact ⟨⟨hv0, k, hk, hkv⟩, by omega⟩
  | @sub n nSet d aBitmap aHash apSub S hn hmax hd hdn hcap hSn hsub ih =>
    obtain ⟨p', hp', hrepr, -⟩ := ih (i / d) (bin_lt hi hcap) (Nat.mod_lt i hd)
    refine ⟨_, by rw [clearLoop, if_pos hd.ne', hp', Option.map_some],
      .sub hn hmax hd hdn hcap (fun x hx => hSn x hx.1) (sub_update (Q := fun x => S x ∧ x ≠ i)
        hsub (hrepr.congr fun y => ?_) (fun x hx => ?_) hd), by simp⟩
    · have hi' := bin_add i d
      rw [and_assoc]
      refine and_congr_right fun _ => and_congr_right fun _ => not_congr ?_
      omega
    · have hne : x ≠ i := by
        rintro rfl
        exact hx rfl
      simp [hne]

end Sqlite.Bits

import Sqlite.Record.Compare

/-! The order of values and of records: NULLs, then numbers, then texts, then blobs. -/
namespace Sqlite.Record
open Sqlite.Foundation

def Value.rank : Value → ℕ
  | .null => 0
  | .int _ => 1
  | .real _ => 1
  | .text _ => 2
  | .blob _ => 3

/-- Bytes from the first difference on, a proper prefix first. -/
def byteOrder (x y : Bytes) : ℤ :=
  let rc := memcmp x y
  if rc = 0 then (x.length : ℤ) - y.length else rc

section
variable (toDouble : ℤ → ℕ) (sqlite3ValueText : Utf.Enc → Utf.Enc → Bytes → Option Bytes)

/-- What a number is compared as, unless both are integers. -/
def Value.asDouble : Value → ℤ
  | .int i => Binary64.units (toDouble i)
  | .real r => Binary64.units r
  | _ => 0

/-- Values of one rank. -/
def withinRank (textOrder : Bytes → Bytes → ℤ) : Value → Value → ℤ
  | .int i, .int j => threeWay i j
  | .text x, .text y => textOrder x y
  | .blob x, .blob y => byteOrder x y
  | v, w => threeWay (v.asDouble toDouble) (w.asDouble toDouble)

def textOrder (enc : Utf.Enc) (coll : Option CollSeq) : Bytes → Bytes → ℤ :=
  match coll with
  | some c => collate sqlite3ValueText enc c
  | none => byteOrder

/-- The values of column `i`. -/
def columnOrder (k : KeyInfo) (i : ℕ) (v w : Value) : ℤ :=
  let c := byRank Value.rank (withinRank toDouble (textOrder sqlite3ValueText k.enc (k.coll i))) v w
  if k.desc i then -c else c

/-- Two records by their values. Of the second one no more than `nField + 1` values count. -/
def recordOrder (k : KeyInfo) (vs ws : List Value) : ℤ :=
  let c := firstNonzero (columnOrder toDouble sqlite3ValueText k) 0 vs (ws.take (k.nField + 1))
  if c ≠ 0 then c else if (ws.take (k.nField + 1)).length < vs.length then 1 else 0

end

theorem memcmp_take (x y : Bytes) :
    memcmp (x.take (min x.length y.length)) (y.take (min x.length y.length)) = memcmp x y := by
  induction x generalizing y with
  | nil => simp [memcmp]
  | cons a x ih =>
    cases y with
    | nil => simp [memcmp]
    | cons b y =>
      have htail := ih y
      simp only [List.length_cons, Nat.succ_min_succ, List.take_succ_cons, memcmp, htail]

theorem byteOrder_cons (a b : UInt8) (x y : Bytes) :
    byteOrder (a :: x) (b :: y) = if a = b then byteOrder x y else (a.toNat : ℤ) - b.toNat := by
  by_cases hab : a = b
  · simp [byteOrder, memcmp, hab]
  · have hne : a.toNat ≠ b.toNat := fun h => hab (UInt8.toNat_inj.mp h)
    have hsub : (a.toNat : ℤ) - b.toNat ≠ 0 := by omega
    simp [byteOrder, memcmp, hab, hsub]

theorem antisymm_byteOrder : Antisymm byteOrder := by
  intro x y
  induction x generalizing y with
  | nil =>
    simp only [byteOrder, memcmp]
    cases y <;> simp
    omega
  | cons a x ih =>
    cases y with
    | nil =>
      simp [byteOrder, memcmp]
      omega
    | cons b y =>
      have htail := ih y
      rw [byteOrder_cons, byteOrder_cons]
      by_cases hab : a = b
      · rwa [if_pos hab, if_pos hab.symm]
      · rw [if_neg hab, if_neg (Ne.symm hab)]
        omega

theorem transOn_byteOrder : TransOn byteOrder fun _ => True := by
  intro x y z _ _ _
  induction x generalizing y z with
  | nil =>
    cases z with
    | nil => simp [byteOrder, memcmp]
    | cons c z =>
      intro _ _
      simp [byteOrder, memcmp]
  | cons a x ih =>
    cases y with
    | nil =>
      intro hxy
      simp [byteOrder, memcmp] at hxy
      omega
    | cons b y =>
      cases z with
      | nil =>
        intro _ hyz
        simp [byteOrder, memcmp] at hyz
        omega
      | cons c z =>
        have htail := ih y z
        have hab : a = b ↔ a.toNat = b.toNat := UInt8.toNat_inj.symm
        have hbc : b = c ↔ b.toNat = c.toNat := UInt8.toNat_inj.symm
        have hac : a = c ↔ a.toNat = c.toNat := UInt8.toNat_inj.symm
        simp only [byteOrder_cons, hab, hbc, hac]
        intro hxy hyz
        split_ifs at * <;> omega

/-- One character's difference, or that of the lengths. -/
theorem byteOrder_bounds {x y : Bytes} (hx : x.length < 2 ^ 31) (hy : y.length < 2 ^ 31) :
    -2 ^ 31 < byteOrder x y ∧ byteOrder x y < 2 ^ 31 := by
  induction x generalizing y with
  | nil =>
    cases y with
    | nil => simp [byteOrder, memcmp]
    | cons b y =>
      simp only [byteOrder, memcmp]
      simp at hy ⊢
      omega
  | cons a x ih =>
    cases y with
    | nil =>
      simp only [byteOrder, memcmp]
      simp at hx ⊢
      omega
    | cons b y =>
      have ha := a.toNat_lt
      have hb := b.toNat_lt
      simp only [List.length_cons] at hx hy
      have htail := ih (y := y) (by omega) (by omega)
      rw [byteOrder_cons]
      split_ifs
      · exact htail
      · omega

/-- Two integers of one double beside the real that they round to. -/
def Clash (toDouble : ℤ → ℕ) (p : Value → Prop) : Prop :=
  ∃ i j r, p (.int i) ∧ p (.int j) ∧ p (.real r) ∧ i ≠ j ∧
    Binary64.units (toDouble i) = Binary64.units r ∧ Binary64.units (toDouble j) = Binary64.units r

/-- The conversion of the processor, where it rounds to nearest. -/
def Rounds (toDouble : ℤ → ℕ) : Prop :=
  ∀ i, -2 ^ 63 ≤ i → i < 2 ^ 63 → Binary64.IsNearest (toDouble i) i

/-- The integers among some values have sixty-four bits. -/
def InRange (p : Value → Prop) : Prop := ∀ i, p (.int i) → -2 ^ 63 ≤ i ∧ i < 2 ^ 63

section
variable {toDouble : ℤ → ℕ} {order : Bytes → Bytes → ℤ}

theorem antisymm_withinRank (h : Antisymm order) : Antisymm (withinRank toDouble order) := by
  intro v w
  have hcmp : Antisymm (threeWay : ℤ → ℤ → ℤ) := antisymm_threeWay
  cases v <;> cases w <;>
    first | exact hcmp _ _ | exact h _ _ | exact antisymm_byteOrder _ _

theorem asDouble_mono {p : Value → Prop} (hround : Rounds toDouble) (hrange : InRange p) {v w : Value}
    (hv : v.rank = 1 ∧ p v) (hw : w.rank = 1 ∧ p w) (h : withinRank toDouble order v w ≤ 0) :
    v.asDouble toDouble ≤ w.asDouble toDouble := by
  cases v with
  | int i =>
    cases w with
    | int j =>
      have hij : i ≤ j := threeWay_nonpos.mp h
      obtain ⟨hi, hi'⟩ := hrange i hv.2
      obtain ⟨hj, hj'⟩ := hrange j hw.2
      rcases hij.lt_or_eq with hlt | rfl
      · exact Binary64.nearest_mono (hround i hi hi') (hround j hj hj') hlt
      · exact le_rfl
    | real r => exact threeWay_nonpos.mp h
    | _ => simp [Value.rank] at hw
  | real r =>
    cases w with
    | int j => exact threeWay_nonpos.mp h
    | real s => exact threeWay_nonpos.mp h
    | _ => simp [Value.rank] at hw
  | _ => simp [Value.rank] at hv

theorem transOn_number {p : Value → Prop} (hround : Rounds toDouble) (hrange : InRange p)
    (hclash : ¬ Clash toDouble p) :
    TransOn (withinRank toDouble order) fun v => v.rank = 1 ∧ p v := by
  intro x y z hx hy hz hxy hyz
  have hxy' := asDouble_mono hround hrange hx hy hxy
  have hyz' := asDouble_mono hround hrange hy hz hyz
  have hxz := hxy'.trans hyz'
  cases x with
  | int i =>
    cases z with
    | int k =>
      cases y with
      | int j =>
        have hij : i ≤ j := threeWay_nonpos.mp hxy
        have hjk : j ≤ k := threeWay_nonpos.mp hyz
        exact threeWay_nonpos.mpr (hij.trans hjk)
      | real r =>
        -- the real is between the doubles of two integers in the wrong order
        apply threeWay_nonpos.mpr
        by_contra hki
        have hle : withinRank toDouble order (.int k) (.int i) ≤ 0 :=
          threeWay_nonpos.mpr (not_le.mp hki).le
        have hzx := asDouble_mono hround hrange hz hx hle
        simp only [Value.asDouble] at hxy' hyz' hzx
        exact hclash ⟨i, k, r, hx.2, hz.2, hy.2, by omega, by omega, by omega⟩
      | _ => simp [Value.rank] at hy
    | real r => exact threeWay_nonpos.mpr hxz
    | _ => simp [Value.rank] at hz
  | real r =>
    cases z with
    | int k => exact threeWay_nonpos.mpr hxz
    | real s => exact threeWay_nonpos.mpr hxz
    | _ => simp [Value.rank] at hz
  | _ => simp [Value.rank] at hx

theorem transOn_withinRank {p : Value → Prop} (hround : Rounds toDouble) (hrange : InRange p)
    (hclash : ¬ Clash toDouble p) (horder : TransOn order fun _ => True) (n : ℕ) :
    TransOn (withinRank toDouble order) fun v => v.rank = n ∧ p v := by
  by_cases hn : n = 1
  · rw [hn]
    exact transOn_number hround hrange hclash
  intro x y z hx hy hz
  cases x <;> cases y <;> cases z <;> simp only [Value.rank] at hx hy hz <;>
    first
    | omega
    | exact horder _ _ _ trivial trivial trivial
    | exact transOn_byteOrder _ _ _ trivial trivial trivial

end

structure CollSeq.IsPreorder (c : CollSeq) : Prop where
  antisymm : Antisymm c.xCmp
  trans : TransOn c.xCmp fun _ => True

/-- A preorder whose results are numbers of thirty-two bits that can be negated. -/
structure CollSeq.IsOrder (c : CollSeq) : Prop extends c.IsPreorder where
  gt : ∀ x y, -2 ^ 31 < c.xCmp x y
  lt : ∀ x y, c.xCmp x y < 2 ^ 31

def KeyInfo.IsPreorder (k : KeyInfo) : Prop := ∀ c, some c ∈ k.aColl → c.IsPreorder

def KeyInfo.IsOrder (k : KeyInfo) : Prop := ∀ c, some c ∈ k.aColl → c.IsOrder

section
variable {toDouble : ℤ → ℕ} {sqlite3ValueText : Utf.Enc → Utf.Enc → Bytes → Option Bytes}
  {k : KeyInfo}

theorem isOrder_coll (hk : k.IsOrder) {i : ℕ} {c : CollSeq} (h : k.coll i = some c) : c.IsOrder := by
  apply hk
  unfold KeyInfo.coll at h
  split_ifs at h with hi
  rw [List.getD_eq_getElem?_getD] at h
  cases hc : k.aColl[i]? with
  | none => simp [hc] at h
  | some d =>
    rw [hc] at h
    obtain rfl : d = some c := h
    exact List.mem_of_getElem? hc

theorem antisymm_collate {c : CollSeq} (hc : c.IsOrder) (enc : Utf.Enc) :
    Antisymm (collate sqlite3ValueText enc c) := by
  intro x y
  unfold collate
  split_ifs
  · exact hc.antisymm x y
  · exact hc.antisymm _ _

theorem transOn_collate {c : CollSeq} (hc : c.IsOrder) (enc : Utf.Enc) :
    TransOn (collate sqlite3ValueText enc c) fun _ => True := by
  intro x y z _ _ _
  unfold collate
  split_ifs
  · exact hc.trans x y z trivial trivial trivial
  · exact hc.trans _ _ _ trivial trivial trivial

theorem antisymm_textOrder (hk : k.IsOrder) (i : ℕ) :
    Antisymm (textOrder sqlite3ValueText k.enc (k.coll i)) := by
  unfold textOrder
  cases hc : k.coll i with
  | none => exact antisymm_byteOrder
  | some c => exact antisymm_collate (isOrder_coll hk hc) k.enc

theorem transOn_textOrder (hk : k.IsOrder) (i : ℕ) :
    TransOn (textOrder sqlite3ValueText k.enc (k.coll i)) fun _ => True := by
  unfold textOrder
  cases hc : k.coll i with
  | none => exact transOn_byteOrder
  | some c => exact transOn_collate (isOrder_coll hk hc) k.enc

theorem antisymm_columnOrder (hk : k.IsOrder) (i : ℕ) :
    Antisymm (columnOrder toDouble sqlite3ValueText k i) := by
  have h : Antisymm (byRank Value.rank
      (withinRank toDouble (textOrder sqlite3ValueText k.enc (k.coll i)))) :=
    antisymm_byRank (antisymm_withinRank (antisymm_textOrder hk i))
  unfold columnOrder
  cases k.desc i with
  | false => simpa using h
  | true => simpa using h.neg

theorem transOn_columnOrder {p : Value → Prop} (hround : Rounds toDouble) (hrange : InRange p)
    (hclash : ¬ Clash toDouble p) (hk : k.IsOrder) (i : ℕ) :
    TransOn (columnOrder toDouble sqlite3ValueText k i) p := by
  have hanti : Antisymm (byRank Value.rank
      (withinRank toDouble (textOrder sqlite3ValueText k.enc (k.coll i)))) :=
    antisymm_byRank (antisymm_withinRank (antisymm_textOrder hk i))
  have htext : TransOn (textOrder sqlite3ValueText k.enc (k.coll i)) fun _ => True :=
    transOn_textOrder hk i
  have htrans := transOn_byRank (transOn_withinRank hround hrange hclash htext)
  unfold columnOrder
  cases k.desc i with
  | false => simpa using htrans
  | true => simpa using htrans.neg hanti

/-- The bytes of a value are fewer than an `int` can count. -/
def Value.Short : Value → Prop
  | .text z => z.length < 2 ^ 31
  | .blob z => z.length < 2 ^ 31
  | _ => True

theorem threeWay_bounds (x y : ℤ) : -2 ^ 31 < threeWay x y ∧ threeWay x y < 2 ^ 31 := by
  unfold threeWay
  split_ifs <;> omega

theorem textOrder_bounds (hk : k.IsOrder) (i : ℕ) {x y : Bytes} (hx : x.length < 2 ^ 31)
    (hy : y.length < 2 ^ 31) : -2 ^ 31 < textOrder sqlite3ValueText k.enc (k.coll i) x y ∧
      textOrder sqlite3ValueText k.enc (k.coll i) x y < 2 ^ 31 := by
  unfold textOrder
  cases hc : k.coll i with
  | none => exact byteOrder_bounds hx hy
  | some c =>
    have horder := isOrder_coll hk hc
    simp only [collate]
    split_ifs
    · exact ⟨horder.gt _ _, horder.lt _ _⟩
    · exact ⟨horder.gt _ _, horder.lt _ _⟩

variable (toDouble sqlite3ValueText) in
theorem rank_bounds (hk : k.IsOrder) (i : ℕ) {v w : Value} (hv : v.Short) (hw : w.Short) :
    -2 ^ 31 < byRank Value.rank
        (withinRank toDouble (textOrder sqlite3ValueText k.enc (k.coll i))) v w ∧
      byRank Value.rank
        (withinRank toDouble (textOrder sqlite3ValueText k.enc (k.coll i))) v w < 2 ^ 31 := by
  unfold byRank
  split_ifs
  · omega
  · omega
  · cases v <;> cases w <;>
      first | exact threeWay_bounds _ _ | exact textOrder_bounds hk i hv hw | exact byteOrder_bounds hv hw

end

end Sqlite.Record

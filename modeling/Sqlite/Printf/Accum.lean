import Sqlite.Printf.Sound

/-! The accumulator that `sqlite3VXPrintf` appends to (`printf.c`): a buffer of the caller, or blocks of the heap once
that is full. -/
namespace Sqlite.Printf

open Foundation (Pointer slice)

/-- Where `zText` points to. -/
inductive Text
  | null
  | base
  | heap (block : List UInt8)
  deriving DecidableEq

/-- Of the block at `zBase` the contents are kept; the null pointer has none. -/
structure StrAccum where
  zBase : List UInt8
  zText : Text
  nChar : ℤ
  nAlloc : ℤ
  mxAlloc : ℤ
  mallocFailed : Bool
  useMalloc : ℕ
  tooBig : Bool
  deriving DecidableEq

namespace StrAccum

/-- The block at `zText`. -/
def text (p : StrAccum) : Option (List UInt8) :=
  match p.zText with
  | .null => none
  | .base => if p.zBase = [] then none else some p.zBase
  | .heap block => some block

def setText (p : StrAccum) (block : List UInt8) : StrAccum :=
  match p.zText with
  | .null => p
  | .base => { p with zBase := block }
  | .heap _ => { p with zText := .heap block }

end StrAccum

def sqlite3StrAccumInit (zBase : List UInt8) (n mx : ℤ) : StrAccum where
  zBase := zBase
  zText := .base
  nChar := 0
  nAlloc := n
  mxAlloc := mx
  mallocFailed := false
  useMalloc := 1
  tooBig := false

def sqlite3StrAccumReset (p : StrAccum) : StrAccum := { p with zText := .null }

section

variable (raw : ℕ → UInt8)

/-- A block of `n` bytes that starts with what the old one had; what follows may be anything. -/
def realloc (old : List UInt8) (n : ℕ) : List UInt8 := old.take n ++ ((List.range n).drop old.length).map raw

/-- The block that takes the place of `zText`. -/
def growText (p : StrAccum) (n : ℕ) : Except Stop (List UInt8) :=
  match p.zText with
  | .heap block => .ok (realloc raw block n)
  | _ =>
    if 0 < p.nChar then do
      let old ← inside (slice p.zBase 0 p.nChar)
      let q ← inside (Pointer.push ⟨realloc raw [] n, 0⟩ old)
      return q.block
    else .ok (realloc raw [] n)

/-- The bytes behind those that are there. -/
def copyText (p : StrAccum) (z : List UInt8) : Except Stop StrAccum := do
  let q ← inside (p.text.bind fun block => Pointer.push ⟨block, p.nChar⟩ z)
  return { p.setText q.block with nChar := p.nChar + z.length }

/-- `granted` tells whether the allocation succeeds, if there is one. -/
def sqlite3StrAccumAppend (granted : Bool) (p : StrAccum) (z : List UInt8) : Except Stop StrAccum :=
  if p.tooBig || p.mallocFailed then .ok p
  else if z = [] then .ok p
  else do
    let nNew ← int (p.nChar + z.length)
    if nNew < p.nAlloc then copyText p z
    else if p.useMalloc = 0 then
      let N := p.nAlloc - p.nChar - 1
      if N ≤ 0 then .ok { p with tooBig := true } else copyText { p with tooBig := true } (z.take N.toNat)
    else
      let szNew := p.nChar + (← int (z.length + 1))
      if p.mxAlloc < szNew then .ok { sqlite3StrAccumReset p with tooBig := true }
      else if granted then
        let zNew ← growText raw p szNew.toNat
        copyText { p with nAlloc := szNew, zText := .heap zNew } z
      else .ok { sqlite3StrAccumReset p with nAlloc := szNew, mallocFailed := true }

def sqlite3StrAccumFinish (granted : Bool) (p : StrAccum) : Except Stop StrAccum :=
  match p.text with
  | none => .ok p
  | some block => do
    let q ← inside (Pointer.write ⟨block, p.nChar⟩ p.nChar 0)
    let p := p.setText q.block
    if p.useMalloc ≠ 0 ∧ p.zText = .base then
      if granted then
        let zNew ← inside (slice p.zBase 0 (p.nChar + 1))
        return { p with zText := .heap zNew }
      else return { p with zText := .null, mallocFailed := true }
    else return p

def appendAll (p : StrAccum) : List (List UInt8 × Bool) → Except Stop StrAccum
  | [] => .ok p
  | (z, granted) :: l => do appendAll (← sqlite3StrAccumAppend raw granted p z) l

/-- From the start to the end: the texts of `l`, each with the outcome of its allocation. -/
def collect (zBase : List UInt8) (mx : ℤ) (useMalloc : ℕ) (l : List (List UInt8 × Bool)) (granted : Bool) :
    Except Stop StrAccum := do
  let p ← appendAll raw { sqlite3StrAccumInit zBase zBase.length mx with useMalloc } l
  sqlite3StrAccumFinish granted p

end

/-- The accumulator after the text `T`, with a buffer of `n` bytes; `refused` tells whether an allocation failed. -/
inductive Collects (n : ℕ) (mx : ℤ) (u : ℕ) (refused : Prop) : StrAccum → List UInt8 → Prop
  | base {zBase T : List UInt8} : zBase.length = n → T.length < n ∨ n = 0 ∧ T = [] → zBase.take T.length = T →
    Collects n mx u refused ⟨zBase, .base, T.length, n, mx, false, u, false⟩ T
  | heap {zBase block T : List UInt8} : u ≠ 0 → n ≤ T.length → T.length < block.length → block.take T.length = T →
    Collects n mx u refused ⟨zBase, .heap block, T.length, block.length, mx, false, u, false⟩ T
  | cut {zBase T : List UInt8} : u = 0 → zBase.length = n → n ≤ T.length ∧ T ≠ [] →
    zBase.take (n - 1) = T.take (n - 1) →
    Collects n mx u refused ⟨zBase, .base, (n - 1 : ℕ), n, mx, false, u, true⟩ T
  | gone {p : StrAccum} {T : List UInt8} : u ≠ 0 → p.zText = .null →
    p.mallocFailed ∧ refused ∨ p.tooBig ∧ n ≤ T.length ∧ mx ≤ T.length → Collects n mx u refused p T

section

variable {raw : ℕ → UInt8} {zBase block T z : List UInt8} {n u k : ℕ} {mx : ℤ} {p : StrAccum} {granted : Bool}
  {l : List (List UInt8 × Bool)} {refused : Prop}

theorem StrAccum.text_base (h : zBase ≠ []) {nChar nAlloc : ℤ} {failed big : Bool} :
    StrAccum.text ⟨zBase, .base, nChar, nAlloc, mx, failed, u, big⟩ = some zBase := if_neg h

theorem length_realloc (raw : ℕ → UInt8) (old : List UInt8) (n : ℕ) : (realloc raw old n).length = n := by
  rw [realloc, List.length_append, List.length_take, List.length_map, List.length_drop, List.length_range]
  omega

theorem take_realloc (h : k ≤ block.length) (hn : k ≤ n) : (realloc raw block n).take k = block.take k := by
  rw [realloc, List.take_append_of_le_length (by rw [List.length_take]; omega), List.take_take, min_eq_left hn]

theorem copyText_eq (hb : p.text = some block) (hk : p.nChar = k) (h : k + z.length ≤ block.length) :
    copyText p z =
      .ok { p.setText (block.take k ++ z ++ block.drop (k + z.length)) with nChar := p.nChar + z.length } := by
  rw [copyText, hb, Option.bind_some, hk, Pointer.push_eq h]
  rfl

theorem take_copied (hT : block.take T.length = T) :
    (block.take T.length ++ z ++ block.drop (T.length + z.length)).take (T ++ z).length = T ++ z := by
  rw [hT]
  exact List.take_left

theorem length_copied (block z : List UInt8) (h : k + z.length ≤ block.length) :
    (block.take k ++ z ++ block.drop (k + z.length)).length = block.length := by
  simp only [List.length_append, List.length_take, List.length_drop]
  omega

theorem collects_init (zBase : List UInt8) (mx : ℤ) (u : ℕ) :
    Collects zBase.length mx u False { sqlite3StrAccumInit zBase zBase.length mx with useMalloc := u } [] := by
  refine .base (T := []) rfl ?_ rfl
  obtain h0 | hpos := Nat.eq_zero_or_pos zBase.length
  · exact .inr ⟨h0, rfl⟩
  · exact .inl hpos

theorem Collects.mono (h : Collects n mx u refused p T) {refused' : Prop} (himp : refused → refused') :
    Collects n mx u refused' p T := by
  cases h with
  | base hn hT htake => exact .base hn hT htake
  | heap hu hn hlt htake => exact .heap hu hn hlt htake
  | cut hu hn hle htake => exact .cut hu hn hle htake
  | gone hu hnull hflags => exact .gone hu hnull (hflags.imp_left (And.imp_right himp))

/-- The bytes go to the new block. -/
theorem copyText_heap (zBase : List UInt8) (hu : u ≠ 0) (hn : n ≤ T.length + z.length) (hT : block.take T.length = T)
    (h : T.length + z.length < block.length) : ∃ p',
      copyText ⟨zBase, .heap block, T.length, block.length, mx, false, u, false⟩ z = .ok p' ∧
        Collects n mx u refused p' (T ++ z) := by
  refine ⟨_, copyText_eq rfl rfl h.le, ?_⟩
  have hlen := length_copied block z h.le
  have hcollects : Collects n mx u refused ⟨zBase, .heap (block.take T.length ++ z ++ block.drop (T.length + z.length)),
      (T ++ z).length, (block.take T.length ++ z ++ block.drop (T.length + z.length)).length, mx, false, u, false⟩
      (T ++ z) :=
    .heap hu (by rwa [List.length_append]) (by rw [hlen, List.length_append]; exact h) (take_copied hT)
  rw [hlen, List.length_append, Nat.cast_add] at hcollects
  exact hcollects

/-- A block for one byte more than the text. -/
theorem growText_eq (raw : ℕ → UInt8) (hp : p.zText = .base ∧ p.zBase.take T.length = T ∨
      ∃ block, p.zText = .heap block ∧ block.take T.length = T) (hk : p.nChar = T.length) (hn : T.length ≤ n) :
    ∃ b, growText raw p n = .ok b ∧ b.length = n ∧ b.take T.length = T := by
  have hle : ∀ {b : List UInt8}, b.take T.length = T → T.length ≤ b.length := by
    intro b hb
    have hlen := congrArg List.length hb
    rw [List.length_take] at hlen
    omega
  obtain ⟨hz, hT⟩ | ⟨block, hz, hT⟩ := hp
  · rw [growText, hz, hk]
    dsimp only
    by_cases hpos : (0 : ℤ) < T.length
    · have hfit : (0 : ℤ) ≤ 0 ∧ (0 : ℤ) ≤ T.length ∧ 0 + (T.length : ℤ) ≤ p.zBase.length := by
        have := hle hT
        omega
      have hroom : 0 + T.length ≤ (realloc raw [] n).length := by rw [length_realloc]; omega
      have hpush := Pointer.push_eq hroom
      rw [if_pos hpos, slice, if_pos hfit, Int.toNat_zero, List.drop_zero, Int.toNat_natCast, hT, inside_some, ok_bind]
      rw [Nat.cast_zero] at hpush
      rw [hpush]
      refine ⟨_, rfl, (length_copied _ T hroom).trans (length_realloc raw [] n), ?_⟩
      rw [List.take_zero, List.nil_append, List.take_left]
    · obtain rfl := List.eq_nil_of_length_eq_zero (show T.length = 0 by omega)
      rw [if_neg hpos]
      exact ⟨_, rfl, length_realloc raw [] n, rfl⟩
  · rw [growText, hz]
    exact ⟨_, rfl, length_realloc raw block n, (take_realloc (hle hT) hn).trans hT⟩

/-- A text too long for what there is goes to a new block, if that is allowed and there is one. -/
theorem append_grow (hu : u ≠ 0) (hz : z ≠ []) (hp : p.zText = .base ∧ p.zBase.take T.length = T ∨
      ∃ block, p.zText = .heap block ∧ block.take T.length = T) (hk : p.nChar = T.length) (hm : p.mxAlloc = mx)
    (hu' : p.useMalloc = u) (hflags : p.tooBig = false ∧ p.mallocFailed = false)
    (hlong : p.nAlloc ≤ T.length + z.length) (hn : n ≤ T.length + z.length) :
    sqlite3StrAccumAppend raw granted p z = .error .overflow ∧ 2 ^ 31 ≤ (T ++ z).length + 1 ∨
      ∃ p', sqlite3StrAccumAppend raw granted p z = .ok p' ∧
        Collects n mx u (refused ∨ granted = false) p' (T ++ z) := by
  have hlen : (T ++ z).length = T.length + z.length := List.length_append
  have hpos := List.length_pos_of_ne_nil hz
  rw [sqlite3StrAccumAppend, hflags.1, hflags.2, Bool.or_self, if_neg Bool.false_ne_true, if_neg hz, hk]
  by_cases hint : (T.length : ℤ) + z.length < 2 ^ 31
  case neg => exact .inl ⟨by rw [int_error (by omega), error_bind], by omega⟩
  rw [int_ok ⟨by omega, hint⟩, ok_bind, if_neg (by omega), if_neg (by rw [hu']; exact hu)]
  by_cases hint₁ : (z.length : ℤ) + 1 < 2 ^ 31
  case neg => exact .inl ⟨by rw [int_error (by omega), error_bind], by omega⟩
  rw [int_ok ⟨by omega, hint₁⟩, ok_bind, hm]
  refine .inr ?_
  by_cases hbig : mx < T.length + (z.length + 1)
  · rw [if_pos hbig]
    exact ⟨_, rfl, .gone hu rfl (.inr ⟨rfl, by omega, by omega⟩)⟩
  rw [if_neg hbig]
  cases granted with
  | false => exact ⟨_, rfl, .gone hu rfl (.inl ⟨rfl, .inr rfl⟩)⟩
  | true =>
    have hnat : ((T.length : ℤ) + (z.length + 1)).toNat = T.length + (z.length + 1) := by omega
    obtain ⟨b, hgrow, hb, hT⟩ := growText_eq raw hp hk (show T.length ≤ T.length + (z.length + 1) by omega)
    obtain ⟨p', hcopy, hc⟩ := copyText_heap p.zBase hu hn hT (show T.length + z.length < b.length by omega)
    refine ⟨p', ?_, hc⟩
    rw [if_pos rfl, hnat, hgrow, ok_bind, ← hcopy]
    congr 1
    obtain ⟨zBase, zText, nChar, nAlloc, mxAlloc, mallocFailed, useMalloc, tooBig⟩ := p
    dsimp only at hk hm hu' hflags ⊢
    rw [hu', hb]
    push_cast
    rfl

/-- A text that there is room for. -/
theorem append_fits (raw : ℕ → UInt8) (granted : Bool) (hz : z ≠ []) (hk : p.nChar = T.length)
    (hflags : p.tooBig = false ∧ p.mallocFailed = false) (hroom : T.length + z.length < p.nAlloc) :
    sqlite3StrAccumAppend raw granted p z = .error .overflow ∧ 2 ^ 31 ≤ (T ++ z).length + 1 ∨
      sqlite3StrAccumAppend raw granted p z = copyText p z := by
  have hlen : (T ++ z).length = T.length + z.length := List.length_append
  rw [sqlite3StrAccumAppend, hflags.1, hflags.2, Bool.or_self, if_neg Bool.false_ne_true, if_neg hz, hk]
  by_cases hint : (T.length : ℤ) + z.length < 2 ^ 31
  · exact .inr (by rw [int_ok ⟨by omega, hint⟩, ok_bind, if_pos hroom])
  · exact .inl ⟨by rw [int_error (by omega), error_bind], by omega⟩

/-- A text too long for the buffer, without the heap: as much of it as leaves room for the zero byte. -/
theorem append_cut (raw : ℕ → UInt8) (granted : Bool) (hz : z ≠ []) (hn : zBase.length = n)
    (hT : T.length < n ∨ n = 0 ∧ T = []) (htake : zBase.take T.length = T) (hlong : n ≤ T.length + z.length) :
    let p : StrAccum := ⟨zBase, .base, T.length, n, mx, false, 0, false⟩
    sqlite3StrAccumAppend raw granted p z = .error .overflow ∧ 2 ^ 31 ≤ (T ++ z).length + 1 ∨
      ∃ p', sqlite3StrAccumAppend raw granted p z = .ok p' ∧ Collects n mx 0 refused p' (T ++ z) := by
  have hlen : (T ++ z).length = T.length + z.length := List.length_append
  have hne' : T ++ z ≠ [] := List.append_ne_nil_of_right_ne_nil T hz
  dsimp only
  rw [sqlite3StrAccumAppend, Bool.or_self, if_neg Bool.false_ne_true, if_neg hz]
  dsimp only
  by_cases hint : (T.length : ℤ) + z.length < 2 ^ 31
  case neg => exact .inl ⟨by rw [int_error (by omega), error_bind], by omega⟩
  rw [int_ok ⟨by omega, hint⟩, ok_bind, if_neg (by omega), if_pos rfl]
  refine .inr ?_
  by_cases hfull : (n : ℤ) - T.length - 1 ≤ 0
  · rw [if_pos hfull]
    refine ⟨_, rfl, ?_⟩
    have hk : T.length = n - 1 := by
      obtain hlt | ⟨h0, rfl⟩ := hT
      · omega
      · rw [h0]; rfl
    rw [show (T.length : ℤ) = (n - 1 : ℕ) by rw [hk]]
    refine .cut rfl hn ⟨by omega, hne'⟩ ?_
    rw [← hk, htake, List.take_left]
  · rw [if_neg hfull, show ((n : ℤ) - T.length - 1).toNat = n - 1 - T.length by omega]
    have hzl : (z.take (n - 1 - T.length)).length = n - 1 - T.length := by rw [List.length_take]; omega
    have hcopied := length_copied zBase (z.take (n - 1 - T.length)) (k := T.length) (by omega)
    refine ⟨_, copyText_eq (StrAccum.text_base (List.ne_nil_of_length_pos (by omega))) rfl (by omega), ?_⟩
    rw [hzl] at hcopied ⊢
    have hcut : Collects n mx 0 refused ⟨zBase.take T.length ++ z.take (n - 1 - T.length) ++
        zBase.drop (T.length + (n - 1 - T.length)), .base, (n - 1 : ℕ), n, mx, false, 0, true⟩ (T ++ z) := by
      refine .cut rfl (hcopied.trans hn) ⟨by omega, hne'⟩ ?_
      rw [htake, List.take_left' (by rw [List.length_append, hzl]; omega), List.take_append,
        List.take_of_length_le (show T.length ≤ n - 1 by omega)]
    rw [show ((n - 1 : ℕ) : ℤ) = T.length + (n - 1 - T.length : ℕ) by omega] at hcut
    exact hcut

/-- One text more. -/
theorem append_collects (raw : ℕ → UInt8) (h : Collects n mx u refused p T) (z : List UInt8) (granted : Bool) :
    sqlite3StrAccumAppend raw granted p z = .error .overflow ∧ 2 ^ 31 ≤ (T ++ z).length + 1 ∨
      ∃ p', sqlite3StrAccumAppend raw granted p z = .ok p' ∧
        Collects n mx u (refused ∨ granted = false) p' (T ++ z) := by
  have hlen : (T ++ z).length = T.length + z.length := List.length_append
  obtain rfl | hz := eq_or_ne z []
  · refine .inr ⟨p, ?_, by rw [List.append_nil]; exact h.mono .inl⟩
    rw [sqlite3StrAccumAppend, if_pos (show ([] : List UInt8) = [] from rfl), ite_self]
  have hne : T ++ z ≠ [] := List.append_ne_nil_of_right_ne_nil T hz
  cases h with
  | @base zBase T hn hT htake =>
    by_cases hlong : n ≤ T.length + z.length
    · obtain rfl | hu := eq_or_ne u 0
      · exact append_cut raw granted hz hn hT htake hlong
      · exact append_grow hu hz (.inl ⟨rfl, htake⟩) rfl rfl rfl ⟨rfl, rfl⟩ (by dsimp only; omega) hlong
    · have hroom : T.length + z.length ≤ zBase.length := by omega
      refine (append_fits raw granted hz rfl ⟨rfl, rfl⟩ (by dsimp only; omega)).imp_right fun happ => ?_
      refine ⟨_, happ.trans (copyText_eq (StrAccum.text_base (List.ne_nil_of_length_pos (by omega))) rfl hroom), ?_⟩
      have hcollects : Collects n mx u (refused ∨ granted = false) ⟨zBase.take T.length ++ z ++
          zBase.drop (T.length + z.length), .base, (T ++ z).length, n, mx, false, u, false⟩ (T ++ z) :=
        .base ((length_copied zBase z hroom).trans hn) (.inl (by omega)) (take_copied htake)
      rw [hlen, Nat.cast_add] at hcollects
      exact hcollects
  | @heap zBase block T hu hn hlt htake =>
    by_cases hlong : (block.length : ℤ) ≤ T.length + z.length
    · exact append_grow hu hz (.inr ⟨block, rfl, htake⟩) rfl rfl rfl ⟨rfl, rfl⟩ hlong (by omega)
    · refine (append_fits raw granted hz rfl ⟨rfl, rfl⟩ (by dsimp only; omega)).imp_right fun happ => ?_
      rw [happ]
      exact copyText_heap zBase hu (by omega) htake (by omega)
  | @cut zBase T hu hn hle htake =>
    refine .inr ⟨_, if_pos rfl, .cut hu hn ⟨by omega, hne⟩ ?_⟩
    rw [htake, List.take_append_of_le_length (by omega)]
  | @gone p T hu hnull hflags =>
    have hflag : (p.tooBig || p.mallocFailed) = true := by
      obtain ⟨h, -⟩ | ⟨h, -⟩ := hflags
      · rw [h, Bool.or_true]
      · rw [h, Bool.true_or]
    refine .inr ⟨p, if_pos hflag, .gone hu hnull ?_⟩
    exact hflags.imp (And.imp_right .inl) fun h => ⟨h.1, by omega, by omega⟩

/-- All the texts. An int overflows only where the text that is due is too long for one. -/
theorem appendAll_collects (raw : ℕ → UInt8) (h : Collects n mx u refused p T) (l : List (List UInt8 × Bool)) :
    appendAll raw p l = .error .overflow ∧ 2 ^ 31 ≤ (T ++ (l.map Prod.fst).flatten).length + 1 ∨
      ∃ p', appendAll raw p l = .ok p' ∧
        Collects n mx u (refused ∨ ∃ x ∈ l, x.2 = false) p' (T ++ (l.map Prod.fst).flatten) := by
  induction l generalizing p T refused with
  | nil =>
    refine .inr ⟨p, rfl, ?_⟩
    rw [List.map_nil, List.flatten_nil, List.append_nil]
    exact h.mono .inl
  | cons x l ih =>
    rw [List.map_cons, List.flatten_cons, ← List.append_assoc, appendAll]
    obtain ⟨herr, hlong⟩ | ⟨p', happ, h'⟩ := append_collects raw h x.1 x.2
    · refine .inl ⟨by rw [herr, error_bind], ?_⟩
      rw [List.length_append]
      omega
    · rw [happ, ok_bind]
      refine (ih h').imp_right ?_
      rintro ⟨p'', hall, h''⟩
      refine ⟨p'', hall, h''.mono ?_⟩
      rintro ((hr | hx) | ⟨y, hy, hf⟩)
      · exact .inl hr
      · exact .inr ⟨x, List.mem_cons_self, hx⟩
      · exact .inr ⟨y, List.mem_cons_of_mem _ hy, hf⟩

/-- What the caller gets of the text `T`. Without the heap, as much of it as there is room for in front of the zero
byte; else all of it, or a null pointer. -/
inductive Finished (n : ℕ) (mx : ℤ) (u : ℕ) (refused : Prop) (T : List UInt8) (p : StrAccum) : Prop
  | buffer : u = 0 → p.zText = .base → p.zBase.length = n → (n = 0 ∨ T.take (n - 1) ++ [0] <+: p.zBase) →
    (p.tooBig ↔ n ≤ T.length ∧ T ≠ []) → Finished n mx u refused T p
  | heap (block : List UInt8) : u ≠ 0 → p.zText = .heap block → T ++ [0] <+: block → p.tooBig = false →
    p.mallocFailed = false → Finished n mx u refused T p
  | null : u ≠ 0 → p.text = none →
    p.mallocFailed ∧ refused ∨ p.tooBig ∧ n ≤ T.length ∧ mx ≤ T.length ∨ n = 0 ∧ T = [] → Finished n mx u refused T p

/-- The zero byte behind the text. -/
theorem zero_behind (block : List UInt8) (h : k < block.length) :
    Pointer.write ⟨block, k⟩ k 0 = some ⟨block.set k 0, k⟩ ∧
      (block.set k 0).take (k + 1) = block.take k ++ [0] := by
  constructor
  · have hin : (0 : ℤ) ≤ k ∧ (k : ℤ) < block.length := by omega
    rw [Pointer.write, if_pos hin, Int.toNat_natCast]
  · rw [List.take_succ_eq_append_getElem (by rwa [List.length_set]), List.take_set_of_le le_rfl, List.getElem_set_self]

theorem finish_collects (h : Collects n mx u refused p T) (granted : Bool) :
    ∃ p', sqlite3StrAccumFinish granted p = .ok p' ∧ Finished n mx u (refused ∨ granted = false) T p' := by
  cases h with
  | @base zBase T hn hT htake =>
    obtain rfl | hne := eq_or_ne zBase []
    · have hnil : n = 0 ∧ T = [] := by
        rw [← hn] at hT ⊢
        exact ⟨rfl, hT.elim (fun h => absurd h (Nat.not_lt_zero _)) And.right⟩
      obtain ⟨rfl, rfl⟩ := hnil
      refine ⟨_, rfl, ?_⟩
      obtain hu | hu := eq_or_ne u 0
      · exact .buffer hu rfl rfl (.inl rfl) (by simp)
      · exact .null hu rfl (.inr (.inr ⟨rfl, rfl⟩))
    · have hpos := List.length_pos_of_ne_nil hne
      have hlt : T.length < zBase.length := by omega
      obtain ⟨hwrite, hzero⟩ := zero_behind zBase hlt
      rw [htake] at hzero
      have hpre : T ++ [0] <+: zBase.set T.length 0 := hzero ▸ List.take_prefix _ _
      rw [sqlite3StrAccumFinish, StrAccum.text_base hne]
      dsimp only
      rw [hwrite, inside_some, ok_bind]
      obtain rfl | hu := eq_or_ne u 0
      · refine ⟨_, rfl, .buffer rfl rfl ((List.length_set ..).trans hn) (.inr ?_) ?_⟩
        · rwa [List.take_of_length_le (by omega)]
        · exact ⟨nofun, fun h => absurd h.1 (by omega)⟩
      · rw [if_pos ⟨hu, rfl⟩]
        cases granted with
        | false => exact ⟨_, rfl, .null hu rfl (.inl ⟨rfl, .inr rfl⟩)⟩
        | true =>
          have hslice : slice (zBase.set T.length 0) 0 (T.length + 1) = some (T ++ [0]) := by
            rw [slice, if_pos (by rw [List.length_set]; omega), Int.toNat_zero, List.drop_zero,
              show ((T.length : ℤ) + 1).toNat = T.length + 1 by omega, hzero]
          rw [if_pos rfl, StrAccum.setText]
          dsimp only
          rw [hslice, inside_some, ok_bind]
          exact ⟨_, rfl, .heap (T ++ [0]) hu rfl (List.prefix_refl _) rfl rfl⟩
  | @heap zBase block T hu hn hlt htake =>
    obtain ⟨hwrite, hzero⟩ := zero_behind block hlt
    rw [htake] at hzero
    rw [sqlite3StrAccumFinish, show StrAccum.text _ = some block from rfl]
    dsimp only
    rw [hwrite, inside_some, ok_bind, if_neg (fun h => Text.noConfusion h.2)]
    exact ⟨_, rfl, .heap (block.set T.length 0) hu rfl (hzero ▸ List.take_prefix _ _) rfl rfl⟩
  | @cut zBase T hu hn hle htake =>
    obtain rfl | hne := eq_or_ne zBase []
    · exact ⟨_, rfl, .buffer hu rfl hn (.inl hn.symm) (iff_of_true rfl hle)⟩
    · have hpos := List.length_pos_of_ne_nil hne
      have hlt : n - 1 < zBase.length := by omega
      obtain ⟨hwrite, hzero⟩ := zero_behind zBase hlt
      rw [htake] at hzero
      rw [sqlite3StrAccumFinish, StrAccum.text_base hne]
      dsimp only
      rw [hwrite, inside_some, ok_bind, if_neg (fun h => h.1 hu)]
      exact ⟨_, rfl, .buffer hu rfl ((List.length_set ..).trans hn) (.inr (hzero ▸ List.take_prefix _ _))
        (iff_of_true rfl hle)⟩
  | @gone p T hu hnull hflags =>
    have htext : p.text = none := by rw [StrAccum.text, hnull]
    refine ⟨p, by rw [sqlite3StrAccumFinish, htext], .null hu htext ?_⟩
    exact hflags.imp (And.imp_right .inl) .inl

/-- The accumulator loses nothing and adds nothing: what is left out is what the buffer has no room for, or all
because an allocation failed or the text is as long as the longest one allowed. -/
theorem collect_finished (raw : ℕ → UInt8) (zBase : List UInt8) (mx : ℤ) (u : ℕ) (l : List (List UInt8 × Bool))
    (granted : Bool) :
    collect raw zBase mx u l granted = .error .overflow ∧ 2 ^ 31 ≤ ((l.map Prod.fst).flatten).length + 1 ∨
      ∃ p, collect raw zBase mx u l granted = .ok p ∧
        Finished zBase.length mx u ((∃ x ∈ l, x.2 = false) ∨ granted = false) ((l.map Prod.fst).flatten) p := by
  rw [collect]
  obtain ⟨herr, hlong⟩ | ⟨p, happ, h⟩ :=
    appendAll_collects raw (collects_init zBase mx u) l
  · exact .inl ⟨by rw [herr, error_bind], hlong⟩
  · obtain ⟨p', hfin, h'⟩ := finish_collects h granted
    refine .inr ⟨p', by rw [happ, ok_bind, hfin], ?_⟩
    rw [false_or] at h'
    exact h'

/-- Two texts of two bytes in a buffer of four, first without the heap. -/
example :
    (collect (fun _ => 9) [9, 9, 9, 9] 100 0 [([1, 2], true), ([3, 4], true)] true).map StrAccum.text =
        .ok (some [1, 2, 3, 0]) ∧
      (collect (fun _ => 9) [9, 9, 9, 9] 100 1 [([1, 2], true), ([3, 4], true)] true).map StrAccum.text =
        .ok (some [1, 2, 3, 4, 0]) := ⟨rfl, rfl⟩

end

end Sqlite.Printf

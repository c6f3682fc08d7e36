import Sqlite.Complete.Model
import Sqlite.Numeric.Atoi

/-! What the loop of `sqlite3_complete` makes of white space, comments, quoted texts and words. -/
namespace Sqlite.Complete

open Numeric (ch sqlite3Isspace sqlite3Isspace_iff sqlite3Isdigit)
open HashTable (fold sqlite3StrNICmp sqlite3UpperToLower sqlite3StrNICmp_eq_zero_iff)

variable {b c : UInt8} {z z' rest w : List UInt8} {t : Tk} {s : State} {i : ℕ}

/-! The automaton. -/

theorem trans_ws (s : State) : trans s .tkWS = s := by
  cases s <;> rfl

theorem trans_other (s : State) : trans (trans s .tkOTHER) .tkOTHER = trans s .tkOTHER := by
  cases s <;> rfl

theorem trans_other_ne (s : State) : trans s .tkOTHER ≠ .START := by
  cases s <;> decide

/-! One round of the loop. -/

theorem completeLoop_token (h0 : b ≠ 0) (h : round b z = .token t rest) :
    completeLoop (b :: z) s = completeLoop rest (trans s t) := by
  rw [completeLoop, if_neg h0]
  split
  · rename_i h'
    rw [h] at h'
    cases h'
  · rename_i h'
    rw [h] at h'
    cases h'
  · rename_i h'
    rw [h] at h'
    cases h'
    rfl

theorem completeLoop_zero (h0 : b ≠ 0) (h : round b z = .zero) :
    completeLoop (b :: z) s = false := by
  rw [completeLoop, if_neg h0]
  split
  · rfl
  · rename_i h'
    rw [h] at h'
    cases h'
  · rename_i h'
    rw [h] at h'
    cases h'

theorem completeLoop_byState (h0 : b ≠ 0) (h : round b z = .byState) :
    completeLoop (b :: z) s = decide (s = .START) := by
  rw [completeLoop, if_neg h0]
  split
  · rename_i h'
    rw [h] at h'
    cases h'
  · rfl
  · rename_i h'
    rw [h] at h'
    cases h'

/-- The loop goes from one place to another over nothing but `tkOTHER`. -/
inductive Passes : List UInt8 → List UInt8 → Prop
  | refl (z : List UInt8) : Passes z z
  | step {b : UInt8} {z z' z'' : List UInt8} : b ≠ 0 → round b z = .token .tkOTHER z' →
      Passes z' z'' → Passes (b :: z) z''

theorem Passes.trans {z z' z'' : List UInt8} (h : Passes z z') (h' : Passes z' z'') :
    Passes z z'' := by
  induction h with
  | refl z => exact h'
  | step h0 hr _ ih => exact .step h0 hr (ih h')

theorem Passes.one (h0 : b ≠ 0) (h : round b z = .token .tkOTHER z') : Passes (b :: z) z' :=
  .step h0 h (.refl _)

theorem Passes.congr (h : Passes (b :: z) z') (hne : b :: z ≠ z') (hr : round b w = round b z) :
    Passes (b :: w) z' := by
  cases h with
  | refl => exact absurd rfl hne
  | step h0 hround hp => exact .step h0 (hr.trans hround) hp

/-- Several `tkOTHER` are one. -/
theorem Passes.loop (h : Passes z z') (hne : z ≠ z') (s : State) :
    completeLoop z s = completeLoop z' (Complete.trans s .tkOTHER) := by
  induction h generalizing s with
  | refl z => exact absurd rfl hne
  | @step b z z' z'' h0 hr hp ih =>
    rw [completeLoop_token h0 hr]
    by_cases heq : z' = z''
    · rw [heq]
    · rw [ih heq, trans_other]

/-! Bytes. -/

theorem byteAt_cons (b : UInt8) (z : List UInt8) : byteAt (b :: z) 0 = b := rfl

theorem byteAt_drop (z : List UInt8) (i j : ℕ) : byteAt (z.drop i) j = byteAt z (i + j) := by
  unfold byteAt
  rw [List.getD_eq_getElem?_getD, List.getD_eq_getElem?_getD, List.getElem?_drop]

theorem byteAt_drop_zero (z : List UInt8) (i : ℕ) : byteAt (z.drop i) 0 = byteAt z i :=
  byteAt_drop z i 0

theorem drop_takeWhile (p : UInt8 → Bool) (l : List UInt8) :
    l.drop (l.takeWhile p).length = l.dropWhile p := by
  induction l with
  | nil => rfl
  | cons a l ih => by_cases h : p a <;> simp [h, ih]

theorem take_takeWhile (p : UInt8 → Bool) (l : List UInt8) :
    l.take (l.takeWhile p).length = l.takeWhile p := by
  induction l with
  | nil => rfl
  | cons a l ih => by_cases h : p a <;> simp [h, ih]

theorem drop_skipWhile (p : UInt8 → Bool) (z : List UInt8) (i : ℕ) :
    z.drop (skipWhile p z i) = (z.drop i).dropWhile p := by
  unfold skipWhile
  rw [← List.drop_drop, drop_takeWhile]

theorem take_skipWhile_one (p : UInt8 → Bool) (b : UInt8) (z : List UInt8) :
    (b :: z).take (skipWhile p (b :: z) 1) = b :: z.takeWhile p := by
  rw [skipWhile, Nat.add_comm, List.take_succ_cons, List.drop_succ_cons, List.drop_zero,
    take_takeWhile]

theorem byteAt_dropWhile (p : UInt8 → Bool) (h0 : ¬ p 0) (z : List UInt8) :
    ¬ p (byteAt (z.dropWhile p) 0) := by
  cases h : z.dropWhile p with
  | nil => exact h0
  | cons b z' =>
    have hnot := List.head?_dropWhile_not p z
    rw [h, List.head?_cons] at hnot
    rw [byteAt_cons, Bool.not_eq_true]
    exact hnot

theorem takeWhile_run {p : UInt8 → Bool} (hw : ∀ x ∈ w, p x) (hrest : ¬ p (byteAt rest 0)) :
    (w ++ rest).takeWhile p = w := by
  rw [List.takeWhile_append_of_pos hw]
  cases rest with
  | nil => exact List.append_nil w
  | cons b rest =>
    rw [byteAt_cons] at hrest
    rw [List.takeWhile_cons_of_neg hrest, List.append_nil]

theorem cons_of_byteAt (h : byteAt z 0 = c) (hc : c ≠ 0) : ∃ z', z = c :: z' := by
  cases z with
  | nil => exact absurd h.symm hc
  | cons b z => exact ⟨z, by rw [← h]; rfl⟩

theorem idChar_of_digit (h : sqlite3Isdigit b) : IdChar b := by
  refine decide_eq_true fun h0 => of_decide_eq_true h ?_
  have hbit : 0x04 = 0x46 &&& 0x04 := by decide
  rw [hbit, ← Nat.and_assoc, h0, Nat.zero_and]

/-! Searches. -/

theorem skipTo_some (hw : ∀ x ∈ w, x ≠ 0 ∧ x ≠ c) (hc : c ≠ 0) :
    skipTo c (w ++ c :: rest) = some rest := by
  induction w with
  | nil => rw [List.nil_append, skipTo, if_neg hc, if_pos rfl]
  | cons x w ih =>
    obtain ⟨h0, hx⟩ := hw x List.mem_cons_self
    rw [List.cons_append, skipTo, if_neg h0, if_neg hx]
    exact ih fun y hy => hw y (List.mem_cons_of_mem _ hy)

theorem skipTo_none (hw : ∀ x ∈ w, x ≠ 0 ∧ x ≠ c) : skipTo c w = none := by
  induction w with
  | nil => rfl
  | cons x w ih =>
    obtain ⟨h0, hx⟩ := hw x List.mem_cons_self
    rw [skipTo, if_neg h0, if_neg hx]
    exact ih fun y hy => hw y (List.mem_cons_of_mem _ hy)

/-- In a text without zero bytes a search finds its byte or goes to the end. -/
theorem search_cases (hz : 0 ∉ z) (c : UInt8) :
    (∃ w rest, z = w ++ c :: rest ∧ ∀ x ∈ w, x ≠ 0 ∧ x ≠ c) ∨ ∀ x ∈ z, x ≠ 0 ∧ x ≠ c := by
  by_cases hc : c ∈ z
  · obtain ⟨w, rest, rfl, hw⟩ := List.eq_append_cons_of_mem hc
    refine .inl ⟨w, rest, rfl, fun x hx => ⟨?_, ?_⟩⟩
    · rintro rfl
      exact hz (List.mem_append_left _ hx)
    · rintro rfl
      exact hw hx
  · refine .inr fun x hx => ⟨?_, ?_⟩
    · rintro rfl
      exact hz hx
    · rintro rfl
      exact hc hx

theorem dropWhile_found {p : UInt8 → Bool} (hw : ∀ x ∈ w, p x) (hc : ¬ p c) :
    (w ++ c :: rest).dropWhile p = c :: rest := by
  rw [List.dropWhile_append_of_pos hw, List.dropWhile_cons_of_neg hc]

/-! White space and comments. -/

/-- The white space that the loop knows. -/
def IsWs (b : UInt8) : Prop := b = ch ' ' ∨ b = ch '\r' ∨ b = ch '\t' ∨ b = ch '\n' ∨ b = 0x0c

theorem IsWs.round (h : IsWs b) (z : List UInt8) : b ≠ 0 ∧ round b z = .token .tkWS z := by
  rcases h with rfl | rfl | rfl | rfl | rfl <;> exact ⟨by decide, rfl⟩

theorem IsWs.isspace (h : IsWs b) : sqlite3Isspace b := by
  rcases h with rfl | rfl | rfl | rfl | rfl <;> decide

theorem isWs_of_space (h : sqlite3Isspace b) (hvt : b ≠ 0x0b) : IsWs b := by
  obtain h | ⟨h9, h13⟩ := sqlite3Isspace_iff.mp h
  · exact .inl h
  · have hne : b.toNat ≠ 11 := fun h11 => hvt (UInt8.toNat_inj.mp h11)
    have hlow : 9 ≤ b.toNat := h9
    have hhigh : b.toNat ≤ 13 := h13
    obtain h | h | h | h : b.toNat = 13 ∨ b.toNat = 9 ∨ b.toNat = 10 ∨ b.toNat = 12 := by omega
    · exact .inr (.inl (UInt8.toNat_inj.mp h))
    · exact .inr (.inr (.inl (UInt8.toNat_inj.mp h)))
    · exact .inr (.inr (.inr (.inl (UInt8.toNat_inj.mp h))))
    · exact .inr (.inr (.inr (.inr (UInt8.toNat_inj.mp h))))

/-- White space changes no state, and a vertical tab none that other tokens do not change. -/
theorem ws_run (hw : ∀ x ∈ w, IsWs x ∨ x = 0x0b ∧ trans s .tkOTHER = s) :
    completeLoop (w ++ rest) s = completeLoop rest s := by
  induction w with
  | nil => rfl
  | cons x w ih =>
    have hrun := ih fun y hy => hw y (List.mem_cons_of_mem _ hy)
    obtain hws | ⟨rfl, hs⟩ := hw x List.mem_cons_self
    · obtain ⟨h0, hr⟩ := hws.round (w ++ rest)
      rw [List.cons_append, completeLoop_token h0 hr, trans_ws, hrun]
    · have hr : round 0x0b (w ++ rest) = .token .tkOTHER (w ++ rest) := rfl
      rw [List.cons_append, completeLoop_token (by decide) hr, hs, hrun]

theorem step_space (hb : IsWs b) (hvt : 0x0b ∈ (b :: z).take (skipWhile sqlite3Isspace (b :: z) 1) →
    trans s .tkOTHER = s) : completeLoop (b :: z) s =
      completeLoop ((b :: z).drop (skipWhile sqlite3Isspace (b :: z) 1)) s := by
  rw [take_skipWhile_one] at hvt
  rw [drop_skipWhile]
  have hw : ∀ x ∈ b :: z.takeWhile sqlite3Isspace, IsWs x ∨ x = 0x0b ∧ trans s .tkOTHER = s := by
    intro x hx
    by_cases hxb : x = b
    · exact .inl (hxb ▸ hb)
    · have hmem : x ∈ z.takeWhile sqlite3Isspace := (List.mem_cons.mp hx).resolve_left hxb
      by_cases hx' : x = 0x0b
      · exact .inr ⟨hx', hvt (hx' ▸ hx)⟩
      · exact .inl (isWs_of_space (List.mem_takeWhile_imp hmem) hx')
  have hrun : completeLoop (_ ++ z.dropWhile sqlite3Isspace) s = _ := ws_run hw
  rw [List.cons_append, List.takeWhile_append_dropWhile] at hrun
  exact hrun

theorem step_lineComment (hz : 0 ∉ z) (s : State) : completeLoop (ch '-' :: ch '-' :: z) s =
    completeLoop ((ch '-' :: ch '-' :: z).drop
      (skipWhile (fun c => c ≠ 0 ∧ c ≠ ch '\n') (ch '-' :: ch '-' :: z) 2)) s := by
  have hround : round (ch '-') (ch '-' :: z) =
      Round.byState.upTo .tkWS (skipTo (ch '\n') (ch '-' :: z)) := rfl
  have hfirst : skipTo (ch '\n') (ch '-' :: z) = skipTo (ch '\n') z := rfl
  rw [hfirst] at hround
  rw [drop_skipWhile]
  show _ = completeLoop (z.dropWhile _) s
  obtain ⟨w, rest, rfl, hw⟩ | hall := search_cases hz (ch '\n')
  · rw [skipTo_some hw (by decide)] at hround
    rw [completeLoop_token (by decide) hround, trans_ws,
      dropWhile_found (fun x hx => decide_eq_true (hw x hx)) (by simp)]
    exact (ws_run (w := [ch '\n']) (by simp [IsWs])).symm
  · rw [skipTo_none hall] at hround
    have hnil : z.dropWhile (fun c => decide (c ≠ 0 ∧ c ≠ ch '\n')) = [] := by
      rw [List.dropWhile_eq_nil_iff]
      exact fun x hx => decide_eq_true (hall x hx)
    rw [completeLoop_byState (by decide) hround, hnil, completeLoop]

/-- A comment whose end is found. -/
theorem commentLoop_skip (hz : 0 ∉ c :: z) (h : (commentLoop c z i).2 ≠ 0) :
    skipComment (c :: z) = some (z.drop ((commentLoop c z i).1 + 1 - i)) := by
  induction z generalizing c i with
  | nil => exact absurd rfl h
  | cons d z ih =>
    have hc : c ≠ 0 := fun hc => hz (hc ▸ List.mem_cons_self)
    have hd : d ≠ 0 := fun hd => hz (hd ▸ List.mem_cons_of_mem _ List.mem_cons_self)
    rw [skipComment, if_neg hc]
    rw [commentLoop] at h ⊢
    by_cases hend : c = ch '*' ∧ d = ch '/'
    · rw [if_pos hend, if_pos hend, Nat.add_sub_cancel_left]
      rfl
    · rw [if_neg hend, if_neg hd] at h
      have hle := le_commentLoop d z (i + 1)
      have hsucc : (commentLoop d z (i + 1)).1 + 1 - i =
          (commentLoop d z (i + 1)).1 + 1 - (i + 1) + 1 := by
        omega
      rw [if_neg hend, if_neg hend, if_neg hd, ih (fun hmem => hz (List.mem_cons_of_mem _ hmem)) h,
        hsucc, List.drop_succ_cons]

/-- A comment that is closed has its end found. -/
theorem commentLoop_closed {a : List UInt8} (hz : 0 ∉ c :: z)
    (h : c :: z = a ++ ch '*' :: ch '/' :: rest) : (commentLoop c z i).2 ≠ 0 := by
  induction a generalizing c z i with
  | nil =>
    obtain ⟨rfl, rfl⟩ := List.cons.inj h
    rw [commentLoop, if_pos ⟨rfl, rfl⟩]
    exact fun hc => hz (hc ▸ List.mem_cons_self)
  | cons x a ih =>
    obtain ⟨rfl, hrest⟩ := List.cons.inj h
    cases z with
    | nil => simp at hrest
    | cons d z =>
      have hz' : 0 ∉ d :: z := fun hmem => hz (List.mem_cons_of_mem _ hmem)
      rw [commentLoop]
      split
      · exact fun hc => hz (hc ▸ List.mem_cons_self)
      rw [if_neg fun hd : d = 0 => hz' (hd ▸ List.mem_cons_self)]
      exact ih hz' hrest

theorem step_comment (hz : 0 ∉ c :: z)
    (hclosed : ¬ Token.Unterminated ⟨.TK_SPACE, (ch '/' :: ch '*' :: c :: z).take
      (if (commentLoop c z 3).2 ≠ 0 then (commentLoop c z 3).1 + 1
        else (commentLoop c z 3).1), rest⟩)
    (s : State) : completeLoop (ch '/' :: ch '*' :: c :: z) s =
      completeLoop ((ch '/' :: ch '*' :: c :: z).drop
        (if (commentLoop c z 3).2 ≠ 0 then (commentLoop c z 3).1 + 1
          else (commentLoop c z 3).1)) s := by
  by_cases hend : (commentLoop c z 3).2 ≠ 0
  · have hround : round (ch '/') (ch '*' :: c :: z) =
        Round.zero.upTo .tkWS (skipComment (c :: z)) := rfl
    have hle := le_commentLoop c z 3
    rw [commentLoop_skip hz hend] at hround
    rw [completeLoop_token (by decide) hround, trans_ws, if_pos hend]
    have hsucc : (commentLoop c z 3).1 + 1 = (commentLoop c z 3).1 + 1 - 3 + 3 := by omega
    rw [hsucc, Nat.add_sub_cancel]
    rfl
  · rw [if_neg hend] at hclosed
    have hle := le_commentLoop c z 3
    obtain ⟨k, hk⟩ : ∃ k, (commentLoop c z 3).1 = k + 2 := ⟨(commentLoop c z 3).1 - 2, by omega⟩
    refine absurd ⟨rfl, ?_, ?_⟩ hclosed
    · rw [hk]
      exact ⟨_, rfl⟩
    · rintro ⟨a, ha⟩
      apply hend
      dsimp only at ha
      rw [hk, List.take_succ_cons, List.take_succ_cons] at ha
      have htake := (List.cons.inj (List.cons.inj ha).2).2
      have hall : c :: z = a ++ ch '*' :: ch '/' :: (c :: z).drop k := by
        calc c :: z = (c :: z).take k ++ (c :: z).drop k := (List.take_append_drop k _).symm
          _ = _ := by rw [htake, List.append_assoc]; rfl
      exact commentLoop_closed hz hall

/-! Quoted texts. -/

theorem round_quote (hq : c = ch '`' ∨ c = ch '\'' ∨ c = ch '"') (z : List UInt8) :
    c ≠ 0 ∧ round c z = Round.zero.upTo .tkOTHER (skipTo c z) := by
  rcases hq with rfl | rfl | rfl <;> exact ⟨by decide, rfl⟩

/-- The loop reads a quoted text as several, one after each doubled quote. -/
theorem quoteLoop_passes (hq : c = ch '`' ∨ c = ch '\'' ∨ c = ch '"')
    (h : (quoteLoop c z i).2 ≠ 0) : (quoteLoop c z i).2 = c ∧
      Passes (c :: z) (z.drop ((quoteLoop c z i).1 + 1 - i)) := by
  induction z, i using quoteLoop.induct c with
  | case1 i =>
    rw [quoteLoop] at h
    exact absurd rfl h
  | case2 z i =>
    rw [quoteLoop, if_pos rfl] at h
    exact absurd rfl h
  | case3 z i hd h0 ih =>
    rw [quoteLoop, if_neg h0, if_pos rfl, if_pos hd] at h ⊢
    obtain ⟨hc, hp⟩ := ih h
    obtain ⟨z', rfl⟩ := cons_of_byteAt hd h0
    have hle := le_quoteLoop c ((c :: z').drop 1) (i + 2)
    have hsucc : (quoteLoop c ((c :: z').drop 1) (i + 2)).1 + 1 - i =
        (quoteLoop c ((c :: z').drop 1) (i + 2)).1 + 1 - (i + 2) + 1 + 1 := by omega
    rw [hsucc]
    refine ⟨hc, .step h0 ?_ hp⟩
    rw [(round_quote hq _).2, skipTo, if_neg h0, if_pos rfl]
    rfl
  | case4 z i hd h0 =>
    rw [quoteLoop, if_neg h0, if_pos rfl, if_neg hd]
    refine ⟨rfl, .one h0 ?_⟩
    rw [(round_quote hq _).2, skipTo, if_neg h0, if_pos rfl, Nat.add_sub_cancel_left]
    rfl
  | case5 d z i h0 hd ih =>
    rw [quoteLoop, if_neg h0, if_neg hd] at h ⊢
    obtain ⟨hc, hp⟩ := ih h
    have hle := le_quoteLoop c z (i + 1)
    have hsucc : (quoteLoop c z (i + 1)).1 + 1 - i = (quoteLoop c z (i + 1)).1 + 1 - (i + 1) + 1 := by
      omega
    have hround : round c (d :: z) = round c z := by
      rw [(round_quote hq _).2, (round_quote hq _).2, skipTo, if_neg h0, if_neg hd]
    refine ⟨hc, ?_⟩
    rw [hsucc, List.drop_succ_cons]
    refine hp.congr (fun heq => ?_) hround
    have hlen := congrArg List.length heq
    rw [List.length_drop, List.length_cons] at hlen
    omega

theorem bracket_passes (hz : 0 ∉ z)
    (h : byteAt (ch '[' :: z) (skipWhile (fun c => c ≠ 0 ∧ c ≠ ch ']') (ch '[' :: z) 1) = ch ']') :
    Passes (ch '[' :: z)
      ((ch '[' :: z).drop (skipWhile (fun c => c ≠ 0 ∧ c ≠ ch ']') (ch '[' :: z) 1 + 1)) := by
  have hround : round (ch '[') z = Round.zero.upTo .tkOTHER (skipTo (ch ']') z) := rfl
  have hdrop := drop_skipWhile (fun c => c ≠ 0 ∧ c ≠ ch ']') (ch '[' :: z) 1
  rw [List.drop_succ_cons, List.drop_zero] at hdrop
  obtain ⟨w, rest, rfl, hw⟩ | hall := search_cases hz (ch ']')
  · rw [dropWhile_found (fun x hx => decide_eq_true (hw x hx)) (by simp)] at hdrop
    rw [← List.tail_drop, hdrop]
    apply Passes.one (by decide)
    rw [hround, skipTo_some hw (by decide)]
    rfl
  · have hnil : z.dropWhile (fun c => decide (c ≠ 0 ∧ c ≠ ch ']')) = [] := by
      rw [List.dropWhile_eq_nil_iff]
      exact fun x hx => decide_eq_true (hall x hx)
    rw [← byteAt_drop_zero, hdrop, hnil] at h
    exact absurd h (by decide)

/-! Words. -/

theorem round_word (hb : IdChar b) (hw : ∀ x ∈ w, IdChar x) (hrest : ¬ IdChar (byteAt rest 0)) :
    b ≠ 0 ∧ round b (w ++ rest) = .token (wordToken (b :: (w ++ rest)) (w.length + 1)) rest := by
  have hne {x : UInt8} (hx : ¬ IdChar x) : b ≠ x := fun h => hx (h ▸ hb)
  have hrun : skipWhile IdChar (b :: (w ++ rest)) 1 = w.length + 1 := by
    rw [skipWhile, List.drop_succ_cons, List.drop_zero, takeWhile_run hw hrest, Nat.add_comm]
  refine ⟨hne (by decide), ?_⟩
  unfold round
  rw [if_neg (hne (by decide)), if_neg, if_neg (hne (by decide)), if_neg (hne (by decide)),
    if_neg (hne (by decide)), if_neg, if_pos hb]
  · dsimp only
    rw [hrun, Nat.add_sub_cancel, List.drop_left]
  · rintro (h | h | h)
    · exact hne (by decide) h
    · exact hne (by decide) h
    · exact hne (by decide) h
  · rintro (h | h | h | h | h)
    · exact hne (by decide) h
    · exact hne (by decide) h
    · exact hne (by decide) h
    · exact hne (by decide) h
    · exact hne (by decide) h

theorem strNICmp_append (n : ℕ) (w rest kw : List UInt8) (hn : n ≤ w.length) :
    sqlite3StrNICmp n (w ++ rest) kw = sqlite3StrNICmp n w kw := by
  induction n generalizing w kw with
  | zero => rfl
  | succ n ih =>
    cases w with
    | nil => exact absurd hn (by simp)
    | cons a w =>
      have hn' : n ≤ w.length := by simpa using hn
      rw [List.cons_append, sqlite3StrNICmp, sqlite3StrNICmp, List.headD_cons, List.headD_cons,
        List.tail_cons, List.tail_cons, ih w kw.tail hn']

/-- The comparison of a whole word with a keyword. -/
theorem word_iff (kw : List UInt8) (hw : 0 ∉ w) (n : ℕ) (hn : kw.length = n) (hkw : fold kw = kw)
    (rest : List UInt8) :
    (w.length = n ∧ sqlite3StrNICmp n (w ++ rest) kw = 0) ↔ fold w = kw := by
  constructor
  · rintro ⟨hlen, h⟩
    rw [strNICmp_append n w rest kw hlen.ge, ← hn,
      sqlite3StrNICmp_eq_zero_iff hw (hlen.trans hn.symm), hkw] at h
    exact h
  · intro h
    have hlen : w.length = kw.length := by
      rw [← h, fold, List.length_map]
    refine ⟨hlen.trans hn, ?_⟩
    rw [strNICmp_append n w rest kw (hlen.trans hn).ge, ← hn,
      sqlite3StrNICmp_eq_zero_iff hw hlen, hkw]
    exact h

theorem lower_iff {x y : UInt8} (hx : 97 ≤ x.toNat ∧ x.toNat ≤ 122) (hy : y.toNat + 32 = x.toNat) :
    sqlite3UpperToLower b = x ↔ b = x ∨ b = y := by
  have hb := b.toNat_lt
  rw [← UInt8.toNat_inj, ← UInt8.toNat_inj (b := x), ← UInt8.toNat_inj (b := y), sqlite3UpperToLower]
  split
  · rename_i h
    rw [UInt8.le_iff_toNat_le, UInt8.le_iff_toNat_le] at h
    obtain ⟨h1, h2⟩ : 65 ≤ b.toNat ∧ b.toNat ≤ 90 := h
    rw [UInt8.toNat_add]
    show (b.toNat + 32) % 256 = _ ↔ _
    omega
  · rename_i h
    rw [UInt8.le_iff_toNat_le, UInt8.le_iff_toNat_le] at h
    have h' : ¬ (65 ≤ b.toNat ∧ b.toNat ≤ 90) := h
    omega

/-- What the loop makes of a word. -/
theorem wordToken_eq (hw : 0 ∉ b :: w) (rest : List UInt8) :
    wordToken (b :: w ++ rest) (b :: w).length =
      if fold (b :: w) = "create".toList.map ch then .tkCREATE
      else if fold (b :: w) = "trigger".toList.map ch then .tkTRIGGER
      else if fold (b :: w) = "temp".toList.map ch then .tkTEMP
      else if fold (b :: w) = "temporary".toList.map ch then .tkTEMP
      else if fold (b :: w) = "end".toList.map ch then .tkEND
      else if fold (b :: w) = "explain".toList.map ch then .tkEXPLAIN
      else .tkOTHER := by
  have h1 := word_iff ("create".toList.map ch) hw 6 rfl rfl rest
  have h2 := word_iff ("trigger".toList.map ch) hw 7 rfl rfl rest
  have h3 := word_iff ("temp".toList.map ch) hw 4 rfl rfl rest
  have h4 := word_iff ("temporary".toList.map ch) hw 9 rfl rfl rest
  have h5 := word_iff ("end".toList.map ch) hw 3 rfl rfl rest
  have h6 := word_iff ("explain".toList.map ch) hw 7 rfl rfl rest
  have hhead {x : UInt8} {kw : List UInt8} (h : fold (b :: w) = x :: kw) :
      sqlite3UpperToLower b = x := (List.cons.inj h).1
  have hc : sqlite3UpperToLower b = ch 'c' ↔ b = ch 'c' ∨ b = ch 'C' := lower_iff (by decide) rfl
  have ht : sqlite3UpperToLower b = ch 't' ↔ b = ch 't' ∨ b = ch 'T' := lower_iff (by decide) rfl
  have he : sqlite3UpperToLower b = ch 'e' ↔ b = ch 'e' ∨ b = ch 'E' := lower_iff (by decide) rfl
  have hcreate : fold (b :: w) = "create".toList.map ch → b = ch 'c' ∨ b = ch 'C' :=
    fun h => hc.mp (hhead h)
  have htrigger : fold (b :: w) = "trigger".toList.map ch → b = ch 't' ∨ b = ch 'T' :=
    fun h => ht.mp (hhead h)
  have htemp : fold (b :: w) = "temp".toList.map ch → b = ch 't' ∨ b = ch 'T' :=
    fun h => ht.mp (hhead h)
  have htemporary : fold (b :: w) = "temporary".toList.map ch → b = ch 't' ∨ b = ch 'T' :=
    fun h => ht.mp (hhead h)
  have hend : fold (b :: w) = "end".toList.map ch → b = ch 'e' ∨ b = ch 'E' :=
    fun h => he.mp (hhead h)
  have hexplain : fold (b :: w) = "explain".toList.map ch → b = ch 'e' ∨ b = ch 'E' :=
    fun h => he.mp (hhead h)
  unfold wordToken
  simp only [h1, h2, h3, h4, h5, h6]
  show (if b = ch 'c' ∨ b = ch 'C' then _ else if b = ch 't' ∨ b = ch 'T' then _
    else if b = ch 'e' ∨ b = ch 'E' then _ else _) = _
  by_cases hbc : b = ch 'c' ∨ b = ch 'C'
  · have hnt : ¬ (b = ch 't' ∨ b = ch 'T') := by rcases hbc with rfl | rfl <;> decide
    have hne : ¬ (b = ch 'e' ∨ b = ch 'E') := by rcases hbc with rfl | rfl <;> decide
    rw [if_pos hbc, if_neg (mt htrigger hnt), if_neg (mt htemp hnt), if_neg (mt htemporary hnt),
      if_neg (mt hend hne), if_neg (mt hexplain hne)]
  rw [if_neg hbc, if_neg (mt hcreate hbc)]
  by_cases hbt : b = ch 't' ∨ b = ch 'T'
  · have hne : ¬ (b = ch 'e' ∨ b = ch 'E') := by rcases hbt with rfl | rfl <;> decide
    rw [if_pos hbt, if_neg (mt hend hne), if_neg (mt hexplain hne)]
  rw [if_neg hbt, if_neg (mt htrigger hbt), if_neg (mt htemp hbt), if_neg (mt htemporary hbt)]
  by_cases hbe : b = ch 'e' ∨ b = ch 'E'
  · rw [if_pos hbe]
  · rw [if_neg hbe, if_neg (mt hend hbe), if_neg (mt hexplain hbe)]

/-- A word is the same for both. -/
theorem KeywordTable.wordToken {keywordCode : List UInt8 → TK} (h : KeywordTable keywordCode)
    (hw : 0 ∉ b :: w) (rest : List UInt8) :
    Complete.wordToken (b :: w ++ rest) (b :: w).length = tokenTk (keywordCode (b :: w)) := by
  rw [wordToken_eq hw rest]
  have hword := h.word (b :: w)
  have h1 := h.create (b :: w)
  have h2 := h.trigger (b :: w)
  have h3 := h.temp (b :: w)
  have h4 := h.end_ (b :: w)
  have h5 := h.explain (b :: w)
  split_ifs with hc ht htemp htemporary he hx
  · rw [h1.mpr hc]
    rfl
  · rw [h2.mpr ht]
    rfl
  · rw [h3.mpr (.inl htemp)]
    rfl
  · rw [h3.mpr (.inr htemporary)]
    rfl
  · rw [h4.mpr he]
    rfl
  · rw [h5.mpr hx]
    rfl
  · have hcreate := mt h1.mp hc
    have htrigger := mt h2.mp ht
    have htemps := mt h3.mp (not_or.mpr ⟨htemp, htemporary⟩)
    have hend := mt h4.mp he
    have hexplain := mt h5.mp hx
    cases hk : keywordCode (b :: w) <;>
      first | rfl | exact absurd hk ‹_› | exact absurd (hk ▸ hword) (by simp)

end Sqlite.Complete

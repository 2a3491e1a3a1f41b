import CommentTags.Text.Cells.FitWidth
import Mathlib.Data.List.Chain
import Mathlib.Data.List.TakeWhile
import Mathlib.Tactic.SplitIfs

namespace CommentTags.Text.Cells

variable {last last' : Option Char} {c : Char} {s : List Char} {n : Nat}

theorem charWidth_joiner : charWidth joiner = 0 := by
  decide

theorem charWidth_selector : charWidth selector = 0 := by
  decide

theorem charWidth_le_two (c : Char) : charWidth c ≤ 2 := by
  unfold charWidth
  split
  · decide
  · split <;> decide

theorem ne_of_charWidth_ne_zero (h : charWidth c ≠ 0) : c ≠ joiner ∧ c ≠ selector := by
  refine ⟨?_, ?_⟩
  · rintro rfl
    exact h charWidth_joiner
  · rintro rfl
    exact h charWidth_selector

def Ascending (ranges : List (Nat × Nat)) : Prop :=
  ranges.IsChain fun r q => r.1 ≤ q.1

instance (ranges : List (Nat × Nat)) : Decidable (Ascending ranges) :=
  inferInstanceAs (Decidable (List.IsChain _ _))

theorem Ascending.le_of_mem {r q : Nat × Nat} {ranges : List (Nat × Nat)}
    (h : Ascending (r :: ranges)) (hq : q ∈ r :: ranges) : r.1 ≤ q.1 := by
  have : IsTrans (Nat × Nat) fun r q => r.1 ≤ q.1 := ⟨fun _ _ _ => Nat.le_trans⟩
  obtain rfl | hq := List.mem_cons.mp hq
  · exact Nat.le_refl _
  · exact (List.pairwise_cons.mp (List.isChain_iff_pairwise.mp h)).1 q hq

theorem Ascending.tail {r : Nat × Nat} {ranges : List (Nat × Nat)}
    (h : Ascending (r :: ranges)) : Ascending ranges :=
  List.IsChain.tail h

/-- Two ascending lists of ranges have no code point in common: one of the first two ranges lies in
front of the other, and so in front of all that come after that one. -/
def separate : Nat → List (Nat × Nat) → List (Nat × Nat) → Bool
  | _, [], _ => true
  | _, _, [] => true
  | 0, _ :: _, _ :: _ => false
  | steps + 1, r :: ranges, q :: others =>
    if r.2 < q.1 then separate steps ranges (q :: others)
    else if q.2 < r.1 then separate steps (r :: ranges) others
    else false

theorem separate_sound {steps : Nat} {ranges others : List (Nat × Nat)}
    (h : separate steps ranges others = true) (hranges : Ascending ranges)
    (hothers : Ascending others) : ∀ r ∈ ranges, ∀ q ∈ others, r.2 < q.1 ∨ q.2 < r.1 := by
  fun_induction separate steps ranges others with
  | case1 => exact fun r hr => absurd hr List.not_mem_nil
  | case2 => exact fun r hr q hq => absurd hq List.not_mem_nil
  | case3 => cases h
  | case4 steps r ranges q others hlt ih =>
    intro r' hr' q' hq'
    obtain rfl | hr' := List.mem_cons.mp hr'
    · exact Or.inl (hlt.trans_le (hothers.le_of_mem hq'))
    · exact ih h hranges.tail hothers r' hr' q' hq'
  | case5 steps r ranges q others hle hlt ih =>
    intro r' hr' q' hq'
    obtain rfl | hq' := List.mem_cons.mp hq'
    · exact Or.inr (hlt.trans_le (hranges.le_of_mem hr'))
    · exact ih h hranges hothers.tail r' hr' q' hq'
  | case6 => cases h

def Apart (ranges others : List (Nat × Nat)) : Prop :=
  Ascending ranges ∧ Ascending others ∧
    separate (ranges.length + others.length) ranges others = true

instance (ranges others : List (Nat × Nat)) : Decidable (Apart ranges others) :=
  inferInstanceAs (Decidable (_ ∧ _ ∧ _))

theorem Apart.not_inRanges {ranges others : List (Nat × Nat)} (h : Apart ranges others)
    (hc : inRanges ranges c = true) : inRanges others c = false := by
  obtain ⟨hranges, hothers, hseparate⟩ := h
  obtain ⟨r, hr, hrange⟩ := List.any_eq_true.mp hc
  refine List.any_eq_false.mpr fun q hq hother => ?_
  have hapart := separate_sound hseparate hranges hothers r hr q hq
  simp only [Bool.and_eq_true, decide_eq_true_eq] at hrange hother
  omega

theorem charWidth_of_apart {ranges : List (Nat × Nat)} (hzero : Apart ranges zeroRanges)
    (hwide : Apart ranges wideRanges) (hc : inRanges ranges c = true) : charWidth c = 1 := by
  rw [charWidth, hzero.not_inRanges hc, hwide.not_inRanges hc]
  rfl

theorem charWidth_of_widens (h : widensBeforeSelector c = true) : charWidth c = 1 :=
  charWidth_of_apart (by decide +kernel) (by decide +kernel) h

theorem charWidth_of_isPlain (h : isPlain c = true) : charWidth c = 1 :=
  charWidth_of_apart (by decide +kernel) (by decide +kernel) h

theorem charWidth_space : charWidth ' ' = 1 :=
  charWidth_of_isPlain (by decide)

theorem selectorBonus_none : selectorBonus none = 0 := rfl

theorem selectorBonus_space : selectorBonus (some ' ') = 0 := by
  decide

theorem selectorBonus_le_one (last : Option Char) : selectorBonus last ≤ 1 := by
  cases last with
  | none => exact Nat.zero_le 1
  | some c =>
    rw [selectorBonus]
    split <;> decide

theorem charWidth_add_selectorBonus_le (c : Char) : charWidth c + selectorBonus (some c) ≤ 2 := by
  rw [selectorBonus]
  split
  · rename_i h
    rw [charWidth_of_widens h]
  · exact charWidth_le_two c

theorem cellsAfter_joiner (last : Option Char) (d : Char) (s : List Char) :
    cellsAfter last (joiner :: d :: s) = cellsAfter last s := rfl

theorem cellsAfter_cons (hjoiner : c ≠ joiner) (last : Option Char) (s : List Char) :
    cellsAfter last (c :: s) =
      if c = selector then selectorBonus last + cellsAfter none s
      else if charWidth c = 0 then cellsAfter last s
      else charWidth c + cellsAfter (some c) s := by
  rw [cellsAfter.eq_def]
  exact if_neg hjoiner

theorem cellsAfter_selector (last : Option Char) (s : List Char) :
    cellsAfter last (selector :: s) = selectorBonus last + cellsAfter none s := by
  rw [cellsAfter_cons (by decide), if_pos rfl]

theorem cellsAfter_zero (hjoiner : c ≠ joiner) (hselector : c ≠ selector)
    (hzero : charWidth c = 0) :
    cellsAfter last (c :: s) = cellsAfter last s := by
  rw [cellsAfter_cons hjoiner, if_neg hselector, if_pos hzero]

theorem cellsAfter_width (h : charWidth c ≠ 0) :
    cellsAfter last (c :: s) = charWidth c + cellsAfter (some c) s := by
  obtain ⟨hjoiner, hselector⟩ := ne_of_charWidth_ne_zero h
  rw [cellsAfter_cons hjoiner, if_neg hselector, if_neg h]

theorem cellsAfter_space (last : Option Char) (s : List Char) :
    cellsAfter last (' ' :: s) = 1 + cellsAfter (some ' ') s := by
  rw [cellsAfter_width (by rw [charWidth_space]; decide), charWidth_space]

theorem cellsAfter_blanks (last : Option Char) (n : Nat) : cellsAfter last (blanks n) = n := by
  induction n generalizing last with
  | zero => rfl
  | succ n ih =>
    have hcons : blanks (n + 1) = ' ' :: blanks n := List.replicate_succ
    rw [hcons, cellsAfter_space, ih, Nat.add_comm]

theorem cellsAfter_congr (h : selectorBonus last = selectorBonus last') (s : List Char) :
    cellsAfter last s = cellsAfter last' s := by
  fun_induction cellsAfter last s generalizing last' with
  | case1 => rfl
  | case2 => rfl
  | case3 last d s ih => exact ih h
  | case4 last s hjoiner ih => rw [cellsAfter_selector, h]
  | case5 last c s hjoiner hselector hzero ih => rw [cellsAfter_zero hjoiner hselector hzero, ih h]
  | case6 last c s hjoiner hselector hzero ih => rw [cellsAfter_width hzero]

theorem cellsAfter_none_le (last : Option Char) (s : List Char) :
    cellsAfter none s ≤ cellsAfter last s := by
  fun_induction cellsAfter last s with
  | case1 => exact Nat.le_refl _
  | case2 => exact Nat.le_refl _
  | case3 last d s ih => exact ih
  | case4 last s hjoiner ih =>
    rw [cellsAfter_selector, selectorBonus_none, Nat.zero_add]
    exact Nat.le_add_left _ _
  | case5 last c s hjoiner hselector hzero ih => rwa [cellsAfter_zero hjoiner hselector hzero]
  | case6 last c s hjoiner hselector hzero ih => rw [cellsAfter_width hzero]

theorem cells_joiner_cons_lt (h : charWidth c ≠ 0) (s : List Char) :
    cells (joiner :: c :: s) < cells (c :: s) := by
  have hle := cellsAfter_none_le (some c) s
  rw [cells, cells, cellsAfter_joiner, cellsAfter_width h]
  omega

def joinersAtEnd (s : List Char) : Nat :=
  (s.reverse.takeWhile (· = joiner)).length

/-- The last joiner has nothing to join. Joiners in a row swallow each other in pairs. -/
def Dangling (s : List Char) : Prop :=
  joinersAtEnd s % 2 = 1

instance (s : List Char) : Decidable (Dangling s) :=
  inferInstanceAs (Decidable (_ = _))

theorem joinersAtEnd_cons (c : Char) (s : List Char) :
    joinersAtEnd (c :: s) =
      if joinersAtEnd s = s.length then s.length + if c = joiner then 1 else 0
      else joinersAtEnd s := by
  rw [joinersAtEnd, List.reverse_cons, List.takeWhile_append, List.length_reverse, ← joinersAtEnd]
  split
  · rw [List.length_append, List.length_reverse, List.takeWhile_cons]
    split <;> simp_all
  · rfl

theorem joinersAtEnd_le (s : List Char) : joinersAtEnd s ≤ s.length :=
  (List.takeWhile_prefix _).length_le.trans List.length_reverse.le

theorem not_dangling_nil : ¬ Dangling [] := by
  decide

theorem dangling_joiner : Dangling [joiner] := by
  decide

theorem dangling_joiner_cons (d : Char) (s : List Char) :
    Dangling (joiner :: d :: s) ↔ Dangling s := by
  have hle := joinersAtEnd_le s
  unfold Dangling
  rw [joinersAtEnd_cons joiner, joinersAtEnd_cons d, List.length_cons, if_pos rfl]
  split_ifs <;> omega

theorem dangling_cons (h : c ≠ joiner) (s : List Char) : Dangling (c :: s) ↔ Dangling s := by
  unfold Dangling
  rw [joinersAtEnd_cons, if_neg h, Nat.add_zero]
  split
  · rename_i heq
    rw [heq]
  · rfl

/-- Blanks take a cell each, except for one that a joiner swallows. -/
theorem cellsAfter_append_blanks (last : Option Char) (s : List Char) (n : Nat) :
    cellsAfter last (s ++ blanks n) = cellsAfter last s + (n - if Dangling s then 1 else 0) := by
  fun_induction cellsAfter last s with
  | case1 last =>
    rw [List.nil_append, cellsAfter_blanks, if_neg not_dangling_nil, Nat.zero_add, Nat.sub_zero]
  | case2 last =>
    rw [if_pos dangling_joiner, Nat.zero_add]
    cases n with
    | zero => rfl
    | succ n => exact cellsAfter_blanks last n
  | case3 last d s ih =>
    rw [List.cons_append, List.cons_append, cellsAfter_joiner, ih]
    simp only [dangling_joiner_cons]
  | case4 last s hjoiner ih =>
    rw [List.cons_append, cellsAfter_selector, ih, Nat.add_assoc]
    simp only [dangling_cons hjoiner]
  | case5 last c s hjoiner hselector hzero ih =>
    rw [List.cons_append, cellsAfter_zero hjoiner hselector hzero, ih]
    simp only [dangling_cons hjoiner]
  | case6 last c s hjoiner hselector hzero ih =>
    rw [List.cons_append, cellsAfter_width hzero, ih, Nat.add_assoc]
    simp only [dangling_cons hjoiner]

theorem cells_append_blanks (s : List Char) (n : Nat) :
    cells (s ++ blanks n) = cells s + (n - if Dangling s then 1 else 0) :=
  cellsAfter_append_blanks none s n

end CommentTags.Text.Cells

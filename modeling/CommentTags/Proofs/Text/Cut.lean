import CommentTags.Text.Lines

namespace CommentTags.Text

variable {α : Type} [DecidableEq α] {lf : α}

omit [DecidableEq α] in
structure IsCut (lf : α) (s : List α) (lines : List (List α)) : Prop where
  flatten_eq : lines.flatten = s
  ne_nil : ∀ line ∈ lines, line ≠ []
  lf_last : ∀ line ∈ lines, lf ∉ line.dropLast
  terminated : ∀ line ∈ lines.dropLast, line.getLast? = some lf

theorem firstLine_of_not_mem {s : List α} (h : lf ∉ s) : firstLine lf s = s := by
  induction s with
  | nil => rfl
  | cons c s ih =>
    obtain ⟨hc, hs⟩ := List.ne_and_not_mem_of_not_mem_cons h
    rw [firstLine, if_neg (Ne.symm hc), ih hs]

theorem firstLine_append {w r : List α} (h : lf ∉ w) : firstLine lf (w ++ lf :: r) = w ++ [lf] := by
  induction w with
  | nil => simp [firstLine]
  | cons c w ih =>
    obtain ⟨hc, hw⟩ := List.ne_and_not_mem_of_not_mem_cons h
    rw [List.cons_append, firstLine, if_neg (Ne.symm hc), ih hw, List.cons_append]

theorem cut_of_not_mem {s : List α} (hne : s ≠ []) (h : lf ∉ s) : cut lf s = [s] := by
  have hrest : afterFirstLine lf s = [] := by
    have := firstLine_append_afterFirstLine lf s
    rwa [firstLine_of_not_mem h, List.append_right_eq_self] at this
  cases s with
  | nil => exact absurd rfl hne
  | cons c s => rw [cut_cons, hrest, firstLine_of_not_mem h, cut_nil]

theorem cut_append {w r : List α} (h : lf ∉ w) :
    cut lf (w ++ lf :: r) = (w ++ [lf]) :: cut lf r := by
  have hrest : afterFirstLine lf (w ++ lf :: r) = r := by
    have := firstLine_append_afterFirstLine lf (w ++ lf :: r)
    rw [firstLine_append h, List.append_assoc, List.singleton_append] at this
    exact List.cons.inj (List.append_cancel_left this) |>.2
  cases hs : w ++ lf :: r with
  | nil => simp at hs
  | cons c s => rw [cut_cons, ← hs, hrest, firstLine_append h]

theorem cut_concat_zero {w : List α} (h : lf ∉ w) :
    (cut lf (w ++ [lf]))[0]? = some (w ++ [lf]) := by
  rw [cut_append h]
  rfl

/-- Lines that have their line feed are cut off in front of any text. -/
theorem cut_flatten_append {lines : List (List α)} (r : List α)
    (h : ∀ line ∈ lines, ∃ w, lf ∉ w ∧ line = w ++ [lf]) :
    cut lf (lines.flatten ++ r) = lines ++ cut lf r := by
  induction lines with
  | nil => rfl
  | cons line lines ih =>
    obtain ⟨w, hw, rfl⟩ := h line (by simp)
    have ih' := ih fun l hl => h l (List.mem_cons_of_mem _ hl)
    rw [List.flatten_cons, List.append_assoc, List.append_assoc, List.singleton_append,
      cut_append hw, ih', List.cons_append]

theorem isCut_cut (lf : α) (s : List α) : IsCut lf s (cut lf s) := by
  induction hn : s.length using Nat.strongRecOn generalizing s with
  | ind n ih =>
    by_cases h : lf ∈ s
    · obtain ⟨w, r, rfl, hw⟩ := List.eq_append_cons_of_mem h
      have hr := ih r.length (by rw [← hn]; simp; omega) r rfl
      rw [cut_append hw]
      refine ⟨by simp [hr.flatten_eq], ?_, ?_, ?_⟩
      · exact List.forall_mem_cons.mpr ⟨by simp, hr.ne_nil⟩
      · exact List.forall_mem_cons.mpr ⟨by simpa using hw, hr.lf_last⟩
      · intro line hline
        cases hls : cut lf r with
        | nil => simp [hls] at hline
        | cons l ls =>
          rw [hls, List.dropLast_cons_cons, ← hls] at hline
          obtain rfl | hline := List.mem_cons.mp hline
          · simp
          · exact hr.terminated line hline
    · by_cases hne : s = []
      · subst hne
        exact ⟨by simp, by simp, by simp, by simp⟩
      · rw [cut_of_not_mem hne h]
        refine ⟨by simp, by simpa using hne, ?_, by simp⟩
        intro line hline hmem
        rw [List.mem_singleton.mp hline] at hmem
        exact h (List.dropLast_subset s hmem)

omit [DecidableEq α] in
theorem IsCut.tail {s line : List α} {lines : List (List α)} (h : IsCut lf s (line :: lines)) :
    IsCut lf lines.flatten lines := by
  refine ⟨rfl, fun l hl => h.ne_nil l (List.mem_cons_of_mem _ hl),
    fun l hl => h.lf_last l (List.mem_cons_of_mem _ hl), fun l hl => ?_⟩
  apply h.terminated
  cases lines with
  | nil => simp at hl
  | cons l' ls => exact List.mem_cons_of_mem _ hl

omit [DecidableEq α] in
theorem IsCut.eq_nil_of_getLast?_ne {s line : List α} {lines : List (List α)}
    (h : IsCut lf s (line :: lines)) (hline : line.getLast? ≠ some lf) : lines = [] := by
  cases lines with
  | nil => rfl
  | cons l ls => exact absurd (h.terminated line List.mem_cons_self) hline

theorem IsCut.eq_cut {s : List α} {lines : List (List α)} (h : IsCut lf s lines) :
    lines = cut lf s := by
  induction lines generalizing s with
  | nil =>
    obtain rfl : s = [] := h.flatten_eq.symm
    exact (cut_nil lf).symm
  | cons line lines ih =>
    have hlf := h.lf_last line (by simp)
    have hne := h.ne_nil line (by simp)
    obtain ⟨w, c, rfl⟩ : ∃ w c, line = w ++ [c] :=
      ⟨line.dropLast, line.getLast hne, (List.dropLast_concat_getLast hne).symm⟩
    rw [List.dropLast_concat] at hlf
    have hs := h.flatten_eq
    rw [List.flatten_cons, List.append_assoc, List.singleton_append] at hs
    by_cases hc : c = lf
    · subst hc
      rw [← hs, cut_append hlf, ← ih h.tail]
    · have hnil : lines = [] := by
        apply h.eq_nil_of_getLast?_ne
        rw [List.getLast?_concat]
        exact fun hlast => hc (Option.some.inj hlast)
      subst hnil
      have hmem : lf ∉ w ++ [c] := by
        intro hm
        obtain hm | hm := List.mem_append.mp hm
        · exact hlf hm
        · exact hc (List.mem_singleton.mp hm).symm
      rw [List.flatten_nil] at hs
      rw [← hs, cut_of_not_mem (by simp) hmem]

theorem isCut_iff {s : List α} {lines : List (List α)} : IsCut lf s lines ↔ lines = cut lf s :=
  ⟨IsCut.eq_cut, fun h => h ▸ isCut_cut lf s⟩

end CommentTags.Text

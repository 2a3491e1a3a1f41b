namespace CommentTags.Marker

variable {α : Type} {here? : List Char → Option α}

/-- What `here?` finds at the leftmost place of a text where it finds anything. -/
def leftmost? (here? : List Char → Option α) : List Char → Option α
  | [] => none
  | c :: s => (here? (c :: s)).or (leftmost? here? s)

theorem leftmost?_append {pre rest : List Char} {a : α} (hn : here? [] = none)
    (hr : here? rest = some a)
    (hfirst : ∀ pre' rest', pre ++ rest = pre' ++ rest' → pre'.length < pre.length →
      here? rest' = none) :
    leftmost? here? (pre ++ rest) = some a := by
  induction pre with
  | nil =>
    cases rest with
    | nil =>
      rw [hn] at hr
      cases hr
    | cons c rest => rw [List.nil_append, leftmost?, hr, Option.some_or]
  | cons c pre ih =>
    have hc : here? (c :: (pre ++ rest)) = none := hfirst [] _ rfl (Nat.zero_lt_succ _)
    rw [List.cons_append, leftmost?, hc, Option.none_or]
    refine ih fun pre' rest' hs hlt => ?_
    exact hfirst (c :: pre') rest' (congrArg (c :: ·) hs) (Nat.succ_lt_succ hlt)

theorem exists_of_leftmost?_eq_some {s : List Char} {a : α} (h : leftmost? here? s = some a) :
    ∃ pre rest, s = pre ++ rest ∧ here? rest = some a ∧
      ∀ pre' rest', s = pre' ++ rest' → pre'.length < pre.length → here? rest' = none := by
  induction s with
  | nil => cases h
  | cons c s ih =>
    rw [leftmost?] at h
    cases hc : here? (c :: s) with
    | some b =>
      rw [hc, Option.some_or] at h
      exact ⟨[], c :: s, rfl, hc.trans h, fun _ _ _ hlt => absurd hlt (Nat.not_lt_zero _)⟩
    | none =>
      rw [hc, Option.none_or] at h
      obtain ⟨pre, rest, rfl, hr, hfirst⟩ := ih h
      refine ⟨c :: pre, rest, rfl, hr, fun pre' rest' hs hlt => ?_⟩
      cases pre' with
      | nil =>
        rw [List.nil_append] at hs
        exact hs ▸ hc
      | cons d pre' => exact hfirst pre' rest' (List.cons.inj hs).2 (Nat.lt_of_succ_lt_succ hlt)

theorem leftmost?_eq_some_iff (hn : here? [] = none) {s : List Char} {a : α} :
    leftmost? here? s = some a ↔ ∃ pre rest, s = pre ++ rest ∧ here? rest = some a ∧
      ∀ pre' rest', s = pre' ++ rest' → pre'.length < pre.length → here? rest' = none := by
  refine ⟨exists_of_leftmost?_eq_some, ?_⟩
  rintro ⟨pre, rest, rfl, hr, hfirst⟩
  exact leftmost?_append hn hr hfirst

theorem leftmost?_isSome_iff (hn : here? [] = none) {s : List Char} :
    (leftmost? here? s).isSome ↔ ∃ pre rest, s = pre ++ rest ∧ (here? rest).isSome := by
  induction s with
  | nil =>
    simp only [leftmost?, Option.isSome_none, Bool.false_eq_true, false_iff]
    rintro ⟨pre, rest, hs, hr⟩
    obtain ⟨rfl, rfl⟩ := List.append_eq_nil_iff.mp hs.symm
    simp [hn] at hr
  | cons c s ih =>
    rw [leftmost?, Option.isSome_or, Bool.or_eq_true, ih]
    constructor
    · rintro (h | ⟨pre, rest, rfl, hr⟩)
      · exact ⟨[], c :: s, rfl, h⟩
      · exact ⟨c :: pre, rest, rfl, hr⟩
    · rintro ⟨pre, rest, hs, hr⟩
      cases pre with
      | nil =>
        left
        rw [List.nil_append] at hs
        rwa [hs]
      | cons d pre =>
        right
        exact ⟨pre, rest, (List.cons.inj hs).2, hr⟩

end CommentTags.Marker

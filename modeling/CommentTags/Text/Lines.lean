namespace CommentTags.Text

variable {α : Type} [DecidableEq α] (lf : α)

def firstLine : List α → List α
  | [] => []
  | c :: s => if c = lf then [c] else c :: firstLine s

def afterFirstLine : List α → List α
  | [] => []
  | c :: s => if c = lf then s else afterFirstLine s

theorem firstLine_append_afterFirstLine (s : List α) :
    firstLine lf s ++ afterFirstLine lf s = s := by
  induction s with
  | nil => rfl
  | cons c s ih => by_cases h : c = lf <;> simp [firstLine, afterFirstLine, h, ih]

theorem length_afterFirstLine_lt (c : α) (s : List α) :
    (afterFirstLine lf (c :: s)).length < (c :: s).length := by
  induction s generalizing c with
  | nil => by_cases h : c = lf <;> simp [afterFirstLine, h]
  | cons d s ih =>
    by_cases h : c = lf
    · simp [afterFirstLine, h]
    · have := ih d
      simp only [afterFirstLine, h, if_false, List.length_cons] at *
      omega

/-- All lines, each with its line feed; a last part without one is a line if it is not empty. -/
def cut : List α → List (List α)
  | [] => []
  | c :: s => firstLine lf (c :: s) :: cut (afterFirstLine lf (c :: s))
termination_by s => s.length
decreasing_by exact length_afterFirstLine_lt lf c s

@[simp] theorem cut_nil : cut lf [] = [] := by simp [cut]

theorem cut_cons (c : α) (s : List α) :
    cut lf (c :: s) = firstLine lf (c :: s) :: cut lf (afterFirstLine lf (c :: s)) := by
  rw [cut]

theorem flatten_cut (s : List α) : (cut lf s).flatten = s := by
  fun_induction cut lf s with
  | case1 => rfl
  | case2 c s ih => simp [ih, firstLine_append_afterFirstLine]

end CommentTags.Text

import Mathlib.Data.List.TakeWhile

namespace CommentTags.Text

variable {α : Type} {p : α → Bool}

theorem takeWhile_span {w r : List α} (hw : ∀ c ∈ w, p c = true) (hr : ∀ c ∈ r.head?, p c = false) :
    (w ++ r).takeWhile p = w := by
  rw [List.takeWhile_append_of_pos hw]
  cases r with
  | nil => simp
  | cons c r =>
    have hc : p c = false := hr c rfl
    simp [hc]

theorem dropWhile_span {w r : List α} (hw : ∀ c ∈ w, p c = true) (hr : ∀ c ∈ r.head?, p c = false) :
    (w ++ r).dropWhile p = r := by
  rw [List.dropWhile_append_of_pos hw]
  cases r with
  | nil => rfl
  | cons c r =>
    have hc : p c = false := hr c rfl
    simp [hc]

theorem exists_span (p : α → Bool) (s : List α) :
    ∃ w r, s = w ++ r ∧ (∀ c ∈ w, p c = true) ∧ ∀ c ∈ r.head?, p c = false := by
  refine ⟨s.takeWhile p, s.dropWhile p, List.takeWhile_append_dropWhile.symm, ?_, ?_⟩
  · exact fun c hc => List.mem_takeWhile_imp hc
  · intro c hc
    have hne : s.dropWhile p ≠ [] := fun h => by simp [h] at hc
    rw [List.head?_eq_some_head hne] at hc
    obtain rfl := Option.some.inj hc
    exact List.head_dropWhile_not p hne

theorem exists_last {c : α} {s : List α} (h : c ∈ s) : ∃ w r, s = w ++ c :: r ∧ c ∉ r := by
  obtain ⟨r, w, hs, hr⟩ := List.eq_append_cons_of_mem (List.mem_reverse.mpr h)
  refine ⟨w.reverse, r.reverse, ?_, mt List.mem_reverse.mp hr⟩
  rw [← List.reverse_reverse s, hs, List.reverse_append, List.reverse_cons, List.append_assoc,
    List.singleton_append]

end CommentTags.Text

import CommentTags.Marker.TodoCall
import CommentTags.Proofs.Marker.CommentGrammar

namespace CommentTags.Marker

open Text (takeWhile_span dropWhile_span exists_span)

/-- A text that begins with a call, and the argument of that call. -/
inductive BeginsWithCall : List Char → List Char → Prop
  | empty (r : List Char) :
    BeginsWithCall ('t' :: 'o' :: 'd' :: 'o' :: '!' :: '(' :: ')' :: r) []
  | string (s r : List Char) : '"' ∉ s →
    BeginsWithCall ('t' :: 'o' :: 'd' :: 'o' :: '!' :: '(' :: '"' :: (s ++ '"' :: ')' :: r)) s

theorem callArgument?_string {s r : List Char} (h : '"' ∉ s) :
    callArgument? ('"' :: (s ++ '"' :: ')' :: r)) = some s := by
  have hw : ∀ c ∈ s, decide (c ≠ '"') = true := fun c hc => decide_eq_true fun he => h (he ▸ hc)
  have hr : ∀ c ∈ ('"' :: ')' :: r).head?, decide (c ≠ '"') = false := by
    rintro c ⟨⟩
    decide
  rw [callArgument?, dropWhile_span hw hr, takeWhile_span hw hr]
  rfl

theorem todoCallHere?_eq_some_iff {t s : List Char} :
    todoCallHere? t = some s ↔ BeginsWithCall t s := by
  constructor
  · intro h
    unfold todoCallHere? at h
    split at h
    · unfold callArgument? at h
      split at h
      · obtain rfl := Option.some.inj h
        exact .empty _
      · rename_i q
        obtain ⟨w, r, rfl, hw, hr⟩ := exists_span (fun c => decide (c ≠ '"')) q
        rw [dropWhile_span hw hr, takeWhile_span hw hr] at h
        split at h
        · obtain rfl := Option.some.inj h
          exact .string _ _ fun hmem => by simpa using hw _ hmem
        · cases h
      · cases h
    · cases h
  · rintro (⟨r⟩ | ⟨s, r, hs⟩)
    · rfl
    · exact callArgument?_string hs

def FirstCall (line s : List Char) : Prop :=
  ∃ pre rest, line = pre ++ rest ∧ BeginsWithCall rest s ∧
    ∀ pre' rest' s', line = pre' ++ rest' → pre'.length < pre.length → ¬ BeginsWithCall rest' s'

theorem findTodoCall?_eq_some_iff {line s : List Char} :
    findTodoCall? line = some s ↔ FirstCall line s := by
  rw [findTodoCall?, leftmost?_eq_some_iff rfl]
  constructor
  · rintro ⟨pre, rest, hline, hr, hfirst⟩
    refine ⟨pre, rest, hline, todoCallHere?_eq_some_iff.mp hr, ?_⟩
    intro pre' rest' s' hline' hlt hcall
    have hnone := hfirst pre' rest' hline' hlt
    rw [todoCallHere?_eq_some_iff.mpr hcall] at hnone
    cases hnone
  · rintro ⟨pre, rest, hline, hr, hfirst⟩
    refine ⟨pre, rest, hline, todoCallHere?_eq_some_iff.mpr hr, ?_⟩
    intro pre' rest' hline' hlt
    rw [Option.eq_none_iff_forall_ne_some]
    exact fun s' hs' => hfirst pre' rest' s' hline' hlt (todoCallHere?_eq_some_iff.mp hs')

theorem newline_not_mem_of_beginsWithCall {rest s : List Char} (hrest : '\n' ∉ rest.dropLast)
    (h : BeginsWithCall rest s) : '\n' ∉ s := by
  cases h with
  | empty r => exact List.not_mem_nil
  | string s r hquote =>
    have hsplit : 't' :: 'o' :: 'd' :: 'o' :: '!' :: '(' :: '"' :: (s ++ '"' :: ')' :: r) =
        "todo!(\"".toList ++ s ++ '"' :: ')' :: r := by
      simp only [List.append_assoc]
      rfl
    rw [hsplit, List.dropLast_append_of_ne_nil (List.cons_ne_nil _ _)] at hrest
    exact fun hs => hrest (List.mem_append_left _ (List.mem_append_right _ hs))

theorem newline_not_mem_of_firstCall {line s : List Char} (hline : '\n' ∉ line.dropLast)
    (h : FirstCall line s) : '\n' ∉ s := by
  obtain ⟨pre, rest, rfl, hrest, -⟩ := h
  exact newline_not_mem_of_beginsWithCall (newline_not_mem_dropLast hline) hrest

variable {line pre rest s : List Char}

/-- A call stands behind `pre`. In its brackets there is nothing, or one string without double
quotes. -/
def CallAt (line pre s : List Char) : Prop :=
  ∃ post, line = pre ++ "todo!()".toList ++ post ∧ s = [] ∨
    line = pre ++ "todo!(\"".toList ++ s ++ "\")".toList ++ post ∧ '"' ∉ s

structure LeftmostCall (line pre s : List Char) : Prop where
  call : CallAt line pre s
  length_le : ∀ pre' s', CallAt line pre' s' → pre.length ≤ pre'.length

theorem beginsWithCall_iff :
    BeginsWithCall rest s ↔ ∃ post, rest = "todo!()".toList ++ post ∧ s = [] ∨
      rest = "todo!(\"".toList ++ s ++ "\")".toList ++ post ∧ '"' ∉ s := by
  constructor
  · rintro (⟨post⟩ | ⟨s, post, hs⟩)
    · exact ⟨post, Or.inl ⟨rfl, rfl⟩⟩
    · refine ⟨post, Or.inr ⟨?_, hs⟩⟩
      rw [List.append_assoc, List.append_assoc]
      rfl
  · rintro ⟨post, ⟨rfl, rfl⟩ | ⟨rfl, hs⟩⟩
    · exact .empty post
    · rw [List.append_assoc, List.append_assoc]
      exact .string s post hs

theorem callAt_iff : CallAt line pre s ↔ ∃ rest, line = pre ++ rest ∧ BeginsWithCall rest s := by
  simp only [CallAt, beginsWithCall_iff]
  constructor
  · rintro ⟨post, ⟨rfl, hs⟩ | ⟨rfl, hs⟩⟩
    · exact ⟨_, List.append_assoc _ _ _, post, Or.inl ⟨rfl, hs⟩⟩
    · exact ⟨_, by simp only [List.append_assoc], post, Or.inr ⟨rfl, hs⟩⟩
  · rintro ⟨rest, rfl, post, ⟨rfl, hs⟩ | ⟨rfl, hs⟩⟩
    · exact ⟨post, Or.inl ⟨(List.append_assoc _ _ _).symm, hs⟩⟩
    · exact ⟨post, Or.inr ⟨by simp only [List.append_assoc], hs⟩⟩

theorem firstCall_iff : FirstCall line s ↔ ∃ pre, LeftmostCall line pre s := by
  constructor
  · rintro ⟨pre, rest, hline, hrest, hfirst⟩
    refine ⟨pre, callAt_iff.mpr ⟨rest, hline, hrest⟩, fun pre' s' hcall => ?_⟩
    obtain ⟨rest', hline', hrest'⟩ := callAt_iff.mp hcall
    by_contra hlt
    exact hfirst pre' rest' s' hline' (by omega) hrest'
  · rintro ⟨pre, hcall, hle⟩
    obtain ⟨rest, hline, hrest⟩ := callAt_iff.mp hcall
    refine ⟨pre, rest, hline, hrest, fun pre' rest' s' hline' hlt hrest' => ?_⟩
    have := hle pre' s' (callAt_iff.mpr ⟨rest', hline', hrest'⟩)
    omega

theorem exists_leftmostCall (h : CallAt line pre s) : ∃ pre' s', LeftmostCall line pre' s' := by
  obtain ⟨rest, hline, hrest⟩ := callAt_iff.mp h
  have hsome : (findTodoCall? line).isSome := by
    refine (leftmost?_isSome_iff rfl).mpr ⟨pre, rest, hline, ?_⟩
    rw [todoCallHere?_eq_some_iff.mpr hrest]
    rfl
  obtain ⟨s', hs'⟩ := Option.isSome_iff_exists.mp hsome
  obtain ⟨pre', hcall⟩ := firstCall_iff.mp (findTodoCall?_eq_some_iff.mp hs')
  exact ⟨pre', s', hcall⟩

theorem quote_not_mem_of_callAt (h : CallAt line pre s) : '"' ∉ s := by
  obtain ⟨post, ⟨-, rfl⟩ | ⟨-, hs⟩⟩ := h
  · exact List.not_mem_nil
  · exact hs

theorem newline_not_mem_of_callAt (hline : '\n' ∉ line.dropLast) (h : CallAt line pre s) :
    '\n' ∉ s := by
  obtain ⟨rest, rfl, hrest⟩ := callAt_iff.mp h
  exact newline_not_mem_of_beginsWithCall (newline_not_mem_dropLast hline) hrest

end CommentTags.Marker

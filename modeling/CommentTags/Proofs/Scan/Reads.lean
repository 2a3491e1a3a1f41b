import CommentTags.Proofs.Text.Cut
import CommentTags.Scan.LineSource

namespace CommentTags

variable {σ : Type} [LineSource σ]

/-- Reading the first source gives these lines, then the end of the input or a failure, and leaves
the second source. -/
inductive Reads : σ → List Line → Option ReadError → σ → Prop
  | done {s t : σ} (h : LineSource.readLine s = (.ok [], t)) : Reads s [] none t
  | failed {s t : σ} {e : ReadError} (h : LineSource.readLine s = (.error e, t)) :
    Reads s [] (some e) t
  | line {s t u : σ} {c : Char} {line : Line} {lines : List Line} {failure : Option ReadError}
    (h : LineSource.readLine s = (.ok (c :: line), t)) (rest : Reads t lines failure u) :
    Reads s ((c :: line) :: lines) failure u

namespace TextStream

theorem reads_cut (before after : List Char) :
    Reads (⟨before, after⟩ : TextStream) (Text.cut '\n' after) none
      ⟨after.reverse ++ before, []⟩ := by
  fun_induction Text.cut '\n' after generalizing before with
  | case1 => exact .done rfl
  | case2 c s ih =>
    have hs := Text.firstLine_append_afterFirstLine '\n' (c :: s)
    have hne : Text.firstLine '\n' (c :: s) ≠ [] := by
      intro h
      have := Text.length_afterFirstLine_lt '\n' c s
      rw [h, List.nil_append] at hs
      rw [hs] at this
      exact Nat.lt_irrefl _ this
    have hread : LineSource.readLine (⟨before, c :: s⟩ : TextStream) =
        (.ok (Text.firstLine '\n' (c :: s)), ⟨(Text.firstLine '\n' (c :: s)).reverse ++ before,
          Text.afterFirstLine '\n' (c :: s)⟩) := rfl
    have hrest := ih ((Text.firstLine '\n' (c :: s)).reverse ++ before)
    rw [← List.append_assoc, ← List.reverse_append, hs] at hrest
    cases hl : Text.firstLine '\n' (c :: s) with
    | nil => exact absurd hl hne
    | cons d line =>
      rw [hl] at hread hrest
      exact .line hread hrest

theorem reads_ofList (text : List Char) :
    Reads (ofList text) (Text.cut '\n' text) none ⟨text.reverse, []⟩ := by
  simpa only [ofList, List.append_nil] using reads_cut [] text

end TextStream

namespace Readings

theorem reads_lines (lines : List Line) (failure : Option ReadError)
    (h : ∀ line ∈ lines, line ≠ []) :
    Reads (⟨lines, failure⟩ : Readings) lines failure ⟨[], none⟩ := by
  induction lines with
  | nil =>
    cases failure with
    | none => exact .done rfl
    | some e => exact .failed rfl
  | cons line lines ih =>
    cases line with
    | nil => exact absurd rfl (h [] (by simp))
    | cons c line => exact .line rfl (ih fun l hl => h l (List.mem_cons_of_mem _ hl))

end Readings

end CommentTags

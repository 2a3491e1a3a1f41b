import CommentTags.Proofs.Scan.Calls
import CommentTags.Proofs.Scan.Rewritten

namespace CommentTags.Scanner

open Marker (CallAt LeftmostCall)
open Text (Trimmed strip)

variable {g : Grammar} {p : Path} {n : Nat} {line pre s : List Char} {t : Tag}

/-- What the message of a line's tag is like. -/
structure MessageOf (g : Grammar) (line : List Char) (t : Tag) : Prop where
  oneLine : '\n' ∉ t.message.toList
  /-- It is the string of the first call, if the line has a call. -/
  ofCall : g = .rust → ∀ pre s, LeftmostCall line pre s → t.message.toList = s
  ofComment : (g = .rust → ∀ pre s, ¬ CallAt line pre s) → Trimmed t.message.toList

theorem message_of_leftmostCall (h : LeftmostCall line pre s)
    (ht : lineTag? .rust p n line = some t) : t.message.toList = s := by
  rw [lineTag?_of_leftmostCall h] at ht
  obtain rfl := Option.some.inj ht
  simp

theorem messageOf_lineTag? (hline : '\n' ∉ line.dropLast) (h : lineTag? g p n line = some t) :
    MessageOf g line t := by
  have hcomment (hc : commentTag? p n line = some t) :
      '\n' ∉ t.message.toList ∧ Trimmed t.message.toList := by
    have hwritable := writable_of_commentTag? hline hc
    exact ⟨hwritable.message_oneLine, hwritable.message_trimmed⟩
  cases g with
  | cLike =>
    obtain ⟨honeLine, htrimmed⟩ := hcomment h
    exact ⟨honeLine, fun hg => (by cases hg), fun _ => htrimmed⟩
  | rust =>
    by_cases hcall : ∃ pre s, CallAt line pre s
    · obtain ⟨pre₀, s₀, h₀⟩ := hcall
      obtain ⟨pre, s, hleft⟩ := Marker.exists_leftmostCall h₀
      refine ⟨?_, fun _ pre' s' h' => message_of_leftmostCall h' h, fun hno => ?_⟩
      · rw [message_of_leftmostCall hleft h]
        exact Marker.newline_not_mem_of_callAt hline hleft.call
      · exact absurd h₀ (hno rfl pre₀ s₀)
    · have hno : ∀ pre s, ¬ CallAt line pre s := fun pre s hs => hcall ⟨pre, s, hs⟩
      rw [lineTag?_of_not_callAt hno] at h
      obtain ⟨honeLine, htrimmed⟩ := hcomment h
      exact ⟨honeLine, fun _ pre s hs => absurd hs.call (hno pre s), fun _ => htrimmed⟩

theorem MessageOf.strip_eq_self_iff (h : MessageOf g line t) :
    strip t.message.toList = t.message.toList ↔
      (g = .rust → ∀ pre s, LeftmostCall line pre s → Trimmed s) := by
  rw [Text.strip_eq_self_iff]
  constructor
  · intro ht hg pre s hs
    rwa [← h.ofCall hg pre s hs]
  · intro hcalls
    by_cases hcall : g = .rust ∧ ∃ pre s, CallAt line pre s
    · obtain ⟨hg, pre₀, s₀, h₀⟩ := hcall
      obtain ⟨pre, s, hs⟩ := Marker.exists_leftmostCall h₀
      rw [h.ofCall hg pre s hs]
      exact hcalls hg pre s hs
    · apply h.ofComment
      intro hg pre s hs
      exact hcall ⟨hg, pre, s, hs⟩

/-- All messages of a text are parts of one line, and those of comments are trimmed. The message of
a call is trimmed exactly if its string is, so that in a C-like source all messages are, and in a
Rust source they are if the strings of the calls are. -/
theorem messages_trimmed_iff (g : Grammar) (p : Path) (text : List Char) :
    let tags := (start g p (TextStream.ofList text)).collect.1
    (∀ t ∈ tags, ∃ (i : Nat) (line : List Char), (Text.cut '\n' text)[i]? = some line ∧
      t.line = i + 1 ∧ MessageOf g line t ∧ (strip t.message.toList = t.message.toList ↔
        (g = .rust → ∀ pre s, LeftmostCall line pre s → Trimmed s))) ∧
    ((∀ t ∈ tags, strip t.message.toList = t.message.toList) ↔
      (g = .rust → ∀ line ∈ Text.cut '\n' text, ∀ pre s, LeftmostCall line pre s → Trimmed s)) := by
  have hmem (t : Tag) : t ∈ (start g p (TextStream.ofList text)).collect.1 ↔
      ∃ i line, (Text.cut '\n' text)[i]? = some line ∧ lineTag? g p (1 + i) line = some t := by
    rw [collect_ofList, mem_tagsFrom]
  have hmessage {i : Nat} {line : List Char} {t : Tag}
      (hline : (Text.cut '\n' text)[i]? = some line)
      (ht : lineTag? g p (1 + i) line = some t) : MessageOf g line t := by
    apply messageOf_lineTag? _ ht
    exact (Text.isCut_cut '\n' text).lf_last line (List.mem_of_getElem? hline)
  dsimp only
  constructor
  · intro t ht
    obtain ⟨i, line, hline, ht⟩ := (hmem t).mp ht
    have hnumber : t.line = i + 1 := by
      rw [(lineTag?_place ht).2.1]
      omega
    have h := hmessage hline ht
    exact ⟨i, line, hline, hnumber, h, h.strip_eq_self_iff⟩
  · constructor
    · rintro hall rfl line hline pre s hs
      obtain ⟨i, hi⟩ := List.getElem?_of_mem hline
      have htag := lineTag?_of_leftmostCall (p := p) hs (1 + i)
      have hstrip := hall _ ((hmem _).mpr ⟨i, line, hi, htag⟩)
      exact (hmessage hi htag).strip_eq_self_iff.mp hstrip rfl pre s hs
    · intro hcalls t ht
      obtain ⟨i, line, hline, ht⟩ := (hmem t).mp ht
      apply (hmessage hline ht).strip_eq_self_iff.mpr
      exact fun hg => hcalls hg line (List.mem_of_getElem? hline)

def paddedCall : List Char :=
  "todo!(\" a \")\n".toList

theorem paddedCall_not_trimmed :
    (start .rust (.ofString "testing") (TextStream.ofList paddedCall)).collect.1 =
      [⟨.ofString "testing", 1, .todoCall, " a ", none⟩] ∧
    strip " a ".toList ≠ " a ".toList ∧
    (start .rust (.ofString "testing") (TextStream.ofList "// TODO:  a \n".toList)).collect.1 =
      [⟨.ofString "testing", 1, .todo, "a", none⟩] := by
  have hcut : Text.cut '\n' paddedCall = [paddedCall] := by
    rw [show paddedCall = paddedCall.dropLast ++ ['\n'] from rfl, Text.cut_append (by decide),
      Text.cut_nil]
  refine ⟨?_, by decide, ?_⟩
  · rw [collect_ofList, hcut]
    decide
  · rw [collect_ofList]
    cbv

end CommentTags.Scanner

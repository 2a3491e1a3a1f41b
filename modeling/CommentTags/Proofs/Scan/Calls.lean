import CommentTags.Proofs.Scan.Collect

namespace CommentTags.Scanner

open Marker (CallAt FirstCall LeftmostCall)

variable {p : Path} {text line pre s : List Char} {i : Nat}

/-- What the calls in a line of Rust source make of it. -/
structure CallsFirst (p : Path) (text : List Char) (i : Nat) (line : List Char) : Prop where
  tag_iff : ∀ t, callTag? p (i + 1) line = some t ↔
    ∃ pre s, LeftmostCall line pre s ∧ t = ⟨p, i + 1, .todoCall, .ofList s, none⟩
  isSome_iff : (callTag? p (i + 1) line).isSome ↔ ∃ pre s, CallAt line pre s
  argument : ∀ pre s, CallAt line pre s → '"' ∉ s ∧ '\n' ∉ s
  wins : ∀ pre s, LeftmostCall line pre s →
    tagsOfLine .rust p text i = [⟨p, i + 1, .todoCall, .ofList s, none⟩]
  otherwise : (∀ pre s, ¬ CallAt line pre s) →
    tagsOfLine .rust p text i = tagsOfLine .cLike p text i

theorem callTag?_eq_some_iff_leftmost {n : Nat} {t : Tag} :
    callTag? p n line = some t ↔
      ∃ pre s, LeftmostCall line pre s ∧ t = ⟨p, n, .todoCall, .ofList s, none⟩ := by
  simp only [callTag?_eq_some_iff, Marker.firstCall_iff]
  constructor
  · rintro ⟨s, ⟨pre, h⟩, rfl⟩
    exact ⟨pre, s, h, rfl⟩
  · rintro ⟨pre, s, h, rfl⟩
    exact ⟨s, ⟨pre, h⟩, rfl⟩

theorem callTag?_isSome_iff {n : Nat} :
    (callTag? p n line).isSome ↔ ∃ pre s, CallAt line pre s := by
  rw [Option.isSome_iff_exists]
  constructor
  · rintro ⟨t, ht⟩
    obtain ⟨pre, s, h, -⟩ := callTag?_eq_some_iff_leftmost.mp ht
    exact ⟨pre, s, h.call⟩
  · rintro ⟨pre, s, h⟩
    obtain ⟨pre', s', h'⟩ := Marker.exists_leftmostCall h
    exact ⟨_, callTag?_eq_some_iff_leftmost.mpr ⟨pre', s', h', rfl⟩⟩

theorem lineTag?_of_leftmostCall (h : LeftmostCall line pre s) (n : Nat) :
    lineTag? .rust p n line = some ⟨p, n, .todoCall, .ofList s, none⟩ := by
  rw [lineTag?, callTag?_eq_some_iff_leftmost.mpr ⟨pre, s, h, rfl⟩, Option.some_or]

theorem lineTag?_of_not_callAt (h : ∀ pre s, ¬ CallAt line pre s) (n : Nat) :
    lineTag? .rust p n line = lineTag? .cLike p n line := by
  have hnone : callTag? p n line = none := by
    rw [← Option.not_isSome_iff_eq_none, callTag?_isSome_iff]
    rintro ⟨pre, s, hcall⟩
    exact h pre s hcall
  rw [lineTag?, hnone, Option.none_or, lineTag?]

theorem callsFirst (hline : (Text.cut '\n' text)[i]? = some line) : CallsFirst p text i line where
  tag_iff _ := callTag?_eq_some_iff_leftmost
  isSome_iff := callTag?_isSome_iff
  argument pre s h := by
    have hlf := (Text.isCut_cut '\n' text).lf_last line (List.mem_of_getElem? hline)
    exact ⟨Marker.quote_not_mem_of_callAt h, Marker.newline_not_mem_of_callAt hlf h⟩
  wins pre s h := by
    rw [tagsOfLine_eq .rust p hline, lineTag?_of_leftmostCall h]
    rfl
  otherwise h := by
    rw [tagsOfLine_eq .rust p hline, tagsOfLine_eq .cLike p hline, lineTag?_of_not_callAt h]

/-- A line of Rust source that has a call of `todo!` has the tag of its leftmost call and no other,
and without a call it has the tag that it has in a C-like source. So a call with a string gives one
tag with that string, whatever stands around it, unless another call begins further left. -/
theorem calls_go_first (p : Path) :
    (∀ text i line, (Text.cut '\n' text)[i]? = some line → CallsFirst p text i line) ∧
    ∀ pre s post : List Char, '\n' ∉ pre → '\n' ∉ post → '\n' ∉ s → '"' ∉ s →
      let line := pre ++ "todo!(\"".toList ++ s ++ "\")".toList ++ post
      (∀ pre' s', CallAt line pre' s' → pre.length ≤ pre'.length) →
        (start .rust p (TextStream.ofList line)).collect.1 =
          [⟨p, 1, .todoCall, .ofList s, none⟩] := by
  refine ⟨fun text i line => callsFirst, fun pre s post hpre hpost hs hquote => ?_⟩
  intro line hleftmost
  have hcall : LeftmostCall line pre s := ⟨⟨post, Or.inr ⟨rfl, hquote⟩⟩, hleftmost⟩
  have hlf : '\n' ∉ line := by
    simp only [line, List.mem_append, not_or]
    exact ⟨⟨⟨⟨hpre, by decide⟩, hs⟩, by decide⟩, hpost⟩
  have hne : line ≠ [] := by simp [line]
  rw [collect_ofList, Text.cut_of_not_mem hne hlf, tagsFrom_cons, lineTag?_of_leftmostCall hcall]
  rfl

def nestedCalls : List Char :=
  "todo!(\"a /* FIX: x todo!(\"b\") // TODO: c".toList

theorem nestedCalls_go_first :
    let p := Path.ofString "main.rs"
    tagsOfLine .rust p nestedCalls 0 = [⟨p, 1, .todoCall, "b", none⟩] ∧
      tagsOfLine .cLike p nestedCalls 0 = [⟨p, 1, .fix, "x todo!(\"b\") // TODO: c", none⟩] := by
  intro p
  have hcut : (Text.cut '\n' nestedCalls)[0]? = some nestedCalls := by
    rw [Text.cut_of_not_mem (by decide) (by decide)]
    rfl
  have hfound : Marker.findTodoCall? nestedCalls = some ['b'] := by decide
  obtain ⟨pre, hcall⟩ := Marker.firstCall_iff.mp (Marker.findTodoCall?_eq_some_iff.mp hfound)
  refine ⟨((calls_go_first p).1 nestedCalls 0 nestedCalls hcut).wins pre ['b'] hcall, ?_⟩
  have hfind : Marker.findComment? nestedCalls =
      some ⟨"FIX".toList, "x todo!(\"b\") // TODO: c".toList⟩ := by decide
  rw [tagsOfLine_eq .cLike p hcut, lineTag?, commentTag?, hfind]
  rfl

end CommentTags.Scanner

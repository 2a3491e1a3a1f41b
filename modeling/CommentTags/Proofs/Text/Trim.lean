import CommentTags.Proofs.Text.Span
import CommentTags.Text.Blank

namespace CommentTags.Text

variable {s v w : List Char}

def Blanks (w : List Char) : Prop :=
  ∀ c ∈ w, isBlank c = true

instance : DecidablePred Blanks :=
  List.decidableBAll fun c => isBlank c = true

structure Trimmed (s : List Char) : Prop where
  head : ∀ c ∈ s.head?, isBlank c = false
  last : ∀ c ∈ s.getLast?, isBlank c = false

theorem trimmed_nil : Trimmed [] :=
  ⟨fun _ h => (by cases h), fun _ h => by cases h⟩

theorem blanks_nil : Blanks [] :=
  fun _ h => absurd h List.not_mem_nil

theorem Blanks.append (hw : Blanks w) (hv : Blanks v) : Blanks (w ++ v) :=
  List.forall_mem_append.mpr ⟨hw, hv⟩

theorem Blanks.reverse (hw : Blanks w) : Blanks w.reverse :=
  fun c hc => hw c (List.mem_reverse.mp hc)

theorem Trimmed.reverse (hs : Trimmed s) : Trimmed s.reverse := by
  refine ⟨fun c hc => hs.last c ?_, fun c hc => hs.head c ?_⟩
  · rwa [List.head?_reverse] at hc
  · rwa [List.getLast?_reverse] at hc

theorem stripLeft_append (hw : Blanks w) (hs : ∀ c ∈ s.head?, isBlank c = false) :
    stripLeft (w ++ s) = s :=
  dropWhile_span hw hs

theorem strip_append (hw : Blanks w) (hs : Trimmed s) (hv : Blanks v) :
    strip (w ++ (s ++ v)) = s := by
  cases s with
  | nil =>
    have hleft : stripLeft (w ++ v) = [] := by
      have h := stripLeft_append (hw.append hv) trimmed_nil.head
      rwa [List.append_nil] at h
    rw [List.nil_append, strip, hleft]
    rfl
  | cons c s =>
    have hleft : stripLeft (w ++ (c :: s ++ v)) = c :: s ++ v :=
      stripLeft_append hw hs.head
    rw [strip, hleft, stripRight, List.reverse_append, stripLeft_append hv.reverse hs.reverse.head,
      List.reverse_reverse]

theorem exists_trimmed (s : List Char) :
    ∃ w m v, s = w ++ (m ++ v) ∧ Blanks w ∧ Trimmed m ∧ Blanks v := by
  obtain ⟨w, r, rfl, hw, hr⟩ := exists_span isBlank s
  obtain ⟨v, m, hrev, hv, hm⟩ := exists_span isBlank r.reverse
  obtain rfl : r = m.reverse ++ v.reverse := by
    rw [← List.reverse_append, ← hrev, List.reverse_reverse]
  refine ⟨w, m.reverse, v.reverse, rfl, hw, ⟨fun c hc => hr c ?_, fun c hc => hm c ?_⟩,
    Blanks.reverse hv⟩
  · rw [List.head?_append, Option.mem_def.mp hc]
    rfl
  · rwa [List.getLast?_reverse] at hc

theorem strip_between (hw : Blanks w) (hv : Blanks v) (s : List Char) :
    strip (w ++ (s ++ v)) = strip s := by
  obtain ⟨w', m, v', rfl, hw', hm, hv'⟩ := exists_trimmed s
  have hassoc : w ++ (w' ++ (m ++ v') ++ v) = (w ++ w') ++ (m ++ (v' ++ v)) := by
    simp only [List.append_assoc]
  rw [hassoc, strip_append (hw.append hw') hm (hv'.append hv), strip_append hw' hm hv']

theorem strip_trimmed (s : List Char) : Trimmed (strip s) := by
  obtain ⟨w, m, v, rfl, hw, hm, hv⟩ := exists_trimmed s
  rwa [strip_append hw hm hv]

theorem strip_eq_self_iff : strip s = s ↔ Trimmed s := by
  constructor
  · intro h
    rw [← h]
    exact strip_trimmed s
  · intro hs
    simpa using strip_append blanks_nil hs blanks_nil

instance : DecidablePred Trimmed :=
  fun _ => decidable_of_iff _ strip_eq_self_iff

end CommentTags.Text

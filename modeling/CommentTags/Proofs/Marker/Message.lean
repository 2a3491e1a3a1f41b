import CommentTags.Marker.Message
import CommentTags.Proofs.Text.Trim

namespace CommentTags.Marker

open Text (Blanks Trimmed strip strip_append strip_trimmed)

variable {m raw u v w : List Char}

theorem beforeCloser?_eq_some_iff : beforeCloser? m = some w ↔ m = w ++ ['*', '/'] := by
  unfold beforeCloser?
  constructor
  · intro h
    split at h
    · rename_i rest hrest
      obtain rfl := Option.some.inj h
      have hm := congrArg List.reverse hrest
      rw [List.reverse_reverse, List.reverse_cons, List.reverse_cons, List.append_assoc] at hm
      exact hm
    · cases h
  · rintro rfl
    rw [List.reverse_append]
    exact congrArg some (List.reverse_reverse w)

theorem beforeCloser?_eq_none (h : ¬ ['*', '/'] <:+ m) : beforeCloser? m = none := by
  rw [Option.eq_none_iff_forall_ne_some]
  intro w hw
  exact h ⟨w, (beforeCloser?_eq_some_iff.mp hw).symm⟩

theorem tidyMessage_between (hw : Blanks w) (hv : Blanks v) (raw : List Char) :
    tidyMessage (w ++ (raw ++ v)) = tidyMessage raw := by
  rw [tidyMessage, Text.strip_between hw hv, tidyMessage]

theorem tidyMessage_trimmed (raw : List Char) : Trimmed (tidyMessage raw) := by
  unfold tidyMessage
  split
  · exact strip_trimmed _
  · exact strip_trimmed raw

theorem tidyMessage_closed (hw : Blanks w) (hm : Trimmed m) (hv : Blanks v) (hu : Blanks u) :
    tidyMessage (w ++ (m ++ (v ++ ['*', '/'] ++ u))) = m := by
  have hclosed : ∃ x, strip (w ++ (m ++ (v ++ ['*', '/'] ++ u))) = x ++ ['*', '/'] ∧
      strip x = m := by
    cases m with
    | nil =>
      refine ⟨[], ?_, rfl⟩
      have hcloser : Trimmed ['*', '/'] := by decide
      have h := strip_append (hw.append hv) hcloser hu
      rw [List.append_assoc] at h
      rwa [List.nil_append, List.append_assoc]
    | cons c m =>
      have hlast : Trimmed (c :: m ++ v ++ ['*', '/']) := by
        refine ⟨hm.head, fun d hd => ?_⟩
        rw [List.getLast?_append] at hd
        cases hd
        decide
      have h := strip_append hw hlast hu
      have hinner := strip_append Text.blanks_nil hm hv
      refine ⟨c :: m ++ v, ?_, hinner⟩
      simpa only [List.append_assoc] using h
  obtain ⟨x, hx, hxm⟩ := hclosed
  rw [tidyMessage, hx, beforeCloser?_eq_some_iff.mpr rfl]
  exact hxm

theorem tidyMessage_open (hw : Blanks w) (hm : Trimmed m) (hv : Blanks v)
    (hcloser : ¬ ['*', '/'] <:+ m) : tidyMessage (w ++ (m ++ v)) = m := by
  rw [tidyMessage, strip_append hw hm hv, beforeCloser?_eq_none hcloser]

/-- `raw` is `m` with blanks around it. -/
def Padded (m raw : List Char) : Prop :=
  ∃ w v, Blanks w ∧ Blanks v ∧ raw = w ++ (m ++ v)

/-- `raw` is `m` with a closer behind it and blanks around both. -/
def Closed (m raw : List Char) : Prop :=
  ∃ w v u, Blanks w ∧ Blanks v ∧ Blanks u ∧ raw = w ++ (m ++ (v ++ ['*', '/'] ++ u))

theorem tidyMessage_of_padded (hm : Trimmed m) (hcloser : ¬ ['*', '/'] <:+ m)
    (h : Padded m raw) : tidyMessage raw = m := by
  obtain ⟨w, v, hw, hv, rfl⟩ := h
  exact tidyMessage_open hw hm hv hcloser

theorem tidyMessage_of_closed (hm : Trimmed m) (h : Closed m raw) : tidyMessage raw = m := by
  obtain ⟨w, v, u, hw, hv, hu, rfl⟩ := h
  exact tidyMessage_closed hw hm hv hu

theorem padded_strip (raw : List Char) : Padded (strip raw) raw := by
  obtain ⟨w, m, v, rfl, hw, hm, hv⟩ := Text.exists_trimmed raw
  rw [strip_append hw hm hv]
  exact ⟨w, v, hw, hv, rfl⟩

theorem padded_tidyMessage (h : ¬ ['*', '/'] <:+ strip raw) : Padded (tidyMessage raw) raw := by
  rw [tidyMessage_of_padded (strip_trimmed raw) h (padded_strip raw)]
  exact padded_strip raw

theorem closed_tidyMessage (h : ['*', '/'] <:+ strip raw) : Closed (tidyMessage raw) raw := by
  obtain ⟨x, hx⟩ := h
  obtain ⟨w, u, hw, hu, hraw⟩ := padded_strip raw
  obtain ⟨w', m, v, hmid, hw', hm, hv⟩ := Text.exists_trimmed x
  have hclosed : Closed m raw := by
    refine ⟨w ++ w', v, u, hw.append hw', hv, hu, ?_⟩
    rw [hraw, ← hx, hmid]
    simp only [List.append_assoc]
  rwa [tidyMessage_of_closed hm hclosed]

/-- Tidying takes away the blanks around a text and one closer at its end, if there is one. A
trimmed text comes back as it was from in front of a closer, whatever it ends with, and from
between blanks alone if it does not end with a closer itself. -/
theorem tidyMessage_takes_one_closer :
    (∀ raw, Trimmed (tidyMessage raw) ∧
      (¬ ['*', '/'] <:+ strip raw ∧ Padded (tidyMessage raw) raw ∨
        ['*', '/'] <:+ strip raw ∧ Closed (tidyMessage raw) raw)) ∧
    ∀ m raw, Trimmed m →
      (Closed m raw → tidyMessage raw = m) ∧
        (¬ ['*', '/'] <:+ m → Padded m raw → tidyMessage raw = m) := by
  constructor
  · intro raw
    refine ⟨tidyMessage_trimmed raw, ?_⟩
    by_cases h : ['*', '/'] <:+ strip raw
    · exact .inr ⟨h, closed_tidyMessage h⟩
    · exact .inl ⟨h, padded_tidyMessage h⟩
  · intro m raw hm
    exact ⟨tidyMessage_of_closed hm, tidyMessage_of_padded hm⟩

/-- The first of two closers stays, and so does a star or a slash that is not part of the last. -/
theorem closers_tidied :
    tidyMessage "\u00a0*/ \t*/\u3000".toList = "*/".toList ∧
      tidyMessage "/*/".toList = "/".toList ∧ tidyMessage " **".toList = "**".toList := by
  obtain ⟨-, hback⟩ := tidyMessage_takes_one_closer
  have htwo : Closed "*/".toList "\u00a0*/ \t*/\u3000".toList :=
    ⟨"\u00a0".toList, " \t".toList, "\u3000".toList, by decide, by decide, by decide, rfl⟩
  have hoverlap : Closed "/".toList "/*/".toList :=
    ⟨[], [], [], Text.blanks_nil, Text.blanks_nil, Text.blanks_nil, rfl⟩
  have hopen : Padded "**".toList " **".toList := ⟨[' '], [], by decide, Text.blanks_nil, rfl⟩
  refine ⟨?_, ?_, ?_⟩
  · exact (hback _ _ (by decide)).1 htwo
  · exact (hback _ _ (by decide)).1 hoverlap
  · exact (hback _ _ (by decide)).2 (by decide) hopen

end CommentTags.Marker

import CommentTags.Proofs.Scan.Chunks
import CommentTags.Proofs.Text.Valid

namespace CommentTags

open Text.Utf8 (LongestText decode decode_encode decode_nil encode encode_append
  eq_encode_append_of_decode leadingText leadingText_encode leadingText_encode_append
  longestText_iff)

namespace Readings

/-- Bytes that are not UTF-8 fail to be read, and the lines before that are lines of the text at
their beginning. -/
theorem ofChunks_of_invalid {chunks : List (List UInt8)} {carry : List UInt8} (part : List Char)
    (h : ∀ text, encode text ≠ carry ++ chunks.flatten) :
    (∃ e, (ofChunks carry part chunks).failure = some (.encoding e)) ∧
      (ofChunks carry part chunks).lines <+:
        Text.cut '\n' (part ++ leadingText (carry ++ chunks.flatten)) := by
  -- what earlier chunks have left is general: undecoded bytes and a line without its end
  induction chunks generalizing carry part with
  | nil =>
    cases carry with
    | nil => exact absurd rfl (h [])
    | cons b carry => exact ⟨⟨_, rfl⟩, List.nil_prefix⟩
  | cons chunk chunks ih =>
    rw [List.flatten_cons, ← List.append_assoc] at h ⊢
    rw [ofChunks]
    cases hd : decode 0 (carry ++ chunk) with
    | error e => exact ⟨⟨e, rfl⟩, List.nil_prefix⟩
    | ok r =>
      obtain ⟨first, kept⟩ := r
      have hbytes := eq_encode_append_of_decode hd
      have hrest : ∀ text, encode text ≠ kept ++ chunks.flatten := by
        intro text htext
        apply h (first ++ text)
        rw [encode_append, htext, hbytes, List.append_assoc]
      obtain ⟨hfailure, hlines⟩ := ih (completeLines (part ++ first)).2 hrest
      refine ⟨hfailure, ?_⟩
      rw [hbytes, List.append_assoc, leadingText_encode_append, ← List.append_assoc,
        cut_eq_completeLines (part ++ first)]
      exact (List.prefix_append_right_inj _).mpr hlines

end Readings

namespace Scanner

theorem collect_ofChunks_encode (g : Grammar) (p : Path) {chunks : List (List UInt8)}
    {text : List Char} (h : chunks.flatten = encode text) :
    let scan := (start g p (Readings.ofChunks [] [] chunks)).collect
    scan.1 = (start g p (TextStream.ofList text)).collect.1 ∧ scan.2.1 = none := by
  have hdecode : decode 0 ([] ++ chunks.flatten) = .ok (text, []) := by
    rw [List.nil_append, h, decode_encode]
  have hlines := Readings.ofChunks_of_decode (decode_nil 0) List.not_mem_nil hdecode
  have hscan := collect_ofChunks g p chunks
  rw [collect_ofList]
  rwa [hlines] at hscan ⊢

theorem collect_ofChunks_of_invalid (g : Grammar) (p : Path) {chunks : List (List UInt8)}
    (h : ∀ text, chunks.flatten ≠ encode text) :
    let scan := (start g p (Readings.ofChunks [] [] chunks)).collect
    scan.1 <+: (start g p (TextStream.ofList (leadingText chunks.flatten))).collect.1 ∧
      ∃ e, scan.2.1 = some (.encoding e) := by
  have hother : ∀ text, encode text ≠ [] ++ chunks.flatten := fun text => (h text).symm
  obtain ⟨⟨e, he⟩, lines, hlines⟩ := Readings.ofChunks_of_invalid [] hother
  rw [List.nil_append, List.nil_append] at hlines
  obtain ⟨htags, hending⟩ := collect_ofChunks g p chunks
  dsimp only
  rw [collect_ofList, htags, hending, ← hlines, tagsFrom_append]
  exact ⟨List.prefix_append _ _, e, he⟩

/-- Scanning bytes, in whatever chunks they come, agrees with scanning text. The bytes of a text
give the tags of that text, and nothing fails. Other bytes make the scan end with a decoding error,
and its tags are the first ones of the longest text that stands at the beginning of the bytes. -/
theorem collect_ofChunks_agrees (g : Grammar) (p : Path) (chunks : List (List UInt8)) :
    let bytes := chunks.flatten
    let scan := (start g p (Readings.ofChunks [] [] chunks)).collect
    let tagsOf := fun text => (start g p (TextStream.ofList text)).collect.1
    (∀ text, bytes = encode text → scan.1 = tagsOf text ∧ scan.2.1 = none) ∧
    ∃ text, LongestText bytes text ∧
      (bytes = encode text ∧ scan.1 = tagsOf text ∧ scan.2.1 = none ∨
        (∀ other, bytes ≠ encode other) ∧ scan.1 <+: tagsOf text ∧
          ∃ e, scan.2.1 = some (.encoding e)) := by
  refine ⟨fun text => collect_ofChunks_encode g p, leadingText chunks.flatten,
    longestText_iff.mpr rfl, ?_⟩
  by_cases h : ∃ text, chunks.flatten = encode text
  · obtain ⟨text, htext⟩ := h
    rw [htext, leadingText_encode]
    exact Or.inl ⟨rfl, collect_ofChunks_encode g p htext⟩
  · have hinvalid := not_exists.mp h
    exact Or.inr ⟨hinvalid, collect_ofChunks_of_invalid g p hinvalid⟩

end Scanner

end CommentTags

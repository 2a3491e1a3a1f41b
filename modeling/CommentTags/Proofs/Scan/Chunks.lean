import CommentTags.Proofs.Scan.Collect
import CommentTags.Proofs.Text.Decode

namespace CommentTags

open Text.Utf8 (decode encode decode_carry decode_encode exists_decode_of_append)

namespace Readings

theorem chunksOf_flatten (size : Nat) (bytes : List UInt8) :
    (chunksOf size bytes).flatten = bytes := by
  fun_induction chunksOf size bytes with
  | case1 => rfl
  | case2 b bs ih => rw [List.flatten_cons, ih, List.cons_append, List.take_append_drop]

theorem completeLines_cons (c : Char) (s : List Char) :
    completeLines (c :: s) = consChar c (completeLines s) := rfl

theorem completeLines_flatten (s : List Char) :
    (completeLines s).1.flatten ++ (completeLines s).2 = s := by
  induction s with
  | nil => rfl
  | cons c s ih =>
    rw [completeLines_cons]
    generalize completeLines s = r at ih
    unfold consChar
    split
    · rename_i hc
      rw [List.flatten_cons, List.append_assoc, ih, hc, List.singleton_append]
    · rw [← ih]
      split <;> rfl

theorem newline_not_mem_completeLines (s : List Char) : '\n' ∉ (completeLines s).2 := by
  induction s with
  | nil => exact List.not_mem_nil
  | cons c s ih =>
    rw [completeLines_cons]
    generalize completeLines s = r at ih
    unfold consChar
    split
    · exact ih
    · rename_i hc
      split
      · exact fun h => (List.mem_cons.mp h).elim (fun h => hc h.symm) ih
      · exact ih

theorem exists_of_mem_completeLines (s : List Char) :
    ∀ line ∈ (completeLines s).1, ∃ w, '\n' ∉ w ∧ line = w ++ ['\n'] := by
  induction s with
  | nil => exact fun line h => absurd h List.not_mem_nil
  | cons c s ih =>
    rw [completeLines_cons]
    generalize completeLines s = r at ih
    unfold consChar
    split
    · refine List.forall_mem_cons.mpr ⟨⟨[], List.not_mem_nil, rfl⟩, ih⟩
    · rename_i hc
      split
      · exact fun line h => absurd h List.not_mem_nil
      · rename_i line lines part
        obtain ⟨hline, hlines⟩ := List.forall_mem_cons.mp ih
        obtain ⟨w, hw, rfl⟩ := hline
        refine List.forall_mem_cons.mpr ⟨⟨c :: w, ?_, rfl⟩, hlines⟩
        exact fun h => (List.mem_cons.mp h).elim (fun h => hc h.symm) hw

theorem cut_eq_completeLines (s rest : List Char) :
    Text.cut '\n' (s ++ rest) =
      (completeLines s).1 ++ Text.cut '\n' ((completeLines s).2 ++ rest) := by
  have hs := completeLines_flatten s
  conv => lhs; rw [← hs, List.append_assoc]
  exact Text.cut_flatten_append _ (exists_of_mem_completeLines s)

theorem ofChunks_of_decode {chunks : List (List UInt8)} {carry : List UInt8} {part text : List Char}
    (hcarry : decode 0 carry = .ok ([], carry)) (hpart : '\n' ∉ part)
    (h : decode 0 (carry ++ chunks.flatten) = .ok (text, [])) :
    ofChunks carry part chunks = ⟨Text.cut '\n' (part ++ text), none⟩ := by
  -- what earlier chunks have left is general: undecoded bytes and a line without its end
  induction chunks generalizing carry part text with
  | nil =>
    rw [List.flatten_nil, List.append_nil, hcarry] at h
    obtain ⟨rfl, rfl⟩ := Prod.mk.inj (Except.ok.inj h)
    rw [List.append_nil]
    cases part with
    | nil =>
      rw [Text.cut_nil]
      rfl
    | cons c part =>
      rw [Text.cut_of_not_mem (List.cons_ne_nil c part) hpart]
      rfl
  | cons chunk chunks ih =>
    rw [List.flatten_cons, ← List.append_assoc] at h
    obtain ⟨first, kept, last, hd, hrest, rfl⟩ := exists_decode_of_append h
    have hlines := ih (decode_carry hd) (newline_not_mem_completeLines (part ++ first)) hrest
    rw [ofChunks, hd]
    dsimp only
    rw [hlines, ← List.append_assoc, cut_eq_completeLines (part ++ first)]

theorem ofChunks_lines_ne_nil (chunks : List (List UInt8)) (carry : List UInt8) (part : List Char) :
    ∀ line ∈ (ofChunks carry part chunks).lines, line ≠ [] := by
  induction chunks generalizing carry part with
  | nil =>
    intro line hline
    match carry, part, hline with
    | [], c :: part, hline =>
      rw [List.mem_singleton.mp hline]
      exact List.cons_ne_nil c part
  | cons chunk chunks ih =>
    rw [ofChunks]
    cases decode 0 (carry ++ chunk) with
    | error e => exact fun line h => absurd h List.not_mem_nil
    | ok r =>
      intro line hline
      obtain h | h := List.mem_append.mp hline
      · obtain ⟨w, -, rfl⟩ := exists_of_mem_completeLines _ line h
        exact List.append_ne_nil_of_right_ne_nil w (List.cons_ne_nil _ _)
      · exact ih _ _ line h

theorem ofBytes_encode (text : List Char) :
    ofBytes (encode text) = ⟨Text.cut '\n' text, none⟩ := by
  have h : decode 0 ([] ++ (chunksOf 8191 (encode text)).flatten) = .ok (text, []) := by
    rw [chunksOf_flatten, List.nil_append, decode_encode]
  exact ofChunks_of_decode (Text.Utf8.decode_nil 0) List.not_mem_nil h

end Readings

namespace Scanner

theorem collect_ofChunks (g : Grammar) (p : Path) (chunks : List (List UInt8)) :
    let r := (start g p (Readings.ofChunks [] [] chunks)).collect
    r.1 = tagsFrom g p 1 (Readings.ofChunks [] [] chunks).lines ∧
      r.2.1 = (Readings.ofChunks [] [] chunks).failure := by
  have hreads : Reads (start g p (Readings.ofChunks [] [] chunks)).source
      (Readings.ofChunks [] [] chunks).lines (Readings.ofChunks [] [] chunks).failure
      (⟨[], none⟩ : Readings) :=
    Readings.reads_lines _ _ (Readings.ofChunks_lines_ne_nil _ _ _)
  have h := collected_of_reads (ready_start g p _) hreads
  exact ⟨h.tags, h.ending⟩

theorem collect_ofBytes (g : Grammar) (p : Path) (bytes : List UInt8) :
    let r := (start g p (Readings.ofBytes bytes)).collect
    r.1 = tagsFrom g p 1 (Readings.ofBytes bytes).lines ∧
      r.2.1 = (Readings.ofBytes bytes).failure :=
  collect_ofChunks g p (Readings.chunksOf 8191 bytes)

theorem collect_ofBytes_encode (g : Grammar) (p : Path) (text : List Char) :
    let r := (start g p (Readings.ofBytes (encode text))).collect
    r.1 = tagsFrom g p 1 (Text.cut '\n' text) ∧ r.2.1 = none := by
  have h := collect_ofBytes g p (encode text)
  rwa [Readings.ofBytes_encode] at h ⊢

end Scanner

end CommentTags

import CommentTags.Proofs.Scan.Recorded

namespace CommentTags

theorem tagsFrom_take (g : Grammar) (p : Path) (k n : Nat) (lines : List Line) :
    tagsFrom g p k (lines.take n) =
      (tagsFrom g p k lines).filter fun t : Tag => t.line < (k + n : Nat) := by
  have hlines : tagsFrom g p k lines =
      tagsFrom g p k (lines.take n) ++ tagsFrom g p (k + (lines.take n).length) (lines.drop n) := by
    rw [← tagsFrom_append, List.take_append_drop]
  have hbefore : ∀ t ∈ tagsFrom g p k (lines.take n), t.line < (k + n : Nat) := by
    intro t ht
    obtain ⟨i, line, hline, ht⟩ := mem_tagsFrom.mp ht
    have hi : i < n := by
      obtain ⟨hlen, -⟩ := List.getElem?_eq_some_iff.mp hline
      rw [List.length_take] at hlen
      omega
    rw [(lineTag?_place ht).2.1]
    omega
  have hbehind : ∀ t ∈ tagsFrom g p (k + (lines.take n).length) (lines.drop n),
      ¬ t.line < (k + n : Nat) := by
    intro t ht
    obtain ⟨i, line, hline, ht⟩ := mem_tagsFrom.mp ht
    have hlen : n < lines.length := by
      obtain ⟨hlen, -⟩ := List.getElem?_eq_some_iff.mp hline
      rw [List.length_drop] at hlen
      omega
    rw [(lineTag?_place ht).2.1, List.length_take]
    omega
  rw [hlines, List.filter_append, List.filter_eq_self.mpr, List.filter_eq_nil_iff.mpr,
    List.append_nil]
  · exact fun t ht h => hbehind t ht (of_decide_eq_true h)
  · exact fun t ht => decide_eq_true (hbefore t ht)

variable {σ : Type} [LineSource σ] {s t : σ} {lines : List Line}

namespace Failing

theorem reads_take (h : Reads s lines none t) {n : Nat} (hn : n ≤ lines.length) :
    ∃ u, Reads (⟨s, some n⟩ : Failing σ) (lines.take n) (some .device) ⟨u, none⟩ ∧
      Reads u (lines.drop n) none t := by
  generalize hnone : (none : Option ReadError) = failure at h
  induction n generalizing s lines with
  | zero =>
    subst hnone
    exact ⟨s, .failed rfl, h⟩
  | succ n ih =>
    cases h with
    | done => cases hn
    | failed => cases hnone
    | @line _ v _ c line lines _ h hrest =>
      obtain ⟨u, htake, hdrop⟩ := ih (Nat.le_of_succ_le_succ hn) hrest
      have hread : LineSource.readLine (⟨s, some (n + 1)⟩ : Failing σ) =
          (.ok (c :: line), ⟨v, some n⟩) := by
        change ((LineSource.readLine s).1, (⟨(LineSource.readLine s).2, some n⟩ : Failing σ)) = _
        rw [h]
      exact ⟨u, .line hread htake, hdrop⟩

theorem reads_of_lt (h : Reads s lines none t) {n : Nat} (hn : lines.length < n) :
    Reads (⟨s, some n⟩ : Failing σ) lines none ⟨t, some (n - (lines.length + 1))⟩ := by
  generalize hnone : (none : Option ReadError) = failure at h
  obtain ⟨n, rfl⟩ : ∃ m, n = m + 1 := ⟨n - 1, by omega⟩
  have hread : LineSource.readLine (⟨s, some (n + 1)⟩ : Failing σ) =
      ((LineSource.readLine s).1, ⟨(LineSource.readLine s).2, some n⟩) := rfl
  induction h generalizing n with
  | done h =>
    rw [h] at hread
    exact .done hread
  | failed => cases hnone
  | @line s v t c line lines failure h _ ih =>
    rw [h] at hread
    obtain ⟨m, rfl⟩ : ∃ m, n = m + 1 := ⟨n - 1, by rw [List.length_cons] at hn; omega⟩
    have hrest := ih hnone m (by rw [List.length_cons] at hn; omega) rfl
    rw [List.length_cons, Nat.add_sub_add_right]
    subst hnone
    exact .line hread hrest

end Failing

namespace Scanner

/-- If read number `n`, counted from zero, fails, then a scan gives the tags of the first `n` lines
and ends with that failure, provided that it comes to make this read. It makes one read for each
line and one more. -/
theorem collect_of_failing_read (g : Grammar) (p : Path) (text : List Char) (n : Nat) :
    let lines := Text.cut '\n' text
    let whole := (start g p (TextStream.ofList text)).collect
    let r := (start g p (⟨TextStream.ofList text, some n⟩ : Failing TextStream)).collect
    (n ≤ lines.length →
      r.1 = whole.1.filter (fun t : Tag => t.line ≤ n) ∧ r.1 = tagsFrom g p 1 (lines.take n) ∧
      r.2.1 = some .device ∧ r.2.2.lineNumber = n) ∧
    (lines.length < n →
      r.1 = whole.1 ∧ r.2.1 = none ∧ r.2.2.lineNumber = lines.length ∧
      r.2.2.source.countdown = some (n - (lines.length + 1))) ∧
    (start g p (Recorded.start (TextStream.ofList text))).collect.2.2.source.reads =
      lines ++ [[]] := by
  have hreads := TextStream.reads_ofList text
  refine ⟨fun hn => ?_, fun hn => ?_, ?_⟩
  · obtain ⟨u, hfailing, -⟩ := Failing.reads_take hreads hn
    have h := collected_of_reads (ready_start g p _) hfailing
    have htake := tagsFrom_take g p 1 n (Text.cut '\n' text)
    refine ⟨?_, h.tags, h.ending, ?_⟩
    · rw [h.tags, collect_ofList]
      refine htake.trans (List.filter_congr fun t _ => decide_eq_decide.mpr ?_)
      omega
    · rw [h.lineNumber, List.length_take, Nat.min_eq_left hn]
      exact Nat.zero_add n
  · have h := collected_of_reads (ready_start g p _) (Failing.reads_of_lt hreads hn)
    refine ⟨?_, h.ending, h.lineNumber.trans (Nat.zero_add _), ?_⟩
    · rw [h.tags, collect_ofList]
      rfl
    · rw [h.source]
  · have h := collected_of_reads (ready_start g p _) (Recorded.reads_of_reads hreads [])
    rw [Recorded.start, h.source]
    rfl

end Scanner

end CommentTags

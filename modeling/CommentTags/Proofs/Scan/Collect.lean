import CommentTags.Proofs.Scan.LineTags
import CommentTags.Proofs.Scan.Reads
import CommentTags.Scan.Scanner

namespace CommentTags.Scanner

variable {σ : Type} [LineSource σ] {s : Scanner σ} {source : σ}

/-- Nothing is left in hand that has not been tested. -/
def Ready (s : Scanner σ) : Prop :=
  s.grammar = .rust → s.buffer = []

def afterLine (s : Scanner σ) (source : σ) (line : Line) : Scanner σ :=
  match s.grammar with
  | .rust => (s.load source line).clear
  | .cLike => s.load source line

omit [LineSource σ] in
theorem ready_start (g : Grammar) (p : Path) (source : σ) : (start g p source).Ready :=
  fun _ => rfl

omit [LineSource σ] in
theorem ready_afterLine (s : Scanner σ) (source : σ) (line : Line) :
    (s.afterLine source line).Ready := by
  intro h
  unfold afterLine at *
  split <;> simp_all [load, clear]

omit [LineSource σ] in
@[simp] theorem grammar_afterLine (s : Scanner σ) (source : σ) (line : Line) :
    (s.afterLine source line).grammar = s.grammar := by
  unfold afterLine
  split <;> rfl

omit [LineSource σ] in
@[simp] theorem path_afterLine (s : Scanner σ) (source : σ) (line : Line) :
    (s.afterLine source line).path = s.path := by
  unfold afterLine
  split <;> rfl

omit [LineSource σ] in
@[simp] theorem source_afterLine (s : Scanner σ) (source : σ) (line : Line) :
    (s.afterLine source line).source = source := by
  unfold afterLine
  split <;> rfl

omit [LineSource σ] in
@[simp] theorem lineNumber_afterLine (s : Scanner σ) (source : σ) (c : Char) (line : Line) :
    (s.afterLine source (c :: line)).lineNumber = s.lineNumber + 1 := by
  unfold afterLine
  split <;> rfl

omit [LineSource σ] in
theorem found?_load (s : Scanner σ) (source : σ) (c : Char) (line : Line) :
    (s.load source (c :: line)).found? =
      lineTag? s.grammar s.path (s.lineNumber + 1) (c :: line) := rfl

theorem nextTestFirst_eq (s : Scanner σ) :
    s.nextTestFirst =
      match s.found? with
      | some t => (.ok (some t), s.clear)
      | none =>
        match LineSource.readLine s.source with
        | (.error e, source) => (.error e, { s.clear with source })
        | (.ok [], source) => (.ok none, s.load source [])
        | (.ok (c :: line), source) => (s.load source (c :: line)).nextTestFirst := by
  rw [nextTestFirst]
  cases s.found? with
  | some t => rfl
  | none => dsimp only; split <;> simp only [*]

theorem nextReadFirst_eq (s : Scanner σ) :
    s.nextReadFirst =
      match LineSource.readLine s.source with
      | (.error e, source) => (.error e, { s with source })
      | (.ok [], source) => (.ok none, s.load source [])
      | (.ok (c :: line), source) =>
        match (s.load source (c :: line)).found? with
        | some t => (.ok (some t), s.load source (c :: line))
        | none => (s.load source (c :: line)).nextReadFirst := by
  rw [nextReadFirst]
  split
  · rename_i h
    rw [h]
  · rename_i h
    rw [h]
  · rename_i h
    generalize LineSource.readLine s.source = r at *
    subst h
    rfl

theorem nextTestFirst_clear (h : s.found? = none) : s.clear.nextTestFirst = s.nextTestFirst := by
  have hc : s.clear.found? = none := found?_of_buffer_nil s.clear rfl
  rw [nextTestFirst_eq s, nextTestFirst_eq s.clear, h, hc]
  rfl

theorem next_of_rust (h : s.grammar = .rust) : s.next = s.nextTestFirst := by
  rw [next, h]

theorem next_of_cLike (h : s.grammar = .cLike) : s.next = s.nextReadFirst := by
  rw [next, h]

theorem next_of_error {e : ReadError} (hs : s.Ready)
    (h : LineSource.readLine s.source = (.error e, source)) :
    s.next = (.error e, { s with source }) := by
  unfold next
  split
  · rename_i hg
    have hb := hs hg
    rw [nextTestFirst_eq, found?_of_buffer_nil s hb, h]
    simp only [clear, hb]
  · rw [nextReadFirst_eq, h]

theorem next_of_end (hs : s.Ready) (h : LineSource.readLine s.source = (.ok [], source)) :
    s.next = (.ok none, s.load source []) := by
  unfold next
  split
  · rename_i hg
    rw [nextTestFirst_eq, found?_of_buffer_nil s (hs hg), h]
  · rw [nextReadFirst_eq, h]

/-- Both orders of testing and reading come to the same: one line is read and gives its tag, or
else the scanner goes on behind it. -/
theorem next_of_line {c : Char} {line : Line} (hs : s.Ready)
    (h : LineSource.readLine s.source = (.ok (c :: line), source)) :
    s.next =
      match lineTag? s.grammar s.path (s.lineNumber + 1) (c :: line) with
      | some t => (.ok (some t), s.afterLine source (c :: line))
      | none => (s.afterLine source (c :: line)).next := by
  have hf := found?_load s source c line
  cases hg : s.grammar with
  | rust =>
    have hafter : s.afterLine source (c :: line) = (s.load source (c :: line)).clear := by
      rw [afterLine, hg]
    rw [hafter, next_of_rust hg, nextTestFirst_eq, found?_of_buffer_nil s (hs hg), h]
    dsimp only
    rw [hg] at hf
    cases ht : lineTag? .rust s.path (s.lineNumber + 1) (c :: line) with
    | some t => rw [nextTestFirst_eq, hf, ht]
    | none =>
      dsimp only
      rw [next_of_rust (s := (s.load source (c :: line)).clear) hg,
        nextTestFirst_clear (hf.trans ht)]
  | cLike =>
    have hafter : s.afterLine source (c :: line) = s.load source (c :: line) := by
      rw [afterLine, hg]
    rw [hafter, next_of_cLike hg, nextReadFirst_eq, h]
    dsimp only
    rw [hf, hg, next_of_cLike (s := s.load source (c :: line)) hg]

theorem collect_eq (s : Scanner σ) :
    s.collect =
      match s.next with
      | (.error e, s) => ([], some e, s)
      | (.ok none, s) => ([], none, s)
      | (.ok (some t), s) => (t :: s.collect.1, s.collect.2) := by
  rw [collect]
  split <;> simp only [*]

theorem collect_of_line {c : Char} {line : Line} (hs : s.Ready)
    (h : LineSource.readLine s.source = (.ok (c :: line), source)) :
    s.collect =
      ((lineTag? s.grammar s.path (s.lineNumber + 1) (c :: line)).toList ++
        (s.afterLine source (c :: line)).collect.1,
        (s.afterLine source (c :: line)).collect.2) := by
  rw [collect_eq s, next_of_line hs h]
  cases lineTag? s.grammar s.path (s.lineNumber + 1) (c :: line) with
  | some t => rfl
  | none =>
    dsimp only
    rw [← collect_eq]
    rfl

structure Collected (s : Scanner σ) (lines : List Line) (failure : Option ReadError) (source : σ)
    (r : List Tag × Option ReadError × Scanner σ) : Prop where
  tags : r.1 = tagsFrom s.grammar s.path (s.lineNumber + 1) lines
  ending : r.2.1 = failure
  lineNumber : r.2.2.lineNumber = s.lineNumber + lines.length
  source : r.2.2.source = source
  grammar : r.2.2.grammar = s.grammar
  path : r.2.2.path = s.path
  buffer : failure = none → r.2.2.buffer = []

theorem collected_of_reads {lines : List Line} {failure : Option ReadError} (hs : s.Ready)
    (h : Reads s.source lines failure source) : s.Collected lines failure source s.collect := by
  generalize hsource : s.source = source' at h
  -- on what can be read; between two lines the scanner is always ready
  induction h generalizing s with
  | done h =>
    rw [← hsource] at h
    rw [collect_eq, next_of_end hs h]
    exact ⟨rfl, rfl, rfl, rfl, rfl, rfl, fun _ => rfl⟩
  | failed h =>
    rw [← hsource] at h
    rw [collect_eq, next_of_error hs h]
    exact ⟨rfl, rfl, rfl, rfl, rfl, rfl, fun hf => by cases hf⟩
  | @line _ t _ c line lines failure h _ ih =>
    rw [← hsource] at h
    have hrest := ih (ready_afterLine s t (c :: line)) (source_afterLine ..)
    rw [collect_of_line hs h]
    refine ⟨?_, hrest.ending, ?_, hrest.source, hrest.grammar.trans (grammar_afterLine ..),
      hrest.path.trans (path_afterLine ..), hrest.buffer⟩
    · rw [hrest.tags, grammar_afterLine, path_afterLine, lineNumber_afterLine, tagsFrom_cons]
    · rw [hrest.lineNumber, lineNumber_afterLine, List.length_cons, Nat.add_assoc, Nat.add_comm 1]

/-- Scanning a text to its end gives the tags of the lines it is cut into, and each of these lines
has been read and counted. -/
theorem collect_ofList (g : Grammar) (p : Path) (text : List Char) :
    (start g p (TextStream.ofList text)).collect =
      (tagsFrom g p 1 (Text.cut '\n' text), none,
        ⟨g, p, ⟨text.reverse, []⟩, [], (Text.cut '\n' text).length⟩) := by
  have h : (start g p (TextStream.ofList text)).Collected (Text.cut '\n' text) none
      ⟨text.reverse, []⟩ (start g p (TextStream.ofList text)).collect :=
    collected_of_reads (ready_start g p _) (TextStream.reads_ofList text)
  generalize (start g p (TextStream.ofList text)).collect = r at h ⊢
  obtain ⟨tags, ending, grammar, path, source, buffer, lineNumber⟩ := r
  obtain ⟨htags, hending, hnumber, hsource, hgrammar, hpath, hbuffer⟩ := h
  dsimp only [start] at *
  rw [Nat.zero_add] at htags hnumber
  rw [htags, hending, hnumber, hsource, hgrammar, hpath, hbuffer rfl]

theorem mem_collect_ofList {g : Grammar} {p : Path} {text : List Char} {t : Tag} :
    t ∈ (start g p (TextStream.ofList text)).collect.1 ↔
      ∃ i line, (Text.cut '\n' text)[i]? = some line ∧ HasTag p (i + 1) line g t := by
  rw [collect_ofList, mem_tagsFrom]
  refine exists_congr fun i => exists_congr fun line => and_congr_right fun hline => ?_
  rw [Nat.add_comm, lineTag?_eq_some_iff]
  exact (Text.isCut_cut '\n' text).lf_last line (List.mem_of_getElem? hline)

/-- The tags that scanning a text gives for one of its lines, which are counted from zero here. -/
def tagsOfLine (g : Grammar) (p : Path) (text : List Char) (i : Nat) : List Tag :=
  (start g p (TextStream.ofList text)).collect.1.filter fun t => t.line = (i : Int) + 1

theorem tagsOfLine_eq {text : List Char} {i : Nat} {line : List Char} (g : Grammar) (p : Path)
    (h : (Text.cut '\n' text)[i]? = some line) :
    tagsOfLine g p text i = (lineTag? g p (i + 1) line).toList := by
  obtain ⟨before, after, hcut, hlength⟩ :
      ∃ before after, Text.cut '\n' text = before ++ line :: after ∧ before.length = i := by
    obtain ⟨hi, rfl⟩ := List.getElem?_eq_some_iff.mp h
    refine ⟨_, (Text.cut '\n' text).drop (i + 1), ?_, List.length_take_of_le hi.le⟩
    rw [List.getElem_cons_drop, List.take_append_drop]
  have hother : ∀ (n : Nat) (lines : List Line), (∀ k < lines.length, n + k ≠ i + 1) →
      (tagsFrom g p n lines).filter (fun t => t.line = (i : Int) + 1) = [] := by
    intro n lines hn
    refine List.filter_eq_nil_iff.mpr fun t ht => ?_
    obtain ⟨k, l, hl, ht⟩ := mem_tagsFrom.mp ht
    have hne := hn k (List.getElem?_eq_some_iff.mp hl).1
    rw [(lineTag?_place ht).2.1, decide_eq_true_eq]
    omega
  have hown : (lineTag? g p (i + 1) line).toList.filter (fun t => t.line = (i : Int) + 1) =
      (lineTag? g p (i + 1) line).toList := by
    refine List.filter_eq_self.mpr fun t ht => ?_
    rw [(lineTag?_place (Option.mem_toList.mp ht)).2.1]
    exact decide_eq_true rfl
  have hbefore := hother 1 before (by omega)
  have hafter := hother (i + 2) after (by omega)
  rw [tagsOfLine, collect_ofList]
  dsimp only
  rw [hcut, tagsFrom_append, tagsFrom_cons, hlength, Nat.add_comm 1 i, List.filter_append,
    List.filter_append, hbefore, hown, hafter, List.nil_append, List.append_nil]

/-- A scanner gives exactly the tags of a text's lines. In both grammars the same lines are cut off,
at line feeds only, and numbered from one; none is lost, and none has more than one tag. -/
theorem collect_refines_lines (g : Grammar) (p : Path) (text : List Char) :
    let lines := Text.cut '\n' text
    let r := (start g p (TextStream.ofList text)).collect
    (∀ ls, Text.IsCut '\n' text ls ↔ ls = lines) ∧
      r = (tagsFrom g p 1 lines, none, ⟨g, p, ⟨text.reverse, []⟩, [], lines.length⟩) ∧
      (∀ line ∈ lines, ∀ n t, lineTag? g p n line = some t ↔ HasTag p n line g t) ∧
      (∀ t, t ∈ r.1 ↔ ∃ i line, lines[i]? = some line ∧ HasTag p (i + 1) line g t) ∧
      r.1.Pairwise fun a b => a.line < b.line := by
  refine ⟨fun _ => Text.isCut_iff, collect_ofList g p text, ?_, fun _ => mem_collect_ofList, ?_⟩
  · exact fun line hline _ _ => lineTag?_eq_some_iff ((Text.isCut_cut '\n' text).lf_last line hline)
  · rw [collect_ofList]
    exact tagsFrom_pairwise _

end CommentTags.Scanner

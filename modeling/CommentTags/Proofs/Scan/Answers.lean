import CommentTags.Proofs.Scan.Recorded

namespace CommentTags

/-- For the next tag, or for all tags up to the end of the input. -/
inductive Request where
  | next
  | rest
  deriving DecidableEq, Repr

def Tag.numbered (t : Tag) : Tag × Nat := (t, t.line.toNat)

namespace Scanner

section

variable {σ : Type} [LineSource σ]

def answer (s : Scanner σ) : Request → List Tag × Scanner σ
  | .next =>
    match s.next with
    | (.ok (some t), s) => ([t], s)
    | (_, s) => ([], s)
  | .rest => (s.collect.1, s.collect.2.2)

/-- The tags up to the end of the input, each with the line counter as it stands at that moment. -/
def trail (s : Scanner σ) : List (Tag × Nat) :=
  match _ : s.next with
  | (.ok (some t), s) => (t, s.lineNumber) :: trail s
  | _ => []
termination_by s.remaining
decreasing_by exact remaining_next_lt ‹_›

def given (s : Scanner σ) : Request → List (Tag × Nat)
  | .next => ((s.answer .next).1).map fun t => (t, (s.answer .next).2.lineNumber)
  | .rest => s.trail

variable {s s' : Scanner σ} {t : Tag}

omit [LineSource σ] in
theorem line_of_found? (h : s.found? = some t) : t.line = s.lineNumber :=
  (lineTag?_place h).2.1

theorem line_of_nextTestFirst (h : s.nextTestFirst.1 = .ok (some t)) :
    t.line = s.nextTestFirst.2.lineNumber := by
  fun_induction nextTestFirst s with
  | case1 s u hu =>
    cases h
    have hline : t.line = s.lineNumber := line_of_found? hu
    exact hline
  | case2 => cases h
  | case3 => cases h
  | case4 s hf c line source hr ih => exact ih h

theorem line_of_nextReadFirst (h : s.nextReadFirst.1 = .ok (some t)) :
    t.line = s.nextReadFirst.2.lineNumber := by
  fun_induction nextReadFirst s with
  | case1 => cases h
  | case2 => cases h
  | case3 s c line source hr u hu =>
    cases h
    exact line_of_found? hu
  | case4 s c line source hr hf ih => exact ih h

theorem line_of_next (h : s.next = (.ok (some t), s')) : t.line = s'.lineNumber := by
  cases hg : s.grammar with
  | rust =>
    rw [next_of_rust hg] at h
    rw [line_of_nextTestFirst (congrArg Prod.fst h), h]
  | cLike =>
    rw [next_of_cLike hg] at h
    rw [line_of_nextReadFirst (congrArg Prod.fst h), h]

theorem numbered_of_next (h : s.next = (.ok (some t), s')) : t.numbered = (t, s'.lineNumber) := by
  rw [Tag.numbered, line_of_next h, Int.toNat_natCast]

theorem trail_eq (s : Scanner σ) : s.trail = s.collect.1.map Tag.numbered := by
  fun_induction collect s with
  | case1 s e s' h => rw [trail, h]; rfl
  | case2 s s' h => rw [trail, h]; rfl
  | case3 s t s' h tags failure hrest ih =>
    rw [trail, h]
    dsimp only
    rw [ih, hrest, List.map_cons, numbered_of_next h]

theorem answer_next_of_tag (h : s.next = (.ok (some t), s')) : s.answer .next = ([t], s') := by
  rw [answer, h]

theorem answer_next_of_end (h : s.next = (.ok none, s')) : s.answer .next = ([], s') := by
  rw [answer, h]

theorem given_eq (s : Scanner σ) (q : Request) : s.given q = (s.answer q).1.map Tag.numbered := by
  cases q with
  | rest => exact s.trail_eq
  | next =>
    match h : s.next with
    | (.error e, s') => rw [given, answer, h]; rfl
    | (.ok none, s') => rw [given, answer, h]; rfl
    | (.ok (some t), s') =>
      rw [given, answer_next_of_tag h, List.map_singleton, List.map_singleton, numbered_of_next h]

end

section

variable {σ : Type} [LineSource σ] {s : Scanner (Recorded σ)} {lines : List Line} {r : Recorded σ}
  {c : Char} {line : Line} {t : Tag}

/-- The tag of the line in hand, which only a scanner that tests first looks at again. -/
def retested (s : Scanner σ) : List Tag :=
  match s.grammar with
  | .rust => s.found?.toList
  | .cLike => []

/-- An answer after which the line of its tag is still in hand. -/
def Keeps (s : Scanner σ) (q : Request) : Prop :=
  q = .next ∧ s.grammar = .cLike ∧ (s.answer q).1 ≠ []

/-- How a request is answered: a scanner that tests first gives the tag of the line in hand, and
then new lines are read and give theirs. -/
structure Answered (s : Scanner (Recorded σ)) (q : Request) (new : List Line) : Prop where
  grammar : (s.answer q).2.grammar = s.grammar
  path : (s.answer q).2.path = s.path
  lines : (s.answer q).2.source.lines = s.source.lines ++ new
  lineNumber : (s.answer q).2.lineNumber = s.lineNumber + new.length
  tags : (s.answer q).1 = s.retested ++ tagsFrom s.grammar s.path (s.lineNumber + 1) new
  released : ¬ s.Keeps q → (s.answer q).2.buffer = []
  held : s.Keeps q → new.getLast? = some (s.answer q).2.buffer

omit [LineSource σ] in
theorem retested_of_ready {s : Scanner σ} (hs : s.Ready) : s.retested = [] := by
  unfold retested
  split
  · rename_i hg
    rw [found?_of_buffer_nil s (hs hg)]
    rfl
  · rfl

theorem Answered.of_end (hs : s.Ready) (h : LineSource.readLine s.source = (.ok [], r)) :
    Answered s .next [] := by
  have hanswer := answer_next_of_end (next_of_end hs h)
  constructor
  case held => exact fun hkeeps => absurd (congrArg Prod.fst hanswer) hkeeps.2.2
  case tags => rw [hanswer, retested_of_ready hs]; rfl
  case lines => rw [hanswer, List.append_nil]; exact Recorded.lines_of_end h
  all_goals rw [hanswer]
  all_goals intros; rfl

theorem Answered.of_tag (hs : s.Ready) (h : LineSource.readLine s.source = (.ok (c :: line), r))
    (htag : lineTag? s.grammar s.path (s.lineNumber + 1) (c :: line) = some t) :
    Answered s .next [c :: line] := by
  have hnext := next_of_line hs h
  rw [htag] at hnext
  have hanswer := answer_next_of_tag hnext
  constructor
  case grammar => rw [hanswer, grammar_afterLine]
  case path => rw [hanswer, path_afterLine]
  case lines => rw [hanswer, source_afterLine, Recorded.lines_of_line h]
  case lineNumber => rw [hanswer, lineNumber_afterLine]; rfl
  case tags => rw [hanswer, retested_of_ready hs, tagsFrom_cons, htag]; rfl
  case released =>
    intro hkeeps
    have hg : s.grammar = .rust := by
      cases hg : s.grammar with
      | rust => rfl
      | cLike => exact absurd ⟨rfl, hg, by rw [hanswer]; exact List.cons_ne_nil _ _⟩ hkeeps
    rw [hanswer, afterLine, hg]
    rfl
  case held =>
    rintro ⟨-, hg, -⟩
    rw [hanswer, afterLine, hg]
    rfl

theorem Answered.of_line (hs : s.Ready) (h : LineSource.readLine s.source = (.ok (c :: line), r))
    (htag : lineTag? s.grammar s.path (s.lineNumber + 1) (c :: line) = none)
    (hnew : Answered (s.afterLine r (c :: line)) .next lines) :
    Answered s .next ((c :: line) :: lines) := by
  have hnext := next_of_line hs h
  rw [htag] at hnext
  have hanswer : s.answer .next = (s.afterLine r (c :: line)).answer .next := by
    rw [answer, hnext, answer]
  have hkeeps : s.Keeps .next ↔ (s.afterLine r (c :: line)).Keeps .next := by
    rw [Keeps, Keeps, hanswer, grammar_afterLine]
  constructor
  case grammar => rw [hanswer, hnew.grammar, grammar_afterLine]
  case path => rw [hanswer, hnew.path, path_afterLine]
  case lines =>
    rw [hanswer, hnew.lines, source_afterLine, Recorded.lines_of_line h, List.append_assoc,
      List.singleton_append]
  case lineNumber =>
    rw [hanswer, hnew.lineNumber, lineNumber_afterLine, List.length_cons, Nat.add_assoc,
      Nat.add_comm 1]
  case tags =>
    rw [hanswer, hnew.tags, retested_of_ready hs, retested_of_ready (ready_afterLine s r _),
      tagsFrom_cons, htag, grammar_afterLine, path_afterLine, lineNumber_afterLine]
    rfl
  case released =>
    rw [hkeeps, hanswer]
    exact hnew.released
  case held =>
    rw [hkeeps, hanswer]
    intro h
    rw [List.getLast?_cons, hnew.held h]
    rfl

theorem answered_next_of_reads (hs : s.Ready) (h : Reads s.source lines none r) :
    ∃ new, Answered s .next new := by
  generalize hsource : s.source = source at h
  generalize hnone : (none : Option ReadError) = failure at h
  -- on what can be read; the scanner after a line is ready for the lines that come then
  induction h generalizing s with
  | done h => exact ⟨[], .of_end hs (hsource ▸ h)⟩
  | failed => cases hnone
  | @line _ r _ c line _ _ h _ ih =>
    rw [← hsource] at h
    cases htag : lineTag? s.grammar s.path (s.lineNumber + 1) (c :: line) with
    | some t => exact ⟨[c :: line], .of_tag hs h htag⟩
    | none =>
      obtain ⟨new, hnew⟩ := ih (ready_afterLine s r _) (source_afterLine ..) hnone
      exact ⟨(c :: line) :: new, .of_line hs h htag hnew⟩

theorem answered_rest_of_reads (hs : s.Ready) (h : Reads s.source lines none r) :
    Answered s .rest lines := by
  have hcollected := collected_of_reads hs h
  constructor
  case grammar => exact hcollected.grammar
  case path => exact hcollected.path
  case lines =>
    rw [answer, hcollected.source]
    exact Recorded.lines_of_reads h
  case lineNumber => exact hcollected.lineNumber
  case tags =>
    rw [retested_of_ready hs]
    exact hcollected.tags
  case released => exact fun _ => hcollected.buffer rfl
  case held => exact fun hkeeps => by cases hkeeps.1

omit [LineSource σ] in
theorem ready_clear (s : Scanner σ) : s.clear.Ready := fun _ => rfl

theorem next_of_found? {s : Scanner σ} (hg : s.grammar = .rust)
    (h : s.found? = some t) : s.next = (.ok (some t), s.clear) := by
  rw [next_of_rust hg, nextTestFirst_eq, h]

theorem answer_clear {s : Scanner σ} (hg : s.grammar = .rust) (h : s.found? = none) (q : Request) :
    s.clear.answer q = s.answer q := by
  have hclear : s.clear.grammar = .rust := hg
  have hnext : s.clear.next = s.next := by
    rw [next_of_rust hg, next_of_rust hclear, nextTestFirst_clear h]
  cases q with
  | next => rw [answer, answer, hnext]
  | rest => rw [answer, answer, collect_eq, hnext, ← collect_eq]

theorem not_keeps_of_rust {s : Scanner σ} (hg : s.grammar = .rust) (q : Request) : ¬ s.Keeps q :=
  fun ⟨_, hc, _⟩ => by rw [hg] at hc; cases hc

omit [LineSource σ] in
theorem retested_of_rust {s : Scanner σ} (hg : s.grammar = .rust) :
    s.retested = s.found?.toList := by
  rw [retested, hg]

theorem Answered.of_clear {q : Request} {new : List Line} (hg : s.grammar = .rust)
    (hf : s.found? = none) (h : Answered s.clear q new) : Answered s q new := by
  have hanswer := answer_clear hg hf q
  have hclear : s.clear.grammar = .rust := hg
  constructor
  case grammar => rw [← hanswer, h.grammar]; rfl
  case path => rw [← hanswer, h.path]; rfl
  case lines => rw [← hanswer, h.lines]; rfl
  case lineNumber => rw [← hanswer, h.lineNumber]; rfl
  case tags =>
    rw [← hanswer, h.tags, retested_of_ready (ready_clear s), retested_of_rust hg, hf]
    rfl
  case released => exact fun _ => hanswer ▸ h.released (not_keeps_of_rust hclear q)
  case held => exact fun hkeeps => absurd hkeeps (not_keeps_of_rust hg q)

theorem answered_next_of_found? (hg : s.grammar = .rust) (hf : s.found? = some t) :
    Answered s .next [] := by
  have hanswer := answer_next_of_tag (next_of_found? hg hf)
  constructor
  case tags =>
    rw [hanswer, retested_of_rust hg, hf]
    rfl
  case lines => rw [hanswer, List.append_nil]; rfl
  case held => exact fun hkeeps => absurd hkeeps (not_keeps_of_rust hg _)
  all_goals rw [hanswer]
  all_goals intros; rfl

theorem answered_rest_of_found? {new : List Line} (hg : s.grammar = .rust)
    (hf : s.found? = some t) (h : Answered s.clear .rest new) : Answered s .rest new := by
  have hanswer : s.answer .rest = (t :: (s.clear.answer .rest).1, (s.clear.answer .rest).2) := by
    rw [answer, answer, collect_eq s, next_of_found? hg hf]
  have hclear : s.clear.grammar = .rust := hg
  constructor
  case grammar => rw [hanswer, h.grammar]; rfl
  case path => rw [hanswer, h.path]; rfl
  case lines => rw [hanswer, h.lines]; rfl
  case lineNumber => rw [hanswer, h.lineNumber]; rfl
  case tags =>
    rw [hanswer, h.tags, retested_of_ready (ready_clear s), retested_of_rust hg, hf]
    rfl
  case released => exact fun _ => by rw [hanswer]; exact h.released (not_keeps_of_rust hclear _)
  case held => exact fun hkeeps => absurd hkeeps (not_keeps_of_rust hg _)

end

theorem exists_answered_of_ready {s : Scanner (Recorded TextStream)} (hs : s.Ready) (q : Request) :
    ∃ new, Answered s q new := by
  have hr := Recorded.reads_of_reads
    (TextStream.reads_cut s.source.source.before s.source.source.after) s.source.reads
  cases q with
  | next => exact answered_next_of_reads hs hr
  | rest => exact ⟨_, answered_rest_of_reads hs hr⟩

/-- A text can always be read, so every request is answered in this way. -/
theorem exists_answered (s : Scanner (Recorded TextStream)) (q : Request) :
    ∃ new, Answered s q new := by
  cases hg : s.grammar with
  | cLike => exact exists_answered_of_ready (fun h => by rw [hg] at h; cases h) q
  | rust =>
    obtain ⟨new, hnew⟩ := exists_answered_of_ready (ready_clear s) q
    cases hf : s.found? with
    | none => exact ⟨new, hnew.of_clear hg hf⟩
    | some t =>
      cases q with
      | next => exact ⟨[], answered_next_of_found? hg hf⟩
      | rest => exact ⟨new, answered_rest_of_found? hg hf hnew⟩

end Scanner

end CommentTags

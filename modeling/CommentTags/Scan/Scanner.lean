import CommentTags.Scan.LineSource
import CommentTags.Scan.LineTag

namespace CommentTags

variable {σ : Type} [LineSource σ]

structure Scanner (σ : Type) where
  grammar : Grammar
  path : Path
  source : σ
  buffer : Line
  lineNumber : Nat

namespace Scanner

def start (grammar : Grammar) (path : Path) (source : σ) : Scanner σ :=
  ⟨grammar, path, source, [], 0⟩

def found? (s : Scanner σ) : Option Tag :=
  lineTag? s.grammar s.path s.lineNumber s.buffer

/-- Put the next line into the buffer and count it, if there is one. -/
def load (s : Scanner σ) (source : σ) (line : Line) : Scanner σ :=
  { s with source, buffer := line, lineNumber := s.lineNumber + if line = [] then 0 else 1 }

def clear (s : Scanner σ) : Scanner σ := { s with buffer := [] }

/-- Test the line in hand, give it up, and only then read the next one. -/
def nextTestFirst (s : Scanner σ) : Except ReadError (Option Tag) × Scanner σ :=
  match s.found? with
  | some t => (.ok (some t), s.clear)
  | none =>
    match _ : LineSource.readLine s.source with
    | (.error e, source) => (.error e, { s.clear with source })
    | (.ok [], source) => (.ok none, s.load source [])
    | (.ok (c :: line), source) => nextTestFirst (s.load source (c :: line))
termination_by LineSource.remaining s.source
decreasing_by exact LineSource.remaining_lt_of_eq ‹_›

/-- Read a line, test it, and keep it in hand. -/
def nextReadFirst (s : Scanner σ) : Except ReadError (Option Tag) × Scanner σ :=
  match _ : LineSource.readLine s.source with
  | (.error e, source) => (.error e, { s with source })
  | (.ok [], source) => (.ok none, s.load source [])
  | (.ok (c :: line), source) =>
    match (s.load source (c :: line)).found? with
    | some t => (.ok (some t), s.load source (c :: line))
    | none => nextReadFirst (s.load source (c :: line))
termination_by LineSource.remaining s.source
decreasing_by exact LineSource.remaining_lt_of_eq ‹_›

def next (s : Scanner σ) : Except ReadError (Option Tag) × Scanner σ :=
  match s.grammar with
  | .rust => s.nextTestFirst
  | .cLike => s.nextReadFirst

/-- A measure of what a scanner has before it. A line to be read counts more than one in hand. -/
def remaining (s : Scanner σ) : Nat :=
  2 * LineSource.remaining s.source + if s.buffer = [] then 0 else 1

omit [LineSource σ] in
theorem found?_of_buffer_nil (s : Scanner σ) (h : s.buffer = []) : s.found? = none := by
  simp [found?, h]

theorem remaining_load_lt {s : Scanner σ} {c : Char} {line : Line} {source : σ}
    (h : LineSource.readLine s.source = (.ok (c :: line), source)) :
    remaining (s.load source (c :: line)) < 2 * LineSource.remaining s.source := by
  have := LineSource.remaining_lt_of_eq h
  simp only [remaining, load, reduceCtorEq, if_false]
  omega

theorem remaining_nextTestFirst_lt (s : Scanner σ) (t : Tag)
    (h : s.nextTestFirst.1 = .ok (some t)) : remaining s.nextTestFirst.2 < remaining s := by
  fun_induction nextTestFirst s with
  | case1 s u hu =>
    have hb : s.buffer ≠ [] := fun hb => by simp [found?_of_buffer_nil s hb] at hu
    simp [remaining, clear, hb]
  | case2 => simp at h
  | case3 => simp at h
  | case4 s hf c line source hr ih =>
    have := remaining_load_lt hr
    have := ih h
    simp only [remaining] at *
    omega

theorem remaining_nextReadFirst_lt (s : Scanner σ) (t : Tag)
    (h : s.nextReadFirst.1 = .ok (some t)) : remaining s.nextReadFirst.2 < remaining s := by
  fun_induction nextReadFirst s with
  | case1 => simp at h
  | case2 => simp at h
  | case3 s c line source hr u hu =>
    have := remaining_load_lt hr
    simp only [remaining] at *
    omega
  | case4 s c line source hr hf ih =>
    have := remaining_load_lt hr
    have := ih h
    simp only [remaining] at *
    omega

theorem remaining_next_lt {s s' : Scanner σ} {t : Tag} (h : s.next = (.ok (some t), s')) :
    remaining s' < remaining s := by
  have hlt : s.next.1 = .ok (some t) → remaining s.next.2 < remaining s := by
    unfold next
    cases s.grammar with
    | rust => exact remaining_nextTestFirst_lt s t
    | cLike => exact remaining_nextReadFirst_lt s t
  rw [h] at hlt
  exact hlt rfl

/-- Every tag up to the end of the input or the first failed read, that failure, and the scanner as
it is then. -/
def collect (s : Scanner σ) : List Tag × Option ReadError × Scanner σ :=
  match _ : s.next with
  | (.error e, s) => ([], some e, s)
  | (.ok none, s) => ([], none, s)
  | (.ok (some t), s) =>
    let (tags, failure) := collect s
    (t :: tags, failure)
termination_by s.remaining
decreasing_by exact remaining_next_lt ‹_›

def describe (s : Scanner σ) : String :=
  "SourceFile(" ++ s.grammar.label ++ ", " ++ Text.quoted s.path.toString ++ ")"

end Scanner

end CommentTags

import CommentTags.Scan.ReadError
import CommentTags.Text.Lines

namespace CommentTags

abbrev Line := List Char

/-- A source of lines. The empty line stands for the end of the input, and a line that is not empty
brings the end nearer. -/
class LineSource (σ : Type) where
  readLine : σ → Except ReadError Line × σ
  remaining : σ → Nat
  remaining_lt (s : σ) (c : Char) (line : Line) :
    (readLine s).1 = .ok (c :: line) → remaining (readLine s).2 < remaining s

theorem LineSource.remaining_lt_of_eq {σ : Type} [LineSource σ] {s s' : σ} {c : Char} {line : Line}
    (h : readLine s = (.ok (c :: line), s')) : remaining s' < remaining s := by
  have := remaining_lt s c line (by rw [h])
  rwa [h] at this

/-- A text with a reading position in it. What has been read is kept backwards. -/
structure TextStream where
  before : List Char
  after : List Char
  deriving DecidableEq, Repr

namespace TextStream

def ofList (s : List Char) : TextStream := ⟨[], s⟩

def text (s : TextStream) : List Char := s.before.reverse ++ s.after

def position (s : TextStream) : Nat := s.before.length

def rewind (s : TextStream) : TextStream := ⟨[], s.text⟩

def append (s : TextStream) (more : List Char) : TextStream := { s with after := s.after ++ more }

def readLine (s : TextStream) : Line × TextStream :=
  let line := Text.firstLine '\n' s.after
  (line, ⟨line.reverse ++ s.before, Text.afterFirstLine '\n' s.after⟩)

@[simp] theorem text_ofList (s : List Char) : (ofList s).text = s := rfl

@[simp] theorem text_rewind (s : TextStream) : s.rewind.text = s.text := rfl

@[simp] theorem text_append (s : TextStream) (more : List Char) :
    (s.append more).text = s.text ++ more := by
  simp [text, append]

@[simp] theorem text_readLine (s : TextStream) : s.readLine.2.text = s.text := by
  simp [text, readLine, Text.firstLine_append_afterFirstLine]

@[simp] theorem position_readLine (s : TextStream) :
    s.readLine.2.position = s.position + s.readLine.1.length := by
  simp [position, readLine, Nat.add_comm]

instance : LineSource TextStream where
  readLine s := (.ok s.readLine.1, s.readLine.2)
  remaining s := s.after.length
  remaining_lt s c line h := by
    cases ha : s.after with
    | nil => simp [readLine, Text.firstLine, ha] at h
    | cons d r => simpa [readLine, ha] using Text.length_afterFirstLine_lt '\n' d r

end TextStream

/-- Lines that have been read beforehand, and the failure that stopped the reading. -/
structure Readings where
  lines : List Line
  failure : Option ReadError
  deriving DecidableEq, Repr

namespace Readings

def readLine (r : Readings) : Except ReadError Line × Readings :=
  match r.lines, r.failure with
  | line :: lines, _ => (.ok line, { r with lines })
  | [], some e => (.error e, ⟨[], none⟩)
  | [], none => (.ok [], r)

instance : LineSource Readings where
  readLine := readLine
  remaining r := r.lines.length
  remaining_lt r c line h := by
    obtain ⟨lines, failure⟩ := r
    cases lines <;> cases failure <;> simp_all [readLine]

def consChar (c : Char) (lines : List Line × Line) : List Line × Line :=
  if c = '\n' then (['\n'] :: lines.1, lines.2)
  else
    match lines with
    | ([], part) => ([], c :: part)
    | (line :: lines, part) => ((c :: line) :: lines, part)

def completeLines (s : List Char) : List Line × Line :=
  s.foldr consChar ([], [])

/-- Read lines from UTF-8 that comes in chunks, given the undecoded bytes and the unfinished line
that earlier chunks have left. A chunk is decoded as a whole, so a failure in it loses all of its
lines. -/
def ofChunks (carry : List UInt8) (part : Line) : List (List UInt8) → Readings
  | [] =>
    match carry, part with
    | [], [] => ⟨[], none⟩
    | [], part => ⟨[part], none⟩
    | carry, _ => ⟨[], some (.encoding (Text.Utf8.endError carry))⟩
  | chunk :: chunks =>
    match Text.Utf8.decode 0 (carry ++ chunk) with
    | .error e => ⟨[], some (.encoding e)⟩
    | .ok (text, carry) =>
      let (lines, part) := completeLines (part ++ text)
      let rest := ofChunks carry part chunks
      ⟨lines ++ rest.lines, rest.failure⟩

/-- Cut a byte string into chunks of `size + 1` bytes. -/
def chunksOf (size : Nat) : List UInt8 → List (List UInt8)
  | [] => []
  | b :: bs => (b :: bs.take size) :: chunksOf size (bs.drop size)
termination_by bs => bs.length
decreasing_by simp only [List.length_drop, List.length_cons]; omega

/-- Read the lines of a file, 8192 bytes at a time. -/
def ofBytes (bytes : List UInt8) : Readings :=
  ofChunks [] [] (chunksOf 8191 bytes)

end Readings

/-- A source whose read number `countdown`, counted from zero, fails. -/
structure Failing (σ : Type) where
  source : σ
  countdown : Option Nat

namespace Failing

variable {σ : Type} [LineSource σ]

def readLine (f : Failing σ) : Except ReadError Line × Failing σ :=
  match f.countdown with
  | some 0 => (.error .device, { f with countdown := none })
  | some (n + 1) =>
    ((LineSource.readLine f.source).1, ⟨(LineSource.readLine f.source).2, some n⟩)
  | none => ((LineSource.readLine f.source).1, ⟨(LineSource.readLine f.source).2, none⟩)

instance : LineSource (Failing σ) where
  readLine := readLine
  remaining f := LineSource.remaining f.source
  remaining_lt f c line h := by
    obtain ⟨source, countdown⟩ := f
    rcases countdown with _ | _ | n
    · exact LineSource.remaining_lt source c line h
    · simp [readLine] at h
    · exact LineSource.remaining_lt source c line h

end Failing

end CommentTags

import CommentTags.Git.Ignore.Glob

namespace CommentTags.Git

structure IgnoreRule where
  negated : Bool
  directoryOnly : Bool
  /-- The pattern is matched against the whole path below the file's directory, not the name. -/
  anchored : Bool
  wild : Bool
  pattern : List UInt8

namespace IgnoreRule

def isSpace (b : UInt8) : Bool := b = 32 || (9 ≤ b && b ≤ 13)

/-- A rule goes on up to a line end that is not escaped. Blanks, tabs and carriage returns may be
part of it. -/
def splitRule (escaped : Bool) : List UInt8 → List UInt8 × List UInt8
  | [] => ([], [])
  | b :: s =>
    if isSpace b && !escaped && b ≠ 32 && b ≠ 9 && b ≠ 13 then ([], b :: s)
    else
      let r := splitRule (b = 92 && !escaped) s
      (b :: r.1, r.2)

def hasWildcard (escaped : Bool) : List UInt8 → Bool
  | [] => false
  | b :: s =>
    (!escaped && (b = 42 || b = 63 || b = 91)) || hasWildcard (b = 92 && !escaped) s

def startsEscaped (s : List UInt8) : Bool :=
  (s.takeWhile (· = 92)).length % 2 = 1

def dropBlanks : List UInt8 → List UInt8
  | [] => []
  | b :: s => if (b = 32 || b = 9) && !startsEscaped s then dropBlanks s else b :: s

/-- Drop the backslashes before blanks, and one at the end. -/
def unescapeBlanks : List UInt8 → List UInt8
  | [] | [92] => []
  | 92 :: b :: s => if isSpace b then b :: unescapeBlanks s else 92 :: b :: unescapeBlanks s
  | b :: s => b :: unescapeBlanks s

def dropCarriageReturn (s : List UInt8) : List UInt8 :=
  if s.getLast? = some 13 then s.dropLast else s

/-- The rule that a line makes once its negation has been taken off. An empty pattern makes none.
A slash makes a rule anchored, unless it is the only one and stands at the end. -/
def ofPattern? (negated : Bool) (raw : List UInt8) : Option IgnoreRule :=
  let body := if raw.head? = some slash then raw.tail else raw
  let body := (dropBlanks (dropCarriageReturn body).reverse).reverse
  let directoryOnly := body.getLast? = some slash
  let slashes := raw.count slash - if directoryOnly then 1 else 0
  if body = [] then none
  else
    some ⟨negated, directoryOnly, 0 < slashes, hasWildcard false raw,
      unescapeBlanks (if directoryOnly then body.dropLast else body)⟩

def glob (r : IgnoreRule) : Glob :=
  .parse r.anchored r.pattern

/-- Whether the literal pattern `short` is the last name of the literal pattern `long`. -/
def isLastName (short long : List UInt8) : Bool :=
  slash ∉ short && (slash :: short).isSuffixOf long

/-- Whether a negated rule may take back something that rule `r` ignores. -/
def mayTakeBack (negation r : IgnoreRule) : Bool :=
  if r.wild then r.glob.matchesText negation.pattern
  else
    !r.negated && (r.pattern = negation.pattern || isLastName r.pattern negation.pattern ||
      isLastName negation.pattern r.pattern)

/-- Add a rule behind others. A negated rule without wildcards counts only if one of the rules
before it ignores what it names. -/
def push (rules : List IgnoreRule) (r : IgnoreRule) : List IgnoreRule :=
  if r.negated && !r.wild && !rules.any r.mayTakeBack then rules else rules ++ [r]

def dropLine (s : List UInt8) : List UInt8 :=
  (s.dropWhile (· ≠ 10)).dropWhile fun b => b = 10 || b = 13

def isBlankLine : List UInt8 → Bool
  | [] | 35 :: _ | 10 :: _ | 13 :: 10 :: _ => true
  | _ => false

def readRules (rules : List IgnoreRule) (s : List UInt8) : (fuel : Nat) → List IgnoreRule
  | 0 => rules
  | fuel + 1 =>
    if s = [] then rules
    else if isBlankLine s then readRules rules (dropLine s) fuel
    else
      let negated := s.head? = some 33
      let (raw, rest) := splitRule false (if negated then s.tail else s)
      readRules (((ofPattern? negated raw).map (push rules)).getD rules) (dropLine rest) fuel

/-- The rules of a file, up to the first NUL and without a byte order mark. Each line takes a byte
at least. -/
def ofFile (content : List UInt8) : List IgnoreRule :=
  let text :=
    match content.takeWhile (· ≠ 0) with
    | 0xEF :: 0xBB :: 0xBF :: s => s
    | s => s
  readRules [] text (text.length + 1)

end IgnoreRule

end CommentTags.Git

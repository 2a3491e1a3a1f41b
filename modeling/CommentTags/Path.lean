namespace CommentTags

/-- Where a path starts. Exactly two leading slashes are a root of their own. -/
inductive Anchor where
  | here
  | root
  | doubleRoot
  deriving DecidableEq, Repr

structure Path where
  anchor : Anchor
  names : List String
  deriving DecidableEq, Repr

namespace Path

def splitSlashes : List Char → List (List Char)
  | [] => [[]]
  | c :: s =>
    if c = '/' then [] :: splitSlashes s
    else
      match splitSlashes s with
      | [] => [[c]]
      | p :: ps => (c :: p) :: ps

def namesOf (s : List Char) : List String :=
  ((splitSlashes s).filter fun p => p ≠ [] ∧ p ≠ ['.']).map String.ofList

def anchorOf : List Char → Anchor
  | '/' :: '/' :: '/' :: _ => .root
  | '/' :: '/' :: _ => .doubleRoot
  | '/' :: _ => .root
  | _ => .here

def ofString (s : String) : Path :=
  ⟨anchorOf s.toList, namesOf s.toList⟩

def anchorText : Anchor → String
  | .here => ""
  | .root => "/"
  | .doubleRoot => "//"

/-- The text of a path. The empty relative path is written `.`. -/
def toString (p : Path) : String :=
  if p.anchor = .here ∧ p.names = [] then "."
  else anchorText p.anchor ++ "/".intercalate p.names

instance : ToString Path := ⟨toString⟩

def isAbsolute (p : Path) : Bool :=
  p.anchor ≠ .here

def child (p : Path) (name : String) : Path :=
  { p with names := p.names ++ [name] }

def name (p : Path) : String :=
  p.names.getLast?.getD ""

/-- The last dot of a name and what follows it; empty if that dot is the first or the last
character. -/
def suffixOf (name : List Char) : List Char :=
  let afterDot := (name.reverse.takeWhile (· ≠ '.')).reverse
  let stem := name.take (name.length - afterDot.length - 1)
  if afterDot.length = name.length ∨ afterDot = [] ∨ stem = [] then [] else '.' :: afterDot

def suffix (p : Path) : String :=
  String.ofList (suffixOf p.name.toList)

def withoutLeadingDot (s : String) : String :=
  match s.toList with
  | '.' :: '/' :: rest => String.ofList rest
  | _ => s

end Path

end CommentTags

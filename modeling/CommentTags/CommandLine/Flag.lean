import CommentTags.Tag.Level
import CommentTags.Text.DecimalDigit

namespace CommentTags.CommandLine

inductive Flag where
  | help
  | levels
  | tag
  | noIgnore
  | noBlame
  | json
  | verbose
  deriving DecidableEq, Repr

namespace Flag

def spellings : List (String × Flag) := [
  ("-h", help), ("--help", help), ("--levels", levels), ("-l", levels), ("--tag", tag),
  ("-t", tag), ("--no-ignore", noIgnore), ("-i", noIgnore), ("--no-blame", noBlame),
  ("-b", noBlame), ("--json", json), ("--verbose", verbose), ("-v", verbose)]

def takesValue : Flag → Bool
  | levels | tag => true
  | _ => false

def label (f : Flag) : String :=
  "/".intercalate ((spellings.filter (·.2 = f)).map Prod.fst)

end Flag

inductive UsageError where
  | ambiguous (argument : String) (candidates : List String)
  | valueMissing (flag : Flag)
  | valueIgnored (flag : Flag) (value : String)
  | badLevel (flag : Flag) (error : LevelError)
  | unrecognized (arguments : List String)
  deriving DecidableEq, Repr

def UsageError.message : UsageError → String
  | ambiguous a cs => "ambiguous option: " ++ a ++ " could match " ++ ", ".intercalate cs
  | valueMissing f => "argument " ++ f.label ++ ": expected one argument"
  | valueIgnored f v =>
    "argument " ++ f.label ++ ": ignored explicit argument " ++ Text.quoted v
  | badLevel f e => "argument " ++ f.label ++ ": " ++ e.message
  | unrecognized as => "unrecognized arguments: " ++ " ".intercalate as

/-- A value that is attached to an option, with an equals sign before it or without. -/
structure Attached where
  equals : Bool
  value : List Char
  deriving DecidableEq, Repr

inductive Form where
  | word
  | separator
  | option (flag : Flag) (short : Bool) (attached : Option Attached)
  | unknown
  deriving DecidableEq, Repr

structure Argument where
  text : String
  form : Form
  deriving DecidableEq, Repr

def flagNamed? (name : List Char) : Option Flag :=
  Flag.spellings.lookup (String.ofList name)

def isShort (name : List Char) : Bool :=
  name.length = 2

/-- A number with a minus sign. One line feed may follow it. -/
def isNegativeNumber (s : List Char) : Bool :=
  let body := if s.getLast? = some '\n' then s.dropLast.tail else s.tail
  let fraction := body.dropWhile Text.isDecimalDigit
  s.head? = some '-' &&
    match fraction with
    | [] => body ≠ []
    | '.' :: digits => digits ≠ [] && digits.all Text.isDecimalDigit
    | _ => false

/-- The spellings that begin like a long option; what follows an equals sign is its value. -/
def longCandidates (s : List Char) : List (String × Form) :=
  let name := s.takeWhile (· ≠ '=')
  let attached := if '=' ∈ s then some ⟨true, s.drop (name.length + 1)⟩ else none
  (Flag.spellings.filter fun o => name.isPrefixOf o.1.toList).map fun o =>
    (o.1, .option o.2 (isShort o.1.toList) attached)

/-- A short option with its value attached, or with more short options. -/
def shortCandidates (s : List Char) : List (String × Form) :=
  (Flag.spellings.filter fun o => o.1.toList = s.take 2).map fun o =>
    (o.1, .option o.2 true (some ⟨false, s.drop 2⟩))

def candidates (s : List Char) : List (String × Form) :=
  if s.take 2 = ['-', '-'] then longCandidates s else shortCandidates s

def formOf (text : String) : Except UsageError Form :=
  let s := text.toList
  let name := s.takeWhile (· ≠ '=')
  if s.head? ≠ some '-' ∨ s = ['-'] then .ok .word
  else
    match flagNamed? s, flagNamed? name with
    | some f, _ => .ok (.option f (isShort s) none)
    | none, some f => .ok (.option f (isShort name) (some ⟨true, s.drop (name.length + 1)⟩))
    | none, none =>
      match candidates s with
      | [(_, form)] => .ok form
      | [] => .ok (if isNegativeNumber s ∨ ' ' ∈ s then .word else .unknown)
      | cs => .error (.ambiguous text (cs.map Prod.fst))

/-- The forms of all arguments. Behind a separator there are words only. -/
def classifyArguments : List String → Except UsageError (List Argument)
  | [] => .ok []
  | a :: as =>
    if a = "--" then .ok (⟨a, .separator⟩ :: as.map (⟨·, .word⟩))
    else do
      let form ← formOf a
      return ⟨a, form⟩ :: (← classifyArguments as)

end CommentTags.CommandLine

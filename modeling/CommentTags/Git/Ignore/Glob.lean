namespace CommentTags.Git

inductive SetItem where
  | byte (b : UInt8)
  | range (low high : UInt8)
  | named (test : UInt8 → Bool)

def SetItem.holds : SetItem → UInt8 → Bool
  | byte b, c => b = c
  | range low high, c => low ≤ c && c ≤ high
  | named test, c => test c

inductive GlobToken where
  | byte (b : UInt8)
  | any
  /-- A byte in the set, or not in it, but never a slash. -/
  | set (negated : Bool) (items : List SetItem)
  /-- Any bytes up to the next slash. -/
  | run
  | everything
  /-- Nothing, or any bytes up to a slash and that slash. -/
  | directories
  /-- What is malformed matches nothing. -/
  | never

abbrev Glob := List GlobToken

def slash : UInt8 := 47

namespace GlobToken

def suffixes : List UInt8 → List (List UInt8)
  | [] => [[]]
  | c :: t => (c :: t) :: suffixes t

def suffixesBeforeSlash : List UInt8 → List (List UInt8)
  | [] => [[]]
  | c :: t => (c :: t) :: if c = slash then [] else suffixesBeforeSlash t

def suffixesAfterSlash : List UInt8 → List (List UInt8)
  | [] => []
  | c :: t => if c = slash then t :: suffixesAfterSlash t else suffixesAfterSlash t

def inSet (negated : Bool) (items : List SetItem) (c : UInt8) : Bool :=
  c ≠ slash && (items.any fun i => i.holds c) ≠ negated

/-- What may remain of a text behind a token. -/
def rests : GlobToken → List UInt8 → List (List UInt8)
  | byte b, c :: t => if b = c then [t] else []
  | any, c :: t => if c = slash then [] else [t]
  | set negated items, c :: t => if inSet negated items c then [t] else []
  | byte _, [] | any, [] | set .., [] => []
  | run, t => suffixesBeforeSlash t
  | everything, t => suffixes t
  | directories, t => t :: suffixesAfterSlash t
  | never, _ => []

end GlobToken

def Glob.matchesText : Glob → List UInt8 → Bool
  | [], t => t.isEmpty
  | token :: g, t => (token.rests t).any (Glob.matchesText g)

namespace Glob

def isUpper (c : UInt8) : Bool := 65 ≤ c && c ≤ 90
def isLower (c : UInt8) : Bool := 97 ≤ c && c ≤ 122
def isDigit (c : UInt8) : Bool := 48 ≤ c && c ≤ 57
def isAlnum (c : UInt8) : Bool := isUpper c || isLower c || isDigit c
def isGraph (c : UInt8) : Bool := 33 ≤ c && c ≤ 126

def namedClasses : List (String × (UInt8 → Bool)) := [
  ("alnum", isAlnum), ("alpha", fun c => isUpper c || isLower c),
  ("blank", fun c => c = 32 || c = 9), ("cntrl", fun c => c < 32 || c = 127), ("digit", isDigit),
  ("graph", isGraph), ("lower", isLower), ("print", fun c => c = 32 || isGraph c),
  ("punct", fun c => isGraph c && !isAlnum c), ("space", fun c => c = 32 || (9 ≤ c && c ≤ 13)),
  ("upper", isUpper),
  ("xdigit", fun c => isDigit c || (65 ≤ c && c ≤ 70) || (97 ≤ c && c ≤ 102))]

def namedClass? (name : List UInt8) : Option (UInt8 → Bool) :=
  namedClasses.lookup (String.ofList (name.map fun b => Char.ofNat b.toNat))

/-- The first item of a set, the byte that a `-` after it would make the start of a range, and what
follows. -/
def setItem? (previous : Option UInt8) :
    List UInt8 → Option (SetItem × Option UInt8 × List UInt8)
  | [] | [92] => none
  | 92 :: b :: rest => some (.byte b, some b, rest)
  | 45 :: b :: rest =>
    match previous, b, rest with
    | none, _, _ | _, 93, _ => some (.byte 45, some 45, b :: rest)
    | some _, 92, [] => none
    | some low, 92, high :: rest => some (.range low high, none, rest)
    | some low, high, rest => some (.range low high, none, rest)
  | 91 :: 58 :: rest =>
    let name := rest.takeWhile (· ≠ 93)
    if 93 ∉ rest then none
    else if name.getLast? = some 58 then
      (namedClass? name.dropLast).map fun test =>
        (.named test, none, (rest.dropWhile (· ≠ 93)).tail)
    else some (.byte 91, some 91, 58 :: rest)
  | b :: rest => some (.byte b, some b, rest)

/-- The items of a set up to its closing bracket, and what follows that. A bracket that comes first
is an item. Each item takes a byte at least, so the number of bytes is fuel enough. -/
def setItems (first : Bool) (previous : Option UInt8) (s : List UInt8) :
    (fuel : Nat) → Option (List SetItem × List UInt8)
  | 0 => none
  | fuel + 1 =>
    if s.head? = some 93 ∧ !first then some ([], s.tail)
    else
      (setItem? previous s).bind fun (item, previous, rest) =>
        (setItems false previous rest fuel).map fun r => (item :: r.1, r.2)

/-- A set, given the text behind its opening bracket, and what follows it. -/
def parseSet (s : List UInt8) : Option (GlobToken × List UInt8) :=
  let negated := s.head? = some 33 ∨ s.head? = some 94
  let body := if negated then s.tail else s
  (setItems true none body (body.length + 1)).map fun r => (.set negated r.1, r.2)

/-- The token at the beginning of a pattern and what follows it. Two or more stars between slashes
match across slashes; elsewhere they are one star. In a pattern without slashes no slash is special.
-/
def nextToken (pathname afterSlash : Bool) : List UInt8 → Option (GlobToken × List UInt8)
  | [] => none
  | 92 :: b :: rest => some (.byte b, rest)
  | [92] => some (.never, [])
  | 63 :: rest => some (.any, rest)
  | 42 :: 42 :: rest =>
    let rest := rest.dropWhile (· = 42)
    if !pathname then some (.everything, rest)
    else if !afterSlash then some (.run, rest)
    else
      match rest with
      | [] => some (.everything, [])
      | 47 :: rest => some (.directories, rest)
      | 92 :: 47 :: rest => some (.everything, 92 :: 47 :: rest)
      | rest => some (.run, rest)
  | 42 :: rest => some (if pathname then .run else .everything, rest)
  | 91 :: rest => (parseSet rest).orElse fun _ => some (.never, [])
  | b :: rest => some (.byte b, rest)

def endsWithSlash : GlobToken → Bool
  | .byte b => b = slash
  | .directories => true
  | _ => false

def parseTokens (pathname afterSlash : Bool) (s : List UInt8) : (fuel : Nat) → Glob
  | 0 => []
  | fuel + 1 =>
    match nextToken pathname afterSlash s with
    | none => []
    | some (token, rest) => token :: parseTokens pathname (endsWithSlash token) rest fuel

/-- Read a pattern. If `pathname` is set, wildcards stop at slashes. Each token takes a byte at
least. -/
def parse (pathname : Bool) (s : List UInt8) : Glob :=
  parseTokens pathname true s (s.length + 1)

end Glob

end CommentTags.Git

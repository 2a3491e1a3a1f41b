import CommentTags.CommandLine.Flag

namespace CommentTags.CommandLine

structure Settings where
  paths : List String
  levels : List Level
  /-- The keyword of the only kind to show. -/
  tag : Option String
  noIgnore : Bool
  noBlame : Bool
  json : Bool
  verbose : Bool
  deriving DecidableEq, Repr

def Settings.initial : Settings := ⟨[], [], none, false, false, false, false⟩

inductive Stop where
  | help
  | usage (error : UsageError)
  deriving DecidableEq, Repr

/-- An option taken by itself: a flag and the value that it has so far. -/
abbrev Use := Flag × Option String

/-- Take apart an option with its attached value. Behind a short option without a value there may
be more of them; what is no option is returned as it stands. -/
def takeApart (flag : Flag) (short equals : Bool) (value : List Char) :
    Except UsageError (List Use × Option String) :=
  if flag.takesValue then .ok ([(flag, some (.ofList value))], none)
  else if !short || equals then .error (.valueIgnored flag (.ofList value))
  else
    match value with
    | [] => .error (.valueIgnored flag "")
    | '-' :: rest => .error (.valueIgnored flag (.ofList ('-' :: rest)))
    | c :: rest =>
      match flagNamed? ['-', c], rest with
      | none, rest => .ok ([(flag, none)], some (.ofList ('-' :: c :: rest)))
      | some next, [] => .ok ([(flag, none), (next, none)], none)
      | some next, '=' :: rest =>
        (takeApart next true true rest).map fun r => ((flag, none) :: r.1, r.2)
      | some next, d :: rest =>
        (takeApart next true false (d :: rest)).map fun r => ((flag, none) :: r.1, r.2)
termination_by value.length

def usesOf (flag : Flag) (short : Bool) :
    Option Attached → Except UsageError (List Use × Option String)
  | none => .ok ([(flag, none)], none)
  | some a => takeApart flag short a.equals a.value

def openFlag? (uses : List Use) : Option Flag :=
  match uses.getLast? with
  | some (f, none) => if f.takesValue then some f else none
  | _ => none

def Settings.apply (s : Settings) : Use → Except Stop Settings
  | (.help, _) => .error .help
  | (.levels, v) =>
    match Level.ofText (v.getD "") with
    | .ok l => .ok { s with levels := s.levels ++ [l] }
    | .error e => .error (.usage (.badLevel .levels e))
  | (.tag, v) => .ok { s with tag := v }
  | (.noIgnore, _) => .ok { s with noIgnore := true }
  | (.noBlame, _) => .ok { s with noBlame := true }
  | (.json, _) => .ok { s with json := true }
  | (.verbose, _) => .ok { s with verbose := true }

structure State where
  settings : Settings
  /-- The one group of paths has been read. -/
  pathsRead : Bool
  extras : List String
  deriving DecidableEq, Repr

namespace State

def initial : State := ⟨.initial, false, []⟩

def use (st : State) (uses : List Use) : Except Stop State := do
  return { st with settings := ← uses.foldlM Settings.apply st.settings }

/-- Read a group of words. The first separator is dropped from a group of paths. -/
def readWords (st : State) (words : List String) : State :=
  if st.pathsRead then { st with extras := st.extras ++ words }
  else
    { st with settings := { st.settings with paths := words.erase "--" }, pathsRead := true }

end State

def isWord (a : Argument) : Bool :=
  a.form = .word || a.form = .separator

/-- Work off arguments: options with the values behind them, and groups of words. -/
def readArguments (st : State) (words : List String) : List Argument → Except Stop State
  | [] => .ok (if words = [] then st else st.readWords words)
  | a :: as =>
    if isWord a then readArguments st (words ++ [a.text]) as
    else
      let st := if words = [] then st else st.readWords words
      match a.form with
      | .option flag short attached =>
        match usesOf flag short attached with
        | .error e => .error (.usage e)
        | .ok (uses, stray) =>
          let st := { st with extras := st.extras ++ stray.toList }
          match openFlag? uses, as with
          | none, as =>
            match st.use uses with
            | .error e => .error e
            | .ok st => readArguments st [] as
          | some f, [] => .error (.usage (.valueMissing f))
          | some f, b :: as =>
            if b.form = .word then
              match st.use (uses.dropLast ++ [(f, some b.text)]) with
              | .error e => .error e
              | .ok st => readArguments st [] as
            else .error (.usage (.valueMissing f))
      | _ => readArguments { st with extras := st.extras ++ [a.text] } [] as

/-- Read all arguments. What nothing takes is an error once everything else is right. -/
def parse (arguments : List String) : Except Stop Settings := do
  let as ← (classifyArguments arguments).mapError .usage
  let st ← readArguments .initial [] as
  if st.extras = [] then return st.settings else .error (.usage (.unrecognized st.extras))

end CommentTags.CommandLine

import CommentTags.Files.FileSystem

namespace CommentTags

inductive ResolveStep where
  | enter (name : String)
  /-- The target of the link at this location has been used up. -/
  | leave (link : Location)
  deriving DecidableEq, Repr

inductive Resolution where
  | resolved (loc : Location)
  /-- A name does not exist or has a null byte, or a link leads back to itself. -/
  | stuck (loc : Location) (rest : List String)
  deriving DecidableEq, Repr

def ResolveStep.name? : ResolveStep → Option String
  | enter name => some name
  | leave _ => none

def normalise (names : List String) : Location :=
  names.foldl (fun loc name =>
    if name = ".." then loc.dropLast else if name = "." then loc else loc ++ [name]) []

namespace FileSystem

/-- Resolve step by step. `links` holds the links that have been entered, with what they lead to
once that is known; each link is entered once, and `fuel` bounds their number. If `strict` is set,
every name has to exist. -/
def resolveFrom (fs : FileSystem) (strict : Bool) (fuel : Nat)
    (links : List (Location × Option Location)) (loc : Location) :
    List ResolveStep → Resolution
  | [] => .resolved loc
  | .leave link :: steps => resolveFrom fs strict fuel ((link, some loc) :: links) loc steps
  | .enter name :: steps =>
    if name = "." then resolveFrom fs strict fuel links loc steps
    else if name = ".." then resolveFrom fs strict fuel links loc.dropLast steps
    else
      let next := loc ++ [name]
      match hasNul name with
      | true => .stuck next (steps.filterMap ResolveStep.name?)
      | false =>
        match fs.root.reach? next with
        | some (.link target) =>
          match links.lookup next with
          | some (some known) => resolveFrom fs strict fuel links known steps
          | some none => .stuck next (steps.filterMap ResolveStep.name?)
          | none =>
            match fuel with
            | 0 => .stuck next (steps.filterMap ResolveStep.name?)
            | fuel + 1 =>
              resolveFrom fs strict fuel ((next, none) :: links) (linkStart target loc)
                ((linkNames target).map .enter ++ .leave next :: steps)
        | some _ => resolveFrom fs strict fuel links next steps
        | none =>
          if strict then .stuck next (steps.filterMap ResolveStep.name?)
          else resolveFrom fs strict fuel links next steps
termination_by steps => (fuel, steps.length)

def resolution (fs : FileSystem) (strict : Bool) (p : Path) : Resolution :=
  fs.resolveFrom strict fs.root.size [] (fs.start p) (p.names.map .enter)

def endsInNul (loc : Location) : Bool :=
  loc.getLast?.any hasNul

/-- The location of a path all of whose names exist. It is an error to come to a null byte. -/
def resolveStrict? (fs : FileSystem) (p : Path) : Except PathError (Option Location) :=
  match fs.resolution true p with
  | .resolved loc => .ok (some loc)
  | .stuck loc _ =>
    match endsInNul loc with
    | true => .error .nullByte
    | false => .ok none

/-- The location of a path whose last names need not exist. There is none for a path that leads
into a loop of links or comes to a null byte. -/
def resolve? (fs : FileSystem) (p : Path) : Option Location :=
  let checked (loc : Location) : Option Location :=
    match fs.lookup true ⟨.root, loc⟩ with
    | .error .tooManyLinks | .error .nullByte => none
    | _ => some loc
  match fs.resolution false p with
  | .resolved loc => checked loc
  | .stuck loc rest =>
    match endsInNul loc with
    | true => none
    | false => checked (normalise (loc ++ rest))

end FileSystem

end CommentTags

import CommentTags.Files.Node
import CommentTags.Path
import CommentTags.Text.Quoted

namespace CommentTags

/-- A file system as a user sees it. Nothing is found from a current directory that cannot be
reached. -/
structure FileSystem where
  root : Node
  here : Location
  /-- Texts of paths at which no file may be opened. -/
  denied : List String

/-- The most bytes that the system takes for a name. -/
def maxNameBytes : Nat := 255

def isTooLong (name : String) : Bool :=
  maxNameBytes < name.utf8ByteSize

def hasNul (name : String) : Bool :=
  '\x00' ∈ name.toList

def Path.hasNul (p : Path) : Bool :=
  p.names.any CommentTags.hasNul

inductive LookupError where
  | missing
  | notADirectory
  | tooManyLinks
  | nameTooLong
  /-- A directory on the way may not be searched. -/
  | denied
  | nullByte
  deriving DecidableEq, Repr

/-- An error that is raised where one asks what a path is. For other paths that lead nowhere the
answer is no. -/
inductive PathError where
  | nullByte
  | nameTooLong (path : String)
  | denied (path : String)
  deriving DecidableEq, Repr

def PathError.message : PathError → String
  | nullByte => "embedded null byte"
  | nameTooLong path => "[Errno 36] File name too long: " ++ Text.quoted path
  | denied path => "[Errno 13] Permission denied: " ++ Text.quoted path

/-- The names in a symbolic link's target. A slash at its end asks for a directory, like `.`. -/
def linkNames (target : String) : List String :=
  Path.namesOf target.toList ++ if target.toList.getLast? = some '/' then ["."] else []

def linkStart (target : String) (dir : Location) : Location :=
  if target.toList.head? = some '/' then [] else dir

namespace FileSystem

def start (fs : FileSystem) (p : Path) : Location :=
  if p.isAbsolute then [] else fs.here

/-- Follow names from a directory, with at most `links` symbolic links. If `follow` is not set, a
link at the very end is itself what is found. -/
def lookupFrom (fs : FileSystem) (follow : Bool) (links : Nat) (loc : Location) :
    List String → Except LookupError (Location × Node)
  | [] =>
    match fs.root.reach? loc with
    | some node => .ok (loc, node)
    | none => .error .missing
  | name :: names =>
    match fs.root.reach? loc with
    | none => .error .missing
    | some (.file _) | some (.link _) => .error .notADirectory
    | some (.dir entries info) =>
      if !info.searchable then .error .denied
      else if name = "." then lookupFrom fs follow links loc names
      else if name = ".." then lookupFrom fs follow links loc.dropLast names
      else
        match entries.lookup name with
        | none => .error (if isTooLong name then .nameTooLong else .missing)
        | some (.link target) =>
          if names = [] ∧ !follow then .ok (loc ++ [name], .link target)
          else
            match links with
            | 0 => .error .tooManyLinks
            | links + 1 =>
              lookupFrom fs follow links (linkStart target loc) (linkNames target ++ names)
        | some _ => lookupFrom fs follow links (loc ++ [name]) names
termination_by names => (links, names.length)

/-- The most symbolic links that the system follows on one path. -/
def maxLinks : Nat := 40

def lookup (fs : FileSystem) (follow : Bool) (p : Path) : Except LookupError (Location × Node) :=
  match p.hasNul with
  | true => .error .nullByte
  | false => fs.lookupFrom follow maxLinks (fs.start p) p.names

/-- The error, if there is one, of asking what a path is. A null byte is none here. -/
def refusal? (fs : FileSystem) (follow : Bool) (p : Path) : Option PathError :=
  match fs.lookup follow p with
  | .error .denied => some (.denied p.toString)
  | .error .nameTooLong => some (.nameTooLong p.toString)
  | _ => none

def node? (fs : FileSystem) (p : Path) : Option Node :=
  ((fs.lookup true p).toOption).map Prod.snd

def nodeItself? (fs : FileSystem) (p : Path) : Option Node :=
  ((fs.lookup false p).toOption).map Prod.snd

def pathExists (fs : FileSystem) (p : Path) : Bool :=
  (fs.node? p).isSome

def isDir (fs : FileSystem) (p : Path) : Bool :=
  (fs.node? p).any Node.isDir

def isFile (fs : FileSystem) (p : Path) : Bool :=
  (fs.node? p).any Node.isFile

def isLink (fs : FileSystem) (p : Path) : Bool :=
  (fs.nodeItself? p).any Node.isLink

/-- A regular file that is not reached through a link in its last place. -/
def isPlainFile (fs : FileSystem) (p : Path) : Bool :=
  fs.isFile p && !fs.isLink p

def content? (fs : FileSystem) (p : Path) : Option (List UInt8) :=
  match fs.node? p with
  | some (.file content) => some content
  | _ => none

end FileSystem

end CommentTags

import CommentTags.Files.Resolve
import CommentTags.Git.Blame
import CommentTags.Git.Ignore.Check
import CommentTags.Notice

namespace CommentTags.Git

inductive StoreFault where
  | key (k : String)
  | value (text : String)
  | index (text : String)
  | store (text : String)
  | device
  deriving DecidableEq, Repr

def StoreFault.message : StoreFault → String
  | key k => Text.quoted k
  | value s | index s | store s => s
  | device => ReadError.device.message

/-- For a line number, the commit that last changed that line; `none` if what the line points to is
no commit. -/
abbrev Blame := Int → Except StoreFault (Option Commit)

/-- What a repository can be asked. Its files are named by the names that lead to them from the top
of the work tree; a bare repository has no work tree. -/
structure Repository where
  workTree : Option Location
  ignores : List String → Except StoreFault Bool
  blame : List String → Except StoreFault Blame

def relativeText (names : List String) : String :=
  if names = [] then "." else "/".intercalate names

structure Handle where
  gitDir : Location
  workTree : Option Location
  deriving DecidableEq, Repr

section

variable (fs : FileSystem)

def isGitDir (loc : Location) : Bool :=
  fs.isFile ⟨.root, loc ++ ["HEAD"]⟩ && fs.isDir ⟨.root, loc ++ ["objects"]⟩ &&
    fs.isDir ⟨.root, loc ++ ["refs"]⟩

def historyAt (gitDir : Location) : History :=
  ((fs.node? ⟨.root, gitDir⟩).bind fun n => n.info.history).getD .empty

/-- Open the repository whose work tree or whose own directory this is. -/
def openAt? (loc : Location) : Option Handle :=
  let opened (gitDir workTree : Location) : Handle :=
    match (historyAt fs gitDir).bare with
    | true => ⟨gitDir, none⟩
    | false => ⟨gitDir, some workTree⟩
  match isGitDir fs (loc ++ [".git"]), isGitDir fs loc with
  | true, _ => some (opened (loc ++ [".git"]) loc)
  | false, true => some (opened loc loc.dropLast)
  | false, false => none

/-- The first repository that a directory or one of its parents opens. The location is given
backwards. -/
def openAbove? : (backwards : List String) → Option Handle
  | [] => openAt? fs []
  | name :: above => (openAt? fs (name :: above).reverse).or (openAbove? above)

/-- Open the repository that encloses a path. There is nothing to say about a path that does not
exist. -/
def findRepository (path : String) : Except PathError (Option Handle) × List Notice :=
  match fs.resolveStrict? (.ofString path) with
  | .error e => (.error e, [])
  | .ok none => (.ok none, [])
  | .ok (some loc) =>
    match openAbove? fs loc.reverse with
    | some h => (.ok (some h), [])
    | none => (.ok none, [.noRepository path])

def blameOf (owners : List Commit) : Blame := fun line =>
  match line with
  | .ofNat (n + 1) =>
    match owners[n]? with
    | some c => .ok (some c)
    | none => .error (.index "no such line")
  | _ => .error (.index "no such line")

/-- The repository behind a handle, as the file system has it now. What the store says of a missing
history or line is not in its own words. -/
def Handle.connect (h : Handle) : Repository where
  workTree := h.workTree
  ignores names := .ok ((h.workTree.map fun w => isIgnored fs w h.gitDir names).getD false)
  blame names :=
    match blameLines? (historyAt fs h.gitDir) (relativeText names) with
    | some owners => .ok (blameOf owners)
    | none => .error (.store "no history")

end

end CommentTags.Git

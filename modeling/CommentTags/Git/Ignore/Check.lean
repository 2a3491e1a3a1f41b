import CommentTags.Files.FileSystem
import CommentTags.Git.Ignore.Rule

namespace CommentTags.Git

structure IgnoreFile where
  base : List String
  rules : List IgnoreRule

def joinNames (names : List String) : List UInt8 :=
  ("/".intercalate names).toUTF8.toList

def namesBelow? (base names : List String) : Option (List String) :=
  if base.isPrefixOf names then some (names.drop base.length) else none

def IgnoreRule.appliesTo (r : IgnoreRule) (isDir : Bool) (names : List String) : Bool :=
  (isDir || !r.directoryOnly) &&
    r.glob.matchesText (joinNames (if r.anchored then names else names.getLast?.toList))

/-- What a file says about a path: ignored, kept, or nothing. -/
def IgnoreFile.verdict? (f : IgnoreFile) (isDir : Bool) (names : List String) : Option Bool :=
  match namesBelow? f.base names with
  | none | some [] => none
  | some below => (f.rules.reverse.find? fun r => r.appliesTo isDir below).map fun r => !r.negated

def isReserved (names : List String) : Bool :=
  names.getLast?.getD "." ∈ [".", "..", ".git"]

def verdictAt? (files : List IgnoreFile) (isDir : Bool) (names : List String) : Option Bool :=
  if isReserved names then some true else files.findSome? fun f => f.verdict? isDir names

/-- The verdict on a path, or else on the nearest parent directory that has one. `backwards` is the
path from its last name to its first. -/
def decide? (files : List IgnoreFile) (isDir : Bool) : (backwards : List String) → Option Bool
  | [] => none
  | name :: above =>
    (verdictAt? files isDir (name :: above).reverse).or (decide? files true above)

namespace IgnoreFile

def load (fs : FileSystem) (base : List String) (loc : Location) : IgnoreFile :=
  ⟨base, IgnoreRule.ofFile ((fs.content? ⟨.root, loc⟩).getD [])⟩

end IgnoreFile

def parentsOf (names : List String) : List (List String) :=
  (List.range names.length).reverse.map names.take

/-- The ignore files that matter for a path: those in the directories above it, and the one in the
repository itself. -/
def ignoreFiles (fs : FileSystem) (workTree gitDir : Location) (names : List String) :
    List IgnoreFile :=
  (parentsOf names).map (fun base => .load fs base (workTree ++ base ++ [".gitignore"])) ++
    [.load fs [] (gitDir ++ ["info", "exclude"])]

def isIgnored (fs : FileSystem) (workTree gitDir : Location) (names : List String) : Bool :=
  let isDir := fs.isDir ⟨.root, workTree ++ names⟩
  (decide? (ignoreFiles fs workTree gitDir names) isDir
    (if names = [] then ["."] else names.reverse)).getD false

end CommentTags.Git

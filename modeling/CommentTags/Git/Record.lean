import CommentTags.Files.Edit
import CommentTags.Git.Repository
import CommentTags.Text.Utf8

namespace CommentTags.Git

def freshEntries (bare : Bool) : List (String × Node) :=
  let text (s : String) : Node := .file s.toUTF8.toList
  let folder (es : List (String × Node)) : Node := .dir es {}
  [("HEAD", text "ref: refs/heads/master\n"),
    ("config", text ("[core]\n\tbare = " ++ (if bare then "true" else "false") ++ "\n")),
    ("description", text "Unnamed repository\n"),
    ("hooks", folder [("README.sample", text "#!/bin/sh\n")]),
    ("info", folder [("exclude", text "# Files to leave out\n")]),
    ("objects", folder [("info", .emptyDir), ("pack", .emptyDir)]),
    ("refs", folder [("heads", .emptyDir), ("tags", .emptyDir)])]

def init (fs : FileSystem) (p : Path) (bare : Bool) : FileSystem :=
  let fs := fs.makeDir p
  let top := fs.targetOf p
  let gitDir := if bare then top else top ++ [".git"]
  if isGitDir fs gitDir then fs
  else
    let old := (fs.root.get? gitDir).getD .emptyDir
    let entries := (freshEntries bare).foldl (fun es e => Node.setEntry e.1 e.2 es) old.entries
    fs.put gitDir (.dir entries { old.info with history := some ⟨bare, []⟩ })

/-- Characters that are dropped at the ends of an author's name. -/
def isNameEdge (c : Char) : Bool :=
  c.toNat ≤ 32 || c ∈ ['.', ',', ':', ';', '<', '>', '"', '\\', '\'']

def readName (bytes : List UInt8) : String :=
  let s := (Text.Utf8.decodeLossy bytes).dropWhile isNameEdge
  String.ofList (s.reverse.dropWhile isNameEdge).reverse

/-- An offset as it is read back from a commit: one of 15 hours or more counts as none. -/
def readOffset (minutes : Int) : Int :=
  if minutes.natAbs / 60 ≤ 14 then minutes else 0

/-- A change to one file; no content means that the file goes. -/
abbrev Change := Path × Option (List UInt8)

def applyToTree (files : List (String × List UInt8)) (c : Change) : List (String × List UInt8) :=
  let path := c.1.toString
  match c.2 with
  | none => files.filter fun f => f.1 ≠ path
  | some content =>
    if (files.lookup path).isSome then files.map fun f => if f.1 = path then (path, content) else f
    else files ++ [(path, content)]

def applyToDisk (top : Path) (fs : FileSystem) (c : Change) : FileSystem :=
  let p : Path := { top with names := top.names ++ c.1.names }
  match c.2 with
  | none => fs.remove p
  | some content => fs.write p content

def commit (fs : FileSystem) (repo : Path) (changes : List Change) (author : List UInt8)
    (seconds offset : Int) : FileSystem :=
  let fs := changes.foldl (applyToDisk repo) fs
  match openAt? fs (fs.targetOf repo) with
  | none => fs
  | some h =>
    let history := historyAt fs h.gitDir
    let files := changes.foldl applyToTree history.headFiles
    let added := history.add ⟨seconds, readOffset offset, readName author, files⟩
    let old := (fs.root.get? h.gitDir).getD .emptyDir
    fs.put h.gitDir (.dir old.entries { old.info with history := some added })

end CommentTags.Git

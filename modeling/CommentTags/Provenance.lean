import CommentTags.Git.Repository
import CommentTags.Tag.Basic
import CommentTags.Text.Cells.FitWidth

namespace CommentTags

open Git (Repository StoreFault Blame)

/-- What ends a search, or the writing of what it finds. -/
inductive SearchError where
  | store (fault : StoreFault)
  | time (error : Time.TimeError)
  | path (error : PathError)
  | heading (error : Text.Cells.CutError)
  deriving DecidableEq, Repr

def SearchError.message : SearchError → String
  | store f => f.message
  | time e => e.message
  | path e => e.message
  | heading e => e.message

namespace Git.Repository

/-- The names that lead to a path from the top of the work tree, links resolved. There are none if
the path lies outside. -/
def relativeNames? (fs : FileSystem) (r : Repository) (p : Path) : Option (List String) := do
  let workTree ← r.workTree
  let loc ← fs.resolve? (.ofString (Path.withoutLeadingDot p.toString))
  let top ← fs.resolve? ⟨.root, workTree⟩
  Git.namesBelow? top loc

def leavesOut (fs : FileSystem) (r : Repository) (p : Path) : Except StoreFault Bool :=
  match r.relativeNames? fs p with
  | none => .ok false
  | some names =>
    match r.ignores names with
    | .error (.store _) => .ok false
    | verdict => verdict

/-- The blame of a file. Where there is none a notice says so, unless the file lies outside. -/
def fileBlame (fs : FileSystem) (r : Repository) (p : Path) :
    Except StoreFault (Option Blame) × List Notice :=
  match r.relativeNames? fs p with
  | none => (.ok none, [])
  | some names =>
    match r.blame names with
    | .ok b => (.ok (some b), [])
    | .error .device => (.error .device, [])
    | .error f => (.ok none, [.blameFailed (Git.relativeText names) f.message])

end Git.Repository

def Git.Commit.provenance (c : Git.Commit) : Except Time.TimeError (Option Provenance) :=
  if c.author = "" then .ok none
  else (Time.Moment.make c.seconds c.offset).map fun time => some ⟨time, c.author⟩

def lineProvenance (b : Blame) (line : Int) : Except SearchError (Option Provenance) :=
  match b line with
  | .error .device => .error (.store .device)
  | .error _ | .ok none => .ok none
  | .ok (some c) =>
    match c.provenance with
    | .ok p => .ok p
    | .error e => .error (.time e)

def provenanceOf (fs : FileSystem) (r : Repository) (p : Path) (line : Int) :
    Except SearchError (Option Provenance) × List Notice :=
  match r.fileBlame fs p with
  | (.error f, notices) => (.error (.store f), notices)
  | (.ok none, notices) => (.ok none, notices)
  | (.ok (some b), notices) => (lineProvenance b line, notices)

end CommentTags

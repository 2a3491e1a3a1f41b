import CommentTags.Provenance
import CommentTags.Scan.Scanner

namespace CommentTags.Search

structure Options where
  /-- Leave out what the repository ignores. -/
  ignore : Bool
  blame : Bool
  deriving DecidableEq, Repr

def Options.default : Options := ⟨true, true⟩

def Options.withoutRepository : Options := ⟨false, false⟩

def Options.usesGit (o : Options) : Bool := o.ignore || o.blame

/-- One thing that a search comes up with. A failure ends it. -/
inductive Event where
  | tag (t : Tag)
  | notice (n : Notice)
  | failed (e : SearchError)
  deriving DecidableEq

variable (fs : FileSystem)

def scanFile (g : Grammar) (p : Path) : List Tag × Option ReadError :=
  if p.toString ∈ fs.denied then ([], some (.denied p.toString))
  else
    let r := (Scanner.start g p (Readings.ofBytes ((fs.content? p).getD []))).collect
    (r.1, r.2.1)

def endEvents (p : Path) : Option ReadError → List Event
  | none => []
  | some e => [.notice (.unreadable p.toString e.message)]

/-- The event for a failed lookup. A failing device is the file's own matter and no more, and so is
a time that the system itself refuses to convert. -/
def failureEvent (p : Path) : SearchError → Event
  | .store .device => .notice (.unreadable p.toString ReadError.device.message)
  | .time .yearTooLarge => .notice (.unreadable p.toString Time.TimeError.yearTooLarge.message)
  | e => .failed e

/-- Put the provenance of its line on each tag. Nothing comes after a failure. -/
def blamedEvents (p : Path) (b : Git.Blame) (ending : List Event) : List Tag → List Event
  | [] => ending
  | t :: ts =>
    match lineProvenance b t.line with
    | .error e => [failureEvent p e]
    | .ok provenance => .tag { t with provenance } :: blamedEvents p b ending ts

/-- The events of a scanned file. The file is blamed once, and only if it has a tag. -/
def tagEvents (p : Path) (repo : Option Git.Repository) (ts : List Tag) (ending : List Event) :
    List Event :=
  match repo, ts with
  | none, _ | _, [] => ts.map .tag ++ ending
  | some r, ts =>
    match r.fileBlame fs p with
    | (.error f, notices) => notices.map .notice ++ [failureEvent p (.store f)]
    | (.ok none, notices) => notices.map .notice ++ ts.map .tag ++ ending
    | (.ok (some b), notices) => notices.map .notice ++ blamedEvents p b ending ts

def sourceEvents (g : Grammar) (p : Path) (repo : Option Git.Repository) : List Event :=
  let r := scanFile fs g p
  tagEvents fs p repo r.1 (endEvents p r.2)

def passesOver (o : Options) (repo : Option Git.Repository) (p : Path) :
    Except Git.StoreFault Bool :=
  match o.ignore, repo with
  | true, some r => r.leavesOut fs p
  | _, _ => .ok false

def fileEvents (o : Options) (repo : Option Git.Repository) (p : Path) : List Event :=
  match passesOver fs o repo p with
  | .error f => [.failed (.store f)]
  | .ok true => [.notice (.skippedIgnored p.toString)]
  | .ok false =>
    match Grammar.ofPath? p with
    | none => []
    | some g => sourceEvents fs g p (if o.blame then repo else none)

end CommentTags.Search

import CommentTags.CommandLine.Help
import CommentTags.CommandLine.Parse
import CommentTags.Report.Columns
import CommentTags.Report.Json
import CommentTags.Report.Tabs
import CommentTags.Search.Cursor

namespace CommentTags.CommandLine

open Search (Event Options Results)

structure Outcome where
  code : Nat
  output : String
  errors : String
  deriving DecidableEq, Repr

namespace Settings

def searchOptions (s : Settings) : Options :=
  ⟨!s.noIgnore, !s.noBlame⟩

def shownLevels (s : Settings) : List Level :=
  if s.levels = [] then [.fix, .improvement] else s.levels

/-- The only kind to show. An empty keyword stands for all kinds. -/
def shownKind? (s : Settings) : Option Kind :=
  (s.tag.filter (· ≠ "")).map Kind.ofKeyword

def shows (s : Settings) (t : Tag) : Bool :=
  t.level ∈ s.shownLevels && s.shownKind?.all (t.kind = ·)

def roots (s : Settings) : List Path :=
  if s.paths = [] then [.ofString "."] else s.paths.map .ofString

def logs (s : Settings) (n : Notice) : Bool :=
  s.verbose || n.severity = .warning

end Settings

/-- The events before the tag with a given number, counted from zero, and whether there is such a
tag. -/
def eventsBefore : Nat → List Event → List Event × Bool
  | _, [] => ([], false)
  | 0, .tag _ :: _ => ([], true)
  | n + 1, .tag t :: es => let r := eventsBefore n es; (.tag t :: r.1, r.2)
  | n, .notice m :: es => let r := eventsBefore n es; (.notice m :: r.1, r.2)
  | _, .failed e :: _ => ([.failed e], false)

def outputLine (zone : Int) (t : Tag) : Except SearchError (List Char) :=
  match Report.styledLine zone Report.headingWidth t with
  | .ok s => .ok (Report.expandTabs s.plain ++ ['\n'])
  | .error (.heading e) => .error (.heading e)
  | .error (.time e) => .error (.time e)

/-- The output in lines of text. It ends with the first tag that cannot be shown. -/
def textOutput (zone : Int) (shows : Tag → Bool) : List Event → Except SearchError (List Char)
  | [] => .ok []
  | .tag t :: es => do
    if shows t then return (← outputLine zone t) ++ (← textOutput zone shows es)
    else textOutput zone shows es
  | .notice _ :: es => textOutput zone shows es
  | .failed e :: _ => .error e

/-- The output as one JSON document. It is written only when the search is over. -/
def jsonOutput (shows : Tag → Bool) (interrupted : Bool) (es : List Event) :
    Except SearchError (List Char) :=
  let r := Results.ofEvents es
  match r.failure with
  | some e => .error e
  | none =>
    .ok (if interrupted then [] else (Report.tagsJson (r.tags.filter shows)).toList ++ ['\n'])

def errorLine (message : String) : String :=
  "tagscan: error: " ++ message ++ "\n"

def logText (s : Settings) (es : List Event) : String :=
  String.join (((Results.ofEvents es).notices.filter s.logs).map fun n => n.text ++ "\n")

/-- Search and write. An interrupt may come in the place of the tag with a given number. -/
def searchAndWrite (fs : FileSystem) (zone : Int) (s : Settings) (interrupt : Option Nat) :
    Except SearchError Outcome := do
  let all := Search.run fs s.searchOptions (s.roots.map Path.toString)
  let (es, interrupted) := (interrupt.map (eventsBefore · all)).getD (all, false)
  let output ←
    if s.json then jsonOutput s.shows interrupted es else textOutput zone s.shows es
  return ⟨if interrupted then 130 else 0, .ofList output,
    logText s es ++ if interrupted then "\ntagscan: interrupted by user\n" else ""⟩

/-- Run the command. `zone` is the user's offset from UTC in minutes. -/
def run (fs : FileSystem) (zone : Int) (arguments : List String) (interrupt : Option Nat) :
    Except SearchError Outcome :=
  match parse arguments with
  | .error .help => .ok ⟨0, helpText, ""⟩
  | .error (.usage e) => .ok ⟨2, "", usageText ++ errorLine e.message⟩
  | .ok s =>
    match s.roots.find? fun p => !fs.pathExists p with
    | some p =>
      match fs.refusal? true p with
      | some e => .error (.path e)
      | none => .ok ⟨1, "", errorLine ("path does not exist: " ++ p.toString)⟩
    | none => searchAndWrite fs zone s interrupt

end CommentTags.CommandLine

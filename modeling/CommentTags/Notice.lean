import CommentTags.Scan.ReadError

namespace CommentTags

/-- What a search has to say besides its tags. -/
inductive Notice where
  | noRepository (path : String)
  | blameFailed (path : String) (reason : String)
  | skippedIgnored (path : String)
  | unreadable (path : String) (reason : String)
  deriving DecidableEq, Repr

inductive Severity where
  | debug
  | warning
  deriving DecidableEq, Repr

namespace Notice

def severity : Notice → Severity
  | noRepository _ | blameFailed .. | skippedIgnored _ => .debug
  | unreadable .. => .warning

def topic : Notice → String
  | noRepository _ | blameFailed .. => "tagscan.blame"
  | skippedIgnored _ | unreadable .. => "tagscan.searching"

def message : Notice → String
  | noRepository p => "No git repository found above " ++ p
  | blameFailed p reason => "Blame failed for " ++ p ++ ": " ++ reason
  | skippedIgnored p => "Skipping ignored file " ++ p
  | unreadable p reason => "Failed to read " ++ p ++ ": " ++ reason

def text (n : Notice) : String :=
  (match n.severity with | .debug => "DEBUG " | .warning => "WARNING ") ++ n.topic ++ ": " ++
    n.message

end Notice

end CommentTags

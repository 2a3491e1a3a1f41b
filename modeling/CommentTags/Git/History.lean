namespace CommentTags.Git

structure Commit where
  /-- When it was committed, in seconds since 1970. -/
  seconds : Int
  /-- The committer's offset from UTC in minutes. -/
  offset : Int
  author : String
  /-- Contents by path from the top of the work tree. -/
  files : List (String × List UInt8)
  deriving DecidableEq, Repr

structure History where
  bare : Bool
  /-- The newest commit comes first. -/
  commits : List Commit
  deriving DecidableEq, Repr

namespace History

def empty : History := ⟨false, []⟩

def head? (h : History) : Option Commit :=
  h.commits.head?

def headFiles (h : History) : List (String × List UInt8) :=
  (h.head?.map Commit.files).getD []

def add (h : History) (c : Commit) : History :=
  { h with commits := c :: h.commits }

end History

end CommentTags.Git

import CommentTags.Marker.Leftmost

namespace CommentTags.Marker

structure CommentMatch where
  keyword : List Char
  message : List Char
  deriving DecidableEq, Repr

def isKeywordChar (c : Char) : Bool :=
  c = '!' || c = '_' || c.isAlphanum

/-- A message: everything up to the line feed, and at least one character. -/
def message? (s : List Char) : Option (List Char) :=
  match s.takeWhile (· ≠ '\n') with
  | [] => none
  | m => some m

/-- The message after the colon. One space is skipped if something follows it. -/
def messageAfterColon? : List Char → Option (List Char)
  | ' ' :: s => (message? s).or (some [' '])
  | s => message? s

def keywordAndMessage? (s : List Char) : Option CommentMatch :=
  match s.takeWhile isKeywordChar, s.dropWhile isKeywordChar with
  | [], _ => none
  | k, ':' :: rest => (messageAfterColon? rest).map (⟨k, ·⟩)
  | _, _ => none

def spacedKeyword? : List Char → Option CommentMatch
  | ' ' :: s => keywordAndMessage? s
  | s => keywordAndMessage? s

/-- What follows the opening. One `!` belongs to the opening if a keyword remains without it. -/
def body? : List Char → Option CommentMatch
  | '!' :: s => (spacedKeyword? s).or (keywordAndMessage? ('!' :: s))
  | s => spacedKeyword? s

def commentHere? : List Char → Option CommentMatch
  | '/' :: '/' :: s => body? (s.dropWhile (· = '/'))
  | '/' :: '*' :: s => body? (s.dropWhile (· = '*'))
  | _ => none

def findComment? (s : List Char) : Option CommentMatch :=
  leftmost? commentHere? s

end CommentTags.Marker

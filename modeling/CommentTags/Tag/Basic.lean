import CommentTags.Path
import CommentTags.Tag.Kind
import CommentTags.Time.Moment

namespace CommentTags

structure Provenance where
  time : Time.Moment
  author : String
  deriving DecidableEq

structure Tag where
  path : Path
  line : Int
  kind : Kind
  message : String
  provenance : Option Provenance
  deriving DecidableEq

namespace Tag

def level (t : Tag) : Level :=
  t.kind.level

def heading (t : Tag) : String :=
  t.kind.text ++ ": " ++ t.message

def place (t : Tag) : String :=
  t.path.toString ++ ":" ++ toString t.line

end Tag

end CommentTags

import CommentTags.Text.Blank

namespace CommentTags.Marker

open Text (strip)

def beforeCloser? (s : List Char) : Option (List Char) :=
  match s.reverse with
  | '/' :: '*' :: rest => some rest.reverse
  | _ => none

/-- At most one closer is removed, however many there are. -/
def tidyMessage (raw : List Char) : List Char :=
  match beforeCloser? (strip raw) with
  | some s => strip s
  | none => strip raw

end CommentTags.Marker

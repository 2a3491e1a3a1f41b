import CommentTags.Marker.Leftmost

namespace CommentTags.Marker

def callArgument? : List Char → Option (List Char)
  | ')' :: _ => some []
  | '"' :: s =>
    match s.dropWhile (· ≠ '"') with
    | '"' :: ')' :: _ => some (s.takeWhile (· ≠ '"'))
    | _ => none
  | _ => none

def todoCallHere? : List Char → Option (List Char)
  | 't' :: 'o' :: 'd' :: 'o' :: '!' :: '(' :: s => callArgument? s
  | _ => none

def findTodoCall? (s : List Char) : Option (List Char) :=
  leftmost? todoCallHere? s

end CommentTags.Marker

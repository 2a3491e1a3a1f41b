import CommentTags.Text.Cells.FitWidth
import CommentTags.Text.Lines

namespace CommentTags.Report

open Text.Cells (cells blanks)

def toTabStop (cell : Nat) : Nat :=
  (8 - cell % 8) % 8

/-- Replace the tabs in one line. `part` is what has been seen since the last tab, backwards, and
`cell` is where it begins. -/
def expandFrom (part : List Char) (cell : Nat) : List Char → List Char
  | [] => part.reverse
  | c :: s =>
    if c = '\t' then
      let text := part.reverse ++ [' ']
      let stop := cell + cells text
      text ++ blanks (toTabStop stop) ++ expandFrom [] (stop + toTabStop stop) s
    else expandFrom (c :: part) cell s

/-- Replace all tabs in a text; each of its lines begins at cell 0. -/
def expandTabs (s : List Char) : List Char :=
  (Text.cut '\n' s).flatMap (expandFrom [] 0)

end CommentTags.Report

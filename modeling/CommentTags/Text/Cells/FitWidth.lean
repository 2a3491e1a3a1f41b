import CommentTags.Text.Cells.Measure

namespace CommentTags.Text.Cells

def blanks (n : Nat) : List Char :=
  List.replicate n ' '

/-- The units that fit into `room` cells. A blank stands for the first half of a wide unit that
would cross the limit. -/
def fit : Nat → List TextUnit → List Char
  | 0, _ => []
  | _ + 1, [] => []
  | room + 1, u :: us =>
    if u.cells ≤ room + 1 then u.chars ++ fit (room + 1 - u.cells) us else [' ']
termination_by _ us => us.length

/-- What goes wrong with a cut if the units end in front of it: there are no cells to divide by, or
there is no unit to go on with. -/
inductive CutError where
  | noCells
  | noUnit
  deriving DecidableEq, Repr

def CutError.message : CutError → String
  | noCells => "division by zero"
  | noUnit => "list index out of range"

def cutUnits (room : Nat) (us : List TextUnit) : Except CutError (List Char) :=
  if room ≤ totalCells us then .ok (fit room us)
  else if totalCells us = 0 then .error .noCells
  else .error .noUnit

/-- The first `n` items of a list, or for a negative `n` all but the last `-n` of them. -/
def takeInt {α : Type} (n : Int) (s : List α) : List α :=
  match n with
  | .ofNat n => s.take n
  | .negSucc n => s.take (s.length - (n + 1))

/-- Cut or pad a text to a width. Text of plain characters is measured in characters, and there a
negative width cuts from the end. -/
def fitWidth (s : List Char) (width : Int) : Except CutError (List Char) :=
  if s.all isPlain then
    .ok (if s.length < width then s ++ blanks (width.toNat - s.length) else takeInt width s)
  else if width ≤ 0 then .ok []
  else if cells s ≤ width.toNat then .ok (s ++ blanks (width.toNat - cells s))
  else cutUnits width.toNat (units s)

end CommentTags.Text.Cells

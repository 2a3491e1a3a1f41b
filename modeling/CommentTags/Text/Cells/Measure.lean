import CommentTags.Text.Cells.Width

namespace CommentTags.Text.Cells

def joiner : Char := '\u200d'
def selector : Char := '\ufe0f'

/-- The cell that a selector adds after `last`, the last character with a width of its own. -/
def selectorBonus : Option Char → Nat
  | none => 0
  | some c => if widensBeforeSelector c then 1 else 0

def cellsAfter (last : Option Char) : List Char → Nat
  | [] => 0
  | c :: s =>
    if c = joiner then
      match s with
      | [] => 0
      | _ :: s => cellsAfter last s
    else if c = selector then selectorBonus last + cellsAfter none s
    else if charWidth c = 0 then cellsAfter last s
    else charWidth c + cellsAfter (some c) s

def cells (s : List Char) : Nat :=
  cellsAfter none s

/-- Characters that are kept or cut together, and the cells they take. -/
structure TextUnit where
  chars : List Char
  cells : Nat
  deriving DecidableEq

def TextUnit.extend (u : TextUnit) (s : List Char) (more : Nat) : TextUnit :=
  ⟨u.chars ++ s, u.cells + more⟩

/-- The units of a text whose first unit has begun with `u`. A character with a width begins a new
unit, everything else belongs to the unit before it. -/
def unitsAfter (u : TextUnit) (last : Option Char) : List Char → List TextUnit
  | [] => [u]
  | c :: s =>
    if c = joiner then
      match s with
      | [] => [u.extend [c] 0]
      | d :: s => unitsAfter (u.extend [c, d] 0) last s
    else if c = selector then
      if selectorBonus last = 0 then unitsAfter (u.extend [c] 0) last s
      else unitsAfter (u.extend [c] 1) none s
    else if charWidth c = 0 then unitsAfter (u.extend [c] 0) last s
    else u :: unitsAfter ⟨[c], charWidth c⟩ (some c) s

def units : List Char → List TextUnit
  | [] => []
  | c :: s => unitsAfter ⟨[c], charWidth c⟩ (if charWidth c = 0 then none else some c) s

def flatten (us : List TextUnit) : List Char :=
  us.flatMap TextUnit.chars

def totalCells : List TextUnit → Nat
  | [] => 0
  | u :: us => u.cells + totalCells us

theorem flatten_unitsAfter (u : TextUnit) (last : Option Char) (s : List Char) :
    flatten (unitsAfter u last s) = u.chars ++ s := by
  fun_induction unitsAfter u last s <;> simp_all [flatten, TextUnit.extend]

theorem flatten_units (s : List Char) : flatten (units s) = s := by
  cases s with
  | nil => rfl
  | cons c s => simp [units, flatten_unitsAfter]

end CommentTags.Text.Cells

import CommentTags.Tag.Basic
import CommentTags.Text.Cells.FitWidth

namespace CommentTags.Report

open Text.Cells (CutError)
open Time (TimeError)

def headingWidth : Int := 40

def styleOf : Kind → String
  | .todoCall => "magenta"
  | k =>
    match k.level with
    | .fix => "red"
    | .improvement => "blue"
    | .information => "grey70"
    | .custom => "yellow"

def provenanceText (zone : Int) (p : Provenance) : Except TimeError String := do
  return (← p.time.localText zone) ++ " " ++ p.author

def tagText (zone : Int) (t : Tag) : Except TimeError String := do
  match t.provenance with
  | none => return t.heading ++ " " ++ t.place
  | some p => return t.heading ++ " " ++ (← provenanceText zone p) ++ " " ++ t.place

inductive LineError where
  | heading (error : CutError)
  | time (error : TimeError)
  deriving DecidableEq, Repr

def headingColumn (width : Int) (t : Tag) : Except CutError String :=
  (Text.Cells.fitWidth t.heading.toList width).map String.ofList

def changedColumn (zone : Int) (t : Tag) : Except TimeError String :=
  match t.provenance with
  | none => .ok ""
  | some p => p.time.localText zone

def columns (zone width : Int) (t : Tag) : Except LineError (String × String) := do
  let heading ← (headingColumn width t).mapError .heading
  let time ← (changedColumn zone t).mapError .time
  return (heading, time)

def plainLine (zone width : Int) (t : Tag) : Except LineError String :=
  (columns zone width t).map fun (heading, time) => heading ++ " " ++ time ++ " " ++ t.place

/-- A part of a styled text, by the offsets of its ends in characters. -/
structure Span where
  first : Nat
  last : Nat
  style : String
  deriving DecidableEq, Repr

structure StyledText where
  plain : List Char
  spans : List Span
  deriving DecidableEq, Repr

/-- Control characters that a terminal would act upon. -/
def isDropped (c : Char) : Bool :=
  c.toNat = 7 || c.toNat = 8 || c.toNat = 11 || c.toNat = 12 || c.toNat = 13

def StyledText.append (s : StyledText) (piece : String) (style : Option String) : StyledText :=
  let kept := piece.toList.filter (!isDropped ·)
  let span :=
    if piece = "" then [] else style.toList.map (⟨s.plain.length, s.plain.length + kept.length, ·⟩)
  ⟨s.plain ++ kept, s.spans ++ span⟩

def styledLine (zone width : Int) (t : Tag) : Except LineError StyledText :=
  (columns zone width t).map fun (heading, time) =>
    (StyledText.mk [] []).append heading (some (styleOf t.kind))
      |>.append (" " ++ time ++ " ") none
      |>.append t.place (some "dim")

end CommentTags.Report

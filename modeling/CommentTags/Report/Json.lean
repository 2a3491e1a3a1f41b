import CommentTags.Tag.Basic
import CommentTags.Text.Quoted

namespace CommentTags.Report

inductive Json where
  | null
  | int (n : Int)
  | str (s : String)
  | arr (items : List Json)
  | obj (fields : List (String × Json))

namespace Json

def unicodeEscape (n : Nat) : List Char :=
  '\\' :: 'u' :: Text.Quoted.hex 4 n

/-- A character inside a string. Beyond U+FFFF it is written as a surrogate pair. -/
def escape (c : Char) : List Char :=
  let n := c.toNat
  if c = '"' ∨ c = '\\' then ['\\', c]
  else if c = '\n' then ['\\', 'n']
  else if c = '\r' then ['\\', 'r']
  else if c = '\t' then ['\\', 't']
  else if n = 8 then ['\\', 'b']
  else if n = 12 then ['\\', 'f']
  else if 32 ≤ n ∧ n < 127 then [c]
  else if n < 0x10000 then unicodeEscape n
  else
    unicodeEscape (0xD800 + (n - 0x10000) / 0x400) ++ unicodeEscape (0xDC00 + (n - 0x10000) % 0x400)

def writeString (s : String) : List Char :=
  '"' :: s.toList.flatMap escape ++ ['"']

def newline (depth : Nat) : List Char :=
  '\n' :: List.replicate (2 * depth) ' '

def bracket (opening closing : Char) (depth : Nat) : List (List Char) → List Char
  | [] => [opening, closing]
  | item :: items =>
    opening :: newline (depth + 1) ++ item ++
      items.flatMap (fun i => ',' :: newline (depth + 1) ++ i) ++ newline depth ++ [closing]

mutual

def write (depth : Nat) : Json → List Char
  | null => "null".toList
  | int n => (toString n).toList
  | str s => writeString s
  | arr items => bracket '[' ']' depth (writeItems (depth + 1) items)
  | obj fields => bracket '\x7b' '\x7d' depth (writeFields (depth + 1) fields)

def writeItems (depth : Nat) : List Json → List (List Char)
  | [] => []
  | j :: js => write depth j :: writeItems depth js

def writeFields (depth : Nat) : List (String × Json) → List (List Char)
  | [] => []
  | (k, j) :: fs => (writeString k ++ [':', ' '] ++ write depth j) :: writeFields depth fs

end

end Json

def provenanceJson (p : Provenance) : Json :=
  .obj [("time", .str p.time.iso), ("author", .str p.author)]

def tagJson (t : Tag) : Json :=
  .obj [("path", .str t.path.toString), ("line", .int t.line), ("kind", .str t.kind.text),
    ("level", .str t.level.name), ("message", .str t.message),
    ("git", (t.provenance.map provenanceJson).getD .null)]

def tagsJson (ts : List Tag) : String :=
  String.ofList ((Json.arr (ts.map tagJson)).write 0)

end CommentTags.Report

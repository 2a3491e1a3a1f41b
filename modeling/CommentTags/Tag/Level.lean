import CommentTags.Text.Caseless
import CommentTags.Text.Quoted

namespace CommentTags

inductive Level where
  | fix
  | improvement
  | information
  | custom
  deriving DecidableEq, Repr

namespace Level

def all : List Level := [fix, improvement, information, custom]

def name : Level → String
  | fix => "fix"
  | improvement => "improvement"
  | information => "information"
  | custom => "custom"

def title : Level → String
  | fix => "Fix"
  | improvement => "Improvement"
  | information => "Information"
  | custom => "Custom"

def ofName? (s : String) : Option Level :=
  all.find? fun l => l.name = s

def ofText? (s : String) : Option Level :=
  ofName? (Text.caselessKey s)

theorem ofName?_name (l : Level) : ofName? l.name = some l := by
  cases l <;> decide

def choices : String :=
  ", ".intercalate (all.map name)

end Level

inductive LevelError where
  | notAName (text : String)
  | notAChoice (text : String)
  deriving DecidableEq, Repr

def LevelError.message : LevelError → String
  | notAName s => Text.quoted s ++ " is not a valid TagLevel"
  | notAChoice s => "invalid level " ++ Text.quoted s ++ " (choose from " ++ Level.choices ++ ")"

def Level.ofName (s : String) : Except LevelError Level :=
  match ofName? s with
  | some l => .ok l
  | none => .error (.notAName s)

def Level.ofText (s : String) : Except LevelError Level :=
  match ofText? s with
  | some l => .ok l
  | none => .error (.notAChoice s)

end CommentTags

import CommentTags.Tag.Level

namespace CommentTags

inductive Kind where
  | todo
  | todoCall
  | bug
  | fix
  | note
  | undone
  | hack
  | xxx
  | optimize
  | safety
  | invariant
  | lint
  | ignored
  | custom (text : String)
  deriving DecidableEq, Repr

namespace Kind

def text : Kind → String
  | todo => "TODO"
  | todoCall => "TODO!"
  | bug => "BUG"
  | fix => "FIX"
  | note => "NOTE"
  | undone => "UNDONE"
  | hack => "HACK"
  | xxx => "XXX"
  | optimize => "OPTIMIZE"
  | safety => "SAFETY"
  | invariant => "INVARIANT"
  | lint => "LINT"
  | ignored => "IGNORED"
  | custom s => s

def level : Kind → Level
  | todo | todoCall | optimize => .improvement
  | bug | fix => .fix
  | note | undone | hack | xxx | safety | invariant | lint | ignored => .information
  | custom _ => .custom

def keywords : List (String × Kind) := [
  ("todo", todo), ("todo!", todoCall), ("bug", bug), ("debug", bug), ("fixme", fix), ("fix", fix),
  ("note", note), ("nb", note), ("undone", undone), ("hack", hack), ("bodge", hack),
  ("kludge", hack), ("xxx", xxx), ("optimize", optimize), ("optimise", optimize),
  ("optimizeme", optimize), ("optimiseme", optimize), ("safety", safety),
  ("invariant", invariant), ("lint", lint), ("ignored", ignored)]

/-- The kind that a keyword names. A keyword not in the table is kept as it is written. -/
def ofKeyword (s : String) : Kind :=
  (keywords.lookup (Text.caselessKey s)).getD (custom s)

end Kind

end CommentTags

import CommentTags.Path
import CommentTags.Text.Caseless
import CommentTags.Text.Quoted

namespace CommentTags

inductive Grammar where
  | rust
  | cLike
  deriving DecidableEq, Repr

namespace Grammar

def extensions : List (String × Grammar) := [
  (".rs", rust), (".c", cLike), (".cc", cLike), (".cpp", cLike), (".cxx", cLike), (".h", cLike),
  (".hh", cLike), (".hpp", cLike), (".hxx", cLike), (".java", cLike), (".cs", cLike),
  (".js", cLike), (".jsx", cLike), (".ts", cLike), (".tsx", cLike), (".go", cLike),
  (".kt", cLike), (".swift", cLike), (".scala", cLike), (".dart", cLike)]

/-- The grammar of a file, by the last extension of its name in any letter case. -/
def ofPath? (p : Path) : Option Grammar :=
  extensions.lookup (Text.caselessKey p.suffix)

def name : Grammar → String
  | rust => "rust"
  | cLike => "clike"

def label : Grammar → String
  | rust => "RUST"
  | cLike => "CLIKE"

def ofName? (s : String) : Option Grammar :=
  [rust, cLike].find? fun g => g.name = s

end Grammar

structure UnknownGrammar where
  text : String
  deriving DecidableEq, Repr

def UnknownGrammar.message (e : UnknownGrammar) : String :=
  Text.quoted e.text ++ " is not a valid SourceKind"

def Grammar.ofName (s : String) : Except UnknownGrammar Grammar :=
  match ofName? s with
  | some g => .ok g
  | none => .error ⟨s⟩

end CommentTags

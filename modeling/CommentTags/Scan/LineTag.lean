import CommentTags.Grammar
import CommentTags.Marker.Comment
import CommentTags.Marker.Message
import CommentTags.Marker.TodoCall
import CommentTags.Tag.Basic

namespace CommentTags

/-- Keywords that are the scheme of a URL, whose `//` opens no comment. -/
def urlSchemes : List String := ["http", "https"]

/-- The tag of the first comment marker. A URL in its place hides the markers after it. -/
def commentTag? (path : Path) (number : Nat) (line : List Char) : Option Tag :=
  match Marker.findComment? line with
  | none => none
  | some m =>
    let keyword := String.ofList m.keyword
    if Text.caselessKey keyword ∈ urlSchemes then none
    else
      some ⟨path, number, .ofKeyword keyword, .ofList (Marker.tidyMessage m.message), none⟩

def callTag? (path : Path) (number : Nat) (line : List Char) : Option Tag :=
  (Marker.findTodoCall? line).map fun s => ⟨path, number, .todoCall, .ofList s, none⟩

/-- Calls go before comments where the grammar has them. -/
def lineTag? (g : Grammar) (path : Path) (number : Nat) (line : List Char) : Option Tag :=
  match g with
  | .rust => (callTag? path number line).or (commentTag? path number line)
  | .cLike => commentTag? path number line

@[simp] theorem lineTag?_nil (g : Grammar) (path : Path) (number : Nat) :
    lineTag? g path number [] = none := by
  cases g <;> rfl

end CommentTags

import CommentTags.Git.History
import CommentTags.Text.Lines

namespace CommentTags.Git

abbrev ByteLine := List UInt8

def byteLines (content : List UInt8) : List ByteLine :=
  Text.cut 10 content

section Carry

variable {α β : Type} [DecidableEq α]

/-- The best way found to carry the rest of a list over: how many items are kept, and the owner of
each new item. -/
structure Alignment (β : Type) where
  kept : Nat
  owners : List β

def freshRow (owner : β) : List α → List (Alignment β)
  | [] => [⟨0, []⟩]
  | _ :: items => ⟨0, List.replicate (items.length + 1) owner⟩ :: freshRow owner items

def bestOf (owner : β) (item : α) (old : α × β) (skipOld diagonal skipNew : Alignment β) :
    Alignment β :=
  if old.1 = item then ⟨diagonal.kept + 1, old.2 :: diagonal.owners⟩
  else if skipNew.kept < skipOld.kept then skipOld
  else ⟨skipNew.kept, owner :: skipNew.owners⟩

/-- The alignments of all suffixes of the new items when one more old item stands in front. -/
def alignRow (owner : β) (old : α × β) : List α → List (Alignment β) → List (Alignment β)
  | item :: items, skipOld :: diagonal :: below =>
    let rest := alignRow owner old items (diagonal :: below)
    match rest with
    | [] => []
    | skipNew :: _ => bestOf owner item old skipOld diagonal skipNew :: rest
  | _, _ => [⟨0, []⟩]

def alignAll (owner : β) (items : List α) : List (α × β) → List (Alignment β)
  | [] => freshRow owner items
  | old :: olds => alignRow owner old items (alignAll owner items olds)

/-- The owners of items that replace old ones; new items belong to `owner`. -/
def carryMiddle (owner : β) (olds : List (α × β)) (items : List α) : List β :=
  match alignAll owner items olds with
  | a :: _ => a.owners
  | [] => []

def commonLength : List α → List α → Nat
  | a :: as, b :: bs => if a = b then commonLength as bs + 1 else 0
  | _, _ => 0

/-- The same, where the beginning and the end that both have in common are carried over as they
are. -/
def carry (owner : β) (olds : List (α × β)) (items : List α) : List β :=
  let n := commonLength (olds.map Prod.fst) items
  let olds' := (olds.drop n).reverse
  let items' := (items.drop n).reverse
  let m := commonLength (olds'.map Prod.fst) items'
  (olds.take n).map Prod.snd ++
    carryMiddle owner (olds'.drop m).reverse (items'.drop m).reverse ++
    (olds'.take m).reverse.map Prod.snd

end Carry

/-- The file of an older version that a new file continues: the one of the same path, or else one
with the same content that is gone. -/
def predecessor? (older newer : List (String × List UInt8)) (path : String)
    (content : List UInt8) : Option String :=
  if (older.lookup path).isSome then some path
  else (older.find? fun f => f.2 = content ∧ (newer.lookup f.1).isNone).map Prod.fst

/-- The commit behind each line that a file has in the newest of the given commits; `none` if the
file is not there. -/
def lineOwners? (path : String) : List Commit → Option (List Commit)
  | [] => none
  | c :: older =>
    (c.files.lookup path).map fun content =>
      let lines := byteLines content
      let fresh := lines.map fun _ => c
      match older.head? with
      | none => fresh
      | some p =>
        match predecessor? p.files c.files path content with
        | none => fresh
        | some path' =>
          match p.files.lookup path', lineOwners? path' older with
          | some old, some owners => carry c ((byteLines old).zip owners) lines
          | _, _ => fresh

/-- The commit behind each line of a file in the newest version. There is none if the file is not
in it, or if a line comes from a commit without an author. -/
def blameLines? (h : History) (path : String) : Option (List Commit) :=
  (lineOwners? path h.commits).filter fun owners => owners.all fun c => c.author ≠ ""

end CommentTags.Git

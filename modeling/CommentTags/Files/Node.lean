import CommentTags.Git.History

namespace CommentTags

/-- What there is to a directory besides its entries: the history that a repository keeps in it,
and whether the user may list its names and follow them. -/
structure DirInfo where
  history : Option Git.History := none
  listable : Bool := true
  searchable : Bool := true
  deriving DecidableEq, Repr

/-- A file tree. The entries of a directory stand in the order in which the system lists them. -/
inductive Node where
  | file (content : List UInt8)
  | link (target : String)
  | dir (entries : List (String × Node)) (info : DirInfo)

abbrev Location := List String

namespace Node

mutual

def size : Node → Nat
  | file _ => 1
  | link _ => 1
  | dir entries _ => sizes entries + 1

def sizes : List (String × Node) → Nat
  | [] => 0
  | (_, n) :: rest => size n + sizes rest

end

theorem size_pos (n : Node) : 0 < n.size := by
  cases n <;> simp [size]

def emptyDir : Node := dir [] {}

def isDir : Node → Bool
  | dir .. => true
  | _ => false

def isLink : Node → Bool
  | link _ => true
  | _ => false

def isFile : Node → Bool
  | file _ => true
  | _ => false

def entries : Node → List (String × Node)
  | dir es _ => es
  | _ => []

def info : Node → DirInfo
  | dir _ i => i
  | _ => {}

def child? (n : Node) (name : String) : Option Node :=
  n.entries.lookup name

def get? (n : Node) : Location → Option Node
  | [] => some n
  | name :: names => (n.child? name).bind (get? · names)

/-- The node at a location, if all directories on the way may be searched. -/
def reach? (n : Node) : Location → Option Node
  | [] => some n
  | name :: names =>
    if n.info.searchable then (n.child? name).bind (reach? · names) else none

def insertEntry (name : String) (node : Node) : List (String × Node) → List (String × Node)
  | [] => [(name, node)]
  | e :: rest => if name < e.1 then (name, node) :: e :: rest else e :: insertEntry name node rest

def setEntry (name : String) (node : Node) (es : List (String × Node)) : List (String × Node) :=
  if (es.lookup name).isSome then es.map fun e => if e.1 = name then (name, node) else e
  else insertEntry name node es

theorem lookup_cons_eq (key k : String) (n : Node) (es : List (String × Node)) :
    ((k, n) :: es).lookup key = if key = k then some n else es.lookup key := by
  by_cases h : key = k <;> simp [List.lookup_cons, h, beq_eq_false_iff_ne.mpr]

theorem lookup_insertEntry {name : String} (key : String) (node : Node)
    {es : List (String × Node)} (h : es.lookup name = none) :
    (insertEntry name node es).lookup key = if key = name then some node else es.lookup key := by
  induction es with
  | nil => exact lookup_cons_eq ..
  | cons e es ih =>
    rw [lookup_cons_eq] at h
    split at h
    · cases h
    · rename_i hne
      unfold insertEntry
      split
      · exact lookup_cons_eq ..
      · rw [lookup_cons_eq, lookup_cons_eq, ih h]
        grind

theorem lookup_map_replace (name key : String) (node : Node) (es : List (String × Node)) :
    (es.map fun e => if e.1 = name then (name, node) else e).lookup key =
      if key = name then (es.lookup name).map fun _ => node else es.lookup key := by
  induction es with
  | nil => simp
  | cons e es ih =>
    rw [List.map_cons, lookup_cons_eq, lookup_cons_eq]
    by_cases h : e.1 = name <;> grind [lookup_cons_eq]

theorem lookup_setEntry (name key : String) (node : Node) (es : List (String × Node)) :
    (setEntry name node es).lookup key = if key = name then some node else es.lookup key := by
  unfold setEntry
  split
  · rename_i h
    obtain ⟨n, hn⟩ := Option.isSome_iff_exists.mp h
    rw [lookup_map_replace, hn]
    rfl
  · rename_i h
    exact lookup_insertEntry key node (Option.not_isSome_iff_eq_none.mp h)

/-- Apply `f` to the node at a location, where an empty directory stands for a node that is not
there. -/
def modify (f : Node → Node) (n : Node) : Location → Node
  | [] => f n
  | name :: names =>
    dir (setEntry name (modify f ((n.child? name).getD emptyDir) names) n.entries) n.info

theorem get?_emptyDir (loc : Location) : (emptyDir.get? loc).getD emptyDir = emptyDir := by
  cases loc <;> rfl

theorem get?_modify (f : Node → Node) (n : Node) (loc : Location) :
    (n.modify f loc).get? loc = some (f ((n.get? loc).getD emptyDir)) := by
  induction loc generalizing n with
  | nil => rfl
  | cons name names ih =>
    have h : (n.modify f (name :: names)).child? name =
        some (modify f ((n.child? name).getD emptyDir) names) := by
      simp [modify, child?, entries, lookup_setEntry]
    rw [get?, h, Option.bind_some, ih]
    cases he : n.child? name with
    | none => simp [get?, he, get?_emptyDir]
    | some child => simp [get?, he]

def set (n : Node) (loc : Location) (node : Node) : Node :=
  n.modify (fun _ => node) loc

@[simp] theorem get?_set (n : Node) (loc : Location) (node : Node) :
    (n.set loc node).get? loc = some node :=
  get?_modify _ n loc

def eraseEntry (name : String) (n : Node) : Node :=
  match n with
  | dir es i => dir (es.filter fun e => e.1 ≠ name) i
  | n => n

def erase (n : Node) (loc : Location) : Node :=
  match loc.getLast? with
  | none => n
  | some name => n.modify (eraseEntry name) loc.dropLast

end Node

end CommentTags

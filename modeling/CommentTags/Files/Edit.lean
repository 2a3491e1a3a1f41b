import CommentTags.Files.Resolve

namespace CommentTags.FileSystem

variable (fs : FileSystem)

def placeOf (p : Path) : Location :=
  if p.names = [] ∨ p.name = ".." then (fs.resolve? p).getD (fs.start p)
  else
    let parent : Path := { p with names := p.names.dropLast }
    (fs.resolve? parent).getD (fs.start p) ++ [p.name]

def targetOf (p : Path) : Location :=
  (fs.resolve? p).getD (fs.placeOf p)

/-- Whether the system takes the names of a location for new entries. -/
def takes (loc : Location) : Bool :=
  loc.all fun name => !hasNul name && !isTooLong name

def put (loc : Location) (node : Node) : FileSystem :=
  if takes loc then { fs with root := fs.root.set loc node } else fs

def write (p : Path) (content : List UInt8) : FileSystem :=
  fs.put (fs.targetOf p) (.file content)

def makeDir (p : Path) : FileSystem :=
  if fs.isDir p then fs else fs.put (fs.targetOf p) .emptyDir

def makeLink (p : Path) (target : String) : FileSystem :=
  if hasNul target then fs else fs.put (fs.placeOf p) (.link target)

def remove (p : Path) : FileSystem :=
  match fs.root.get? (fs.placeOf p) with
  | none => fs
  | some _ => { fs with root := fs.root.erase (fs.placeOf p) }

def setAccess (p : Path) (listable searchable : Bool) : FileSystem :=
  match fs.lookup true p with
  | .ok (loc, .dir entries info) =>
    fs.put loc (.dir entries { info with listable, searchable })
  | _ => fs

/-- Move a node. Whoever is inside it moves with it. -/
def rename (p q : Path) : FileSystem :=
  let old := fs.placeOf p
  let new := fs.placeOf q
  match fs.root.get? old, takes new with
  | some node, true =>
    { fs with
      root := (fs.root.erase old).set new node
      here := if old.isPrefixOf fs.here then new ++ fs.here.drop old.length else fs.here }
  | _, _ => fs

def changeDir (p : Path) : FileSystem :=
  match fs.lookup true p with
  | .ok (loc, .dir ..) => { fs with here := loc }
  | _ => fs

/-- From now on the file at this very path may not be opened. -/
def deny (p : Path) : FileSystem :=
  { fs with denied := p.toString :: fs.denied }

end CommentTags.FileSystem

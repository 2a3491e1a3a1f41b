import CommentTags.CommandLine.Run
import CommentTags.Files.Edit

namespace CommentTags.Main

open IO.FS (FileType)

def fileType? (p : String) (follow : Bool) : IO (Option FileType) := do
  let p := (← IO.currentDir) / p
  try
    return some (← if follow then p.metadata else p.symlinkMetadata).type
  catch _ => return none

def locationOf (p : String) : IO Path := do
  return .ofString (← IO.FS.realPath p).toString

def isRead (p : Path) : Bool :=
  p.name = ".gitignore" || (Grammar.ofPath? p).isSome

/-- Add a file, `shown` being the path under which a search comes to it. -/
def addFile (fs : FileSystem) (shown : Path) (loc : Path) : IO FileSystem := do
  if isRead loc then
    try
      return fs.write loc (← IO.FS.readBinFile loc.toString).toList
    catch _ => return (fs.write loc []).deny shown
  else return fs.write loc []

/-- Add a link. All that matters of its target is where it leads in the end. -/
def addLink (fs : FileSystem) (loc : Path) : IO FileSystem := do
  try
    return fs.makeLink loc (← IO.FS.realPath loc.toString).toString
  catch _ => return fs.makeLink loc loc.name

/-- The names in a directory, if the user may list them, and whether he may follow them. -/
def listing (loc : Path) : IO (Option (Array String) × Bool) := do
  let searchable := (← fileType? (loc.child ".").toString true).isSome
  try
    let entries ← ((← IO.currentDir) / loc.toString).readDir
    return (some (entries.map (·.fileName)), searchable)
  catch _ => return (none, searchable)

/-- Add everything below a directory. What the system does not tell the type of counts as a file. -/
partial def addTree (fs : FileSystem) (shown loc : Path) : IO FileSystem := do
  match ← fileType? loc.toString false with
  | some .dir =>
    let (names?, searchable) ← listing loc
    let mut fs := fs.makeDir loc
    for name in names?.getD #[] do
      unless name ∈ skippedNames do
        fs ← addTree fs (shown.child name) (loc.child name)
    return fs.setAccess loc names?.isSome searchable
  | some .file => addFile fs shown loc
  | some .symlink => addLink fs loc
  | none => return fs.write loc []
  | _ => return fs

def addIfFile (fs : FileSystem) (loc : Path) : IO FileSystem := do
  try
    return fs.write loc (← IO.FS.readBinFile loc.toString).toList
  catch _ => return fs

def addIfDir (fs : FileSystem) (loc : Path) : IO FileSystem := do
  match ← fileType? loc.toString true with
  | some .dir => return fs.makeDir loc
  | _ => return fs

def addMarks (fs : FileSystem) (dir : Path) : IO FileSystem := do
  let fs ← addIfFile fs (dir.child ".gitignore")
  let git := dir.child ".git"
  let fs ← addIfFile fs (git.child "HEAD")
  let fs ← addIfDir fs (git.child "objects")
  let fs ← addIfDir fs (git.child "refs")
  addIfFile fs ((git.child "info").child "exclude")

def beginnings (p : Path) : List Path :=
  (List.range (p.names.length + 1)).map fun n => { p with names := p.names.take n }

def addSteps (fs : FileSystem) (p : Path) : IO FileSystem := do
  let mut fs := fs
  for b in beginnings p do
    if (← fileType? b.toString false) matches some .symlink then
      fs ← addLink fs b
    if (← fileType? b.toString true) matches some .dir then
      let loc ← locationOf b.toString
      fs := (fs.makeDir loc).setAccess loc true (← listing loc).2
  return fs

/-- Add everything that a search from a path may look at. -/
def addRoot (fs : FileSystem) (p : Path) : IO FileSystem := do
  let mut fs ← addSteps fs p
  if (← fileType? p.toString true).isNone then return fs
  let loc ← locationOf p.toString
  for dir in beginnings loc do
    fs ← addMarks fs dir
  addTree fs p loc

def picture (roots : List Path) : IO FileSystem := do
  let here ← locationOf "."
  let empty : FileSystem := ⟨.emptyDir, here.names, []⟩
  roots.foldlM addRoot (empty.makeDir here)

end CommentTags.Main

def main (arguments : List String) : IO UInt32 := do
  let roots :=
    match CommentTags.CommandLine.parse arguments with
    | .ok s => s.roots
    | .error _ => []
  let files ← CommentTags.Main.picture roots
  match CommentTags.CommandLine.run files 0 arguments none with
  | .ok r =>
    IO.print r.output
    IO.eprint r.errors
    return r.code.toUInt32
  | .error e =>
    IO.eprintln e.message
    return 1

import CommentTags.Files.FileSystem

namespace CommentTags

/-- Directories that hold the data of version control and no sources. -/
def skippedNames : List String := [".git", ".hg", ".svn"]

/-- Whether an entry counts as a directory, a link counting as what it leads to. -/
def FileSystem.entryIsDir (fs : FileSystem) (p : Path) : Node → Bool
  | .dir .. => true
  | .file _ => false
  | .link _ => fs.isDir p

/-- What a walk comes to: a file, or a path that it is an error to ask about. -/
abbrev WalkStep := Except PathError Path

variable (fs : FileSystem)

def filesIn (p : Path) (entries : List (String × Node)) : List (String × Node) :=
  entries.filter fun e => !fs.entryIsDir (p.child e.1) e.2

def dirsIn (p : Path) (entries : List (String × Node)) : List (String × Node) :=
  entries.filter fun e => fs.entryIsDir (p.child e.1) e.2 && e.1 ∉ skippedNames

theorem size_lt_of_mem_entries {entries : List (String × Node)} {e : String × Node}
    (h : e ∈ entries) : e.2.size < Node.sizes entries + 1 := by
  induction entries with
  | nil => simp at h
  | cons a rest ih =>
    simp only [Node.sizes]
    rcases List.mem_cons.mp h with rfl | h
    · omega
    · have := ih h
      omega

/-- The step of a walk at a path that is listed as a file. Links and what is gone are passed
over. -/
def fileStep? (p : Path) : Option WalkStep :=
  match fs.refusal? false p with
  | some e => some (.error e)
  | none => if fs.isPlainFile p then some (.ok p) else none

/-- The steps in a directory and below it, its own files first. Nothing below a directory that may
not be searched can be listed, and symbolic links are not followed. -/
def walkDir (p : Path) : Node → List WalkStep
  | .dir entries info =>
    if info.listable then
      (filesIn fs p entries).filterMap (fun e => fileStep? fs (p.child e.1)) ++
        if info.searchable then
          (dirsIn fs p entries).attach.flatMap fun ⟨e, _⟩ => walkDir (p.child e.1) e.2
        else []
    else []
  | _ => []
termination_by n => n.size
decreasing_by exact size_lt_of_mem_entries (List.mem_filter.mp ‹_›).1

/-- The error of walking a path that a walk cannot even begin with. -/
def startRefusal? (p : Path) : Option PathError :=
  match p.hasNul with
  | true => some .nullByte
  | false => fs.refusal? true p

def walkSteps (p : Path) : List WalkStep :=
  match startRefusal? fs p with
  | some e => [.error e]
  | none =>
    match fs.node? p with
    | some (.file _) => if fs.isLink p then [] else [.ok p]
    | some (.dir entries info) => walkDir fs p (.dir entries info)
    | _ => []

/-- The items in front of the first error, and that error. -/
def untilError {ε α : Type} : List (Except ε α) → List α × Option ε
  | [] => ([], none)
  | .ok a :: xs => let r := untilError xs; (a :: r.1, r.2)
  | .error e :: _ => ([], some e)

/-- The files that a path stands for, itself or what is below it, up to the first error. -/
def walk (p : Path) : List Path :=
  (untilError (walkSteps fs p)).1

def walkRefusal? (p : Path) : Option PathError :=
  (untilError (walkSteps fs p)).2

end CommentTags

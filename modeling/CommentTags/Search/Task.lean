import CommentTags.Files.Walk
import CommentTags.Search.FileEvents

namespace CommentTags.Search

inductive Pending where
  /-- A place to start from, as it was given. -/
  | start (path : String)
  | directory (repo : Option Git.Handle) (path : Path)
  | file (repo : Option Git.Handle) (path : Path)
  deriving DecidableEq, Repr

structure Task where
  pending : Pending
  node : Option Node

namespace Task

variable (fs : FileSystem)

def load (p : Pending) : Task :=
  match p with
  | .start path => ⟨p, fs.node? (.ofString path)⟩
  | .directory _ path => ⟨p, fs.nodeItself? path⟩
  | .file .. => ⟨p, none⟩

def weight (t : Task) : Nat :=
  match t.node with
  | none => 1
  | some n => 2 * n.size

def weights : List Task → Nat
  | [] => 0
  | t :: ts => t.weight + weights ts

/-- The work in a directory. What is below one that may not be searched leads nowhere. -/
def listing (repo : Option Git.Handle) (p : Path) (entries : List (String × Node))
    (info : DirInfo) : List Task :=
  if info.listable then
    (filesIn fs p entries).map (fun e => ⟨.file repo (p.child e.1), none⟩) ++
      (dirsIn fs p entries).map fun e =>
        ⟨.directory repo (p.child e.1), if info.searchable then some e.2 else none⟩
  else []

def repositoryFor (o : Options) (path : String) :
    Except PathError (Option Git.Handle) × List Notice :=
  if o.usesGit then Git.findRepository fs path else (.ok none, [])

def startTasks (repo : Option Git.Handle) (p : Path) : Option Node → List Task
  | some (.file _) => if fs.isLink p then [] else [⟨.file repo p, none⟩]
  | some (.dir entries info) => listing fs repo p entries info
  | _ => []

/-- Do one piece of work: what it comes up with at once, and the work it leaves. -/
def expand (o : Options) (t : Task) : List Event × List Task :=
  match t.pending with
  | .start path =>
    match repositoryFor fs o path with
    | (.error e, notices) => (notices.map .notice ++ [.failed (.path e)], [])
    | (.ok repo, notices) =>
      match startRefusal? fs (.ofString path) with
      | some e => (notices.map .notice ++ [.failed (.path e)], [])
      | none => (notices.map .notice, startTasks fs repo (.ofString path) t.node)
  | .directory repo p =>
    match t.node with
    | some (.dir entries info) => ([], listing fs repo p entries info)
    | _ => ([], [])
  | .file repo p =>
    match fileStep? fs p with
    | none => ([], [])
    | some (.error e) => ([.failed (.path e)], [])
    | some (.ok p) => (fileEvents fs o (repo.map (·.connect fs)) p, [])

theorem weight_pos (t : Task) : 0 < t.weight := by
  unfold weight
  split
  · exact Nat.one_pos
  · exact Nat.mul_pos Nat.two_pos (Node.size_pos _)

theorem weights_append (ts us : List Task) : weights (ts ++ us) = weights ts + weights us := by
  induction ts with
  | nil => simp [weights]
  | cons t ts ih => simp [weights, ih, Nat.add_assoc]

theorem weights_files (repo : Option Git.Handle) (p : Path) (es : List (String × Node)) :
    weights (es.map fun e => (⟨.file repo (p.child e.1), none⟩ : Task)) = es.length := by
  induction es with
  | nil => rfl
  | cons e es ih =>
    simp only [List.map_cons, weights, List.length_cons, ih, weight]
    omega

theorem weights_directories_le (repo : Option Git.Handle) (p : Path) (info : DirInfo)
    (es : List (String × Node)) :
    weights (es.map fun e => (⟨.directory repo (p.child e.1),
      if info.searchable then some e.2 else none⟩ : Task)) ≤ 2 * Node.sizes es := by
  induction es with
  | nil => exact Nat.le_refl 0
  | cons e es ih =>
    have hpos := e.2.size_pos
    have hfirst : weight ⟨.directory repo (p.child e.1),
        if info.searchable then some e.2 else none⟩ ≤ 2 * e.2.size := by
      cases info.searchable with
      | true => exact Nat.le_refl _
      | false => exact Nat.mul_pos Nat.two_pos hpos
    simp only [List.map_cons, weights, Node.sizes]
    omega

theorem weights_listing_le (repo : Option Git.Handle) (p : Path)
    (entries : List (String × Node)) (info : DirInfo) :
    weights (listing fs repo p entries info) ≤ 2 * Node.sizes entries := by
  unfold listing
  by_cases hlist : info.listable = true
  case neg =>
    rw [if_neg hlist]
    exact Nat.zero_le _
  rw [if_pos hlist, weights_append, weights_files]
  refine Nat.le_trans (Nat.add_le_add_left (weights_directories_le repo p info _) _) ?_
  unfold filesIn dirsIn
  induction entries with
  | nil => simp [Node.sizes]
  | cons e es ih =>
    have hpos := e.2.size_pos
    simp only [List.filter_cons, Node.sizes]
    cases fs.entryIsDir (p.child e.1) e.2 <;>
      simp only [Bool.not_true, Bool.not_false, Bool.false_eq_true, if_true, if_false,
        Bool.true_and, Bool.false_and, List.length_cons]
    · omega
    · split
      · simp only [Node.sizes]
        omega
      · omega

theorem weights_startTasks_lt (repo : Option Git.Handle) (p : Path) (pending : Pending)
    (n : Option Node) : weights (startTasks fs repo p n) < weight ⟨pending, n⟩ := by
  unfold startTasks
  split
  · split <;> simp [weights, weight, Node.size]
  · rename_i entries info
    have := weights_listing_le fs repo p entries info
    simp only [weight, Node.size]
    omega
  · simpa [weights] using weight_pos ⟨pending, n⟩

theorem weight_expand_lt (o : Options) (t : Task) : weights (expand fs o t).2 < t.weight := by
  obtain ⟨pending, node⟩ := t
  cases pending with
  | start path =>
    simp only [expand]
    split
    · simpa [weights] using weight_pos _
    · split
      · simpa [weights] using weight_pos _
      · exact weights_startTasks_lt ..
  | directory repo p =>
    match node with
    | some (.dir entries info) =>
      have := weights_listing_le fs repo p entries info
      simp only [expand, weight, Node.size]
      omega
    | none | some (.file _) | some (.link _) => simpa [expand, weights] using weight_pos _
  | file repo p =>
    simp only [expand]
    split <;> simpa [weights] using weight_pos _

end Task

end CommentTags.Search

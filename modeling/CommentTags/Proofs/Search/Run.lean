import CommentTags.Proofs.Files.Walk
import CommentTags.Proofs.Git.Discovery
import CommentTags.Proofs.Search.Results

namespace CommentTags.Search

variable (fs : FileSystem) (o : Options)

@[simp] theorem runTasks_nil : runTasks fs o [] = [] := by
  rw [runTasks]

theorem runTasks_cons (t : Task) (ts : List Task) :
    runTasks fs o (t :: ts) = (t.expand fs o).1 ++ runTasks fs o ((t.expand fs o).2 ++ ts) := by
  rw [runTasks]

theorem runTasks_append (ts us : List Task) :
    runTasks fs o (ts ++ us) = runTasks fs o ts ++ runTasks fs o us := by
  induction ts using runTasks.induct fs o with
  | case1 => rw [List.nil_append, runTasks_nil, List.nil_append]
  | case2 t ts ih =>
    rw [List.cons_append, runTasks_cons, runTasks_cons, ← List.append_assoc, ih,
      List.append_assoc]

theorem runTasks_eq_flatMap (ts : List Task) :
    runTasks fs o ts =
      ts.flatMap fun t => (t.expand fs o).1 ++ runTasks fs o (t.expand fs o).2 := by
  induction ts with
  | nil => exact runTasks_nil fs o
  | cons t ts ih => rw [runTasks_cons, runTasks_append, ih, List.flatMap_cons, List.append_assoc]

def visit (repo : Option Git.Handle) (p : Path) : List Event :=
  fileEvents fs o (repo.map (·.connect fs)) p

def stepEvents (repo : Option Git.Handle) : WalkStep → List Event
  | .ok p => visit fs o repo p
  | .error e => [.failed (.path e)]

variable {fs} {p : Path} {entries : List (String × Node)} {info : DirInfo}

theorem runTasks_files (repo : Option Git.Handle) (p : Path) (es : List (String × Node)) :
    runTasks fs o (es.map fun e => ⟨.file repo (p.child e.1), none⟩) =
      (es.filterMap fun e => fileStep? fs (p.child e.1)).flatMap (stepEvents fs o repo) := by
  induction es with
  | nil => exact runTasks_nil fs o
  | cons e es ih =>
    have hexpand : ((⟨.file repo (p.child e.1), none⟩ : Task).expand fs o).1 ++
        runTasks fs o ((⟨.file repo (p.child e.1), none⟩ : Task).expand fs o).2 =
          (fileStep? fs (p.child e.1)).toList.flatMap (stepEvents fs o repo) := by
      rw [Task.expand]
      dsimp only
      cases hstep : fileStep? fs (p.child e.1) with
      | none => exact runTasks_nil fs o
      | some step =>
        cases step with
        | error e => rw [runTasks_nil]; rfl
        | ok q =>
          obtain ⟨rfl, -⟩ := fileStep?_eq_ok_iff.mp hstep
          rw [runTasks_nil]
          rfl
    rw [List.map_cons, runTasks_cons, runTasks_append, ih, ← List.append_assoc, hexpand,
      List.filterMap_cons]
    cases fileStep? fs (p.child e.1) with
    | none => rfl
    | some step =>
      rw [Option.toList_some, List.flatMap_cons, List.flatMap_nil, List.append_nil]
      rfl

theorem runTasks_listing (repo : Option Git.Handle) (p : Path) (entries : List (String × Node))
    (info : DirInfo) :
    runTasks fs o (Task.listing fs repo p entries info) =
      (walkDir fs p (.dir entries info)).flatMap (stepEvents fs o repo) := by
  generalize hnode : Node.dir entries info = n
  -- on the tree as the walk descends it
  induction p, n using walkDir.induct fs generalizing entries info with
  | case1 p es i hlist ih =>
    cases hnode
    rw [Task.listing, if_pos hlist, walkDir_dir, if_pos hlist, runTasks_append, runTasks_files,
      List.flatMap_append]
    congr 1
    rw [runTasks_eq_flatMap, List.flatMap_map]
    by_cases hsearch : i.searchable = true
    · rw [if_pos hsearch, List.flatMap_assoc]
      refine List.flatMap_congr fun e he => ?_
      rw [if_pos hsearch]
      cases hentry : e.2 with
      | file content => rw [Task.expand, walkDir_file]; exact runTasks_nil fs o
      | link target => rw [Task.expand, walkDir_link]; exact runTasks_nil fs o
      | dir es' i' =>
        have hbelow := ih e he es' i' hentry.symm
        rw [hentry] at hbelow
        rw [Task.expand, List.nil_append]
        exact hbelow
    · rw [if_neg hsearch]
      refine List.flatMap_eq_nil_iff.mpr fun e _ => ?_
      rw [if_neg hsearch, Task.expand]
      exact runTasks_nil fs o
  | case2 p es i hlist =>
    cases hnode
    rw [Task.listing, if_neg hlist, walkDir_dir, if_neg hlist]
    exact runTasks_nil fs o
  | case3 p n hne => exact absurd hnode.symm (hne entries info)

theorem run_flatMap (roots : List String) :
    run fs o roots = roots.flatMap fun root => run fs o [root] := by
  induction roots with
  | nil => exact runTasks_nil fs o
  | cons root roots ih =>
    rw [List.flatMap_cons, ← ih]
    exact runTasks_append fs o [_] _

theorem runTasks_startTasks (hstart : startRefusal? fs p = none) (repo : Option Git.Handle) :
    runTasks fs o (Task.startTasks fs repo p (fs.node? p)) =
      (walkSteps fs p).flatMap (stepEvents fs o repo) := by
  unfold walkSteps Task.startTasks
  rw [hstart]
  cases hn : fs.node? p with
  | none => exact runTasks_nil fs o
  | some n =>
    cases n with
    | link target => exact runTasks_nil fs o
    | dir entries info => exact runTasks_listing o repo p entries info
    | file content =>
      dsimp only
      cases hl : fs.isLink p with
      | true => exact runTasks_nil fs o
      | false =>
        have hplain : fs.isPlainFile p = true := by
          rw [FileSystem.isPlainFile, FileSystem.isFile, hn, hl]
          rfl
        rw [if_neg Bool.false_ne_true, if_neg Bool.false_ne_true, runTasks_cons, Task.expand]
        dsimp only
        rw [fileStep?_of_isPlainFile hplain, List.append_nil, runTasks_nil]
        rfl

variable (fs)

def openedFor (root : String) : Option Git.Handle :=
  match (Task.repositoryFor fs o root).1 with
  | .ok repo => repo
  | .error _ => none

/-- The steps of a search from one place. It does not get to walk if looking for a repository
fails. -/
def rootSteps (root : String) : List WalkStep :=
  match (Task.repositoryFor fs o root).1 with
  | .ok _ => walkSteps fs (.ofString root)
  | .error e => [.error e]

variable {fs} {root : String}

theorem run_singleton :
    run fs o [root] = (Task.repositoryFor fs o root).2.map .notice ++
      (rootSteps fs o root).flatMap (stepEvents fs o (openedFor fs o root)) := by
  rw [run, List.map_singleton, runTasks_cons, List.append_nil, Task.load, Task.expand, rootSteps,
    openedFor]
  dsimp only
  obtain ⟨answer, notices⟩ := Task.repositoryFor fs o root
  cases answer with
  | error e => rw [runTasks_nil, List.append_nil]; rfl
  | ok repo =>
    dsimp only
    cases hstart : startRefusal? fs (.ofString root) with
    | some e =>
      rw [walkSteps, hstart, runTasks_nil, List.append_nil]
      rfl
    | none =>
      dsimp only
      rw [runTasks_startTasks o hstart]

theorem rootSteps_eq (hfs : fs.root.WellFormed) :
    rootSteps fs o root = walkSteps fs (.ofString root) := by
  unfold rootSteps Task.repositoryFor
  split
  · rfl
  · rename_i e herror
    split at herror
    · have hnul := Git.hasNul_of_findRepository hfs herror
      rw [walkSteps, startRefusal?, hnul.1, hnul.2]
    · cases herror

def refusalEvents : Option PathError → List Event
  | none => []
  | some e => [.failed (.path e)]

theorem ofEvents_steps (repo : Option Git.Handle) (steps : List WalkStep) :
    Results.ofEvents (steps.flatMap (stepEvents fs o repo)) =
      Results.ofEvents ((untilError steps).1.flatMap (visit fs o repo) ++
        refusalEvents (untilError steps).2) := by
  have hfiles (files : List Path) : (files.map Except.ok).flatMap (stepEvents fs o repo) =
      files.flatMap (visit fs o repo) := List.flatMap_map ..
  obtain ⟨hnone, hsteps⟩ | ⟨e, rest, hsome, hsteps⟩ := untilError_cases steps
  · rw [hnone, hsteps, untilError_map_ok, hfiles, refusalEvents, List.append_nil]
  · rw [hsome, hsteps, untilError_map_ok_append, List.flatMap_append, List.flatMap_cons, hfiles,
      untilError, List.append_nil]
    refine Results.ofEvents_append_congr ?_ _
    exact Results.ofEvents_append_of_ne_none (Option.some_ne_none _)

theorem failure_refusalEvents (e : Option PathError) :
    (Results.ofEvents (refusalEvents e)).failure = none ↔ e = none := by
  cases e with
  | none => exact ⟨fun _ => rfl, fun _ => rfl⟩
  | some e => exact ⟨nofun, nofun⟩

theorem ofEvents_append_refusalEvents (es : List Event) (e : Option PathError) :
    Results.ofEvents (es ++ refusalEvents e) = ⟨(Results.ofEvents es).tags,
      (Results.ofEvents es).notices, (Results.ofEvents es).failure.or (e.map .path)⟩ := by
  cases hf : (Results.ofEvents es).failure with
  | none =>
    rw [Results.ofEvents_append_of_none hf]
    cases e <;> simp [refusalEvents, Results.ofEvents]
  | some f =>
    have hfailed : (Results.ofEvents es).failure ≠ none := by
      rw [hf]
      exact Option.some_ne_none f
    rw [Results.ofEvents_append_of_ne_none hfailed, Option.some_or, ← hf]

theorem ofEvents_append_refusal {es : List Event} (h : (Results.ofEvents es).failure = none)
    (e : Option PathError) :
    Results.ofEvents (es ++ refusalEvents e) =
      ⟨(Results.ofEvents es).tags, (Results.ofEvents es).notices, e.map .path⟩ := by
  rw [ofEvents_append_refusalEvents, h, Option.none_or]

/-- A search visits the files of the walk in their order, and ends as the walk does. -/
theorem ofEvents_run (hsteps : rootSteps fs o root = walkSteps fs (.ofString root)) :
    Results.ofEvents (run fs o [root]) =
      Results.ofEvents ((Task.repositoryFor fs o root).2.map .notice ++
        ((walk fs (.ofString root)).flatMap (visit fs o (openedFor fs o root)) ++
          refusalEvents (walkRefusal? fs (.ofString root)))) := by
  rw [run_singleton, hsteps]
  exact Results.ofEvents_append_congr (ofEvents_steps o _ _) _

def searchIn (fs : FileSystem) (o : Options) (r : Git.Repository) (root : String) : List Event :=
  (walk fs (.ofString root)).flatMap (fileEvents fs o (some r)) ++
    refusalEvents (walkRefusal? fs (.ofString root))

/-- That is what a search does once it has opened a repository. -/
theorem run_eq_searchIn {o : Options} (ho : o.usesGit = true) {h : Git.Handle}
    (hopen : Git.findRepository fs root = (.ok (some h), [])) :
    Results.ofEvents (run fs o [root]) = Results.ofEvents (searchIn fs o (h.connect fs) root) ∧
      (walkRefusal? fs (.ofString root) = none →
        run fs o [root] = searchIn fs o (h.connect fs) root) := by
  have hrepo : Task.repositoryFor fs o root = (.ok (some h), []) := by
    rw [Task.repositoryFor, if_pos ho, hopen]
  have hsteps : rootSteps fs o root = walkSteps fs (.ofString root) := by
    rw [rootSteps, hrepo]
  have hopened : openedFor fs o root = some h := by
    rw [openedFor, hrepo]
  constructor
  · rw [ofEvents_run o hsteps, hrepo, hopened]
    rfl
  · intro hnone
    obtain ⟨-, hok⟩ | ⟨e, rest, hsome, -⟩ := untilError_cases (walkSteps fs (.ofString root))
    · rw [run_singleton, hsteps, hrepo, hopened, hok, List.flatMap_map, searchIn, hnone,
        refusalEvents, List.append_nil]
      rfl
    · cases hnone.symm.trans hsome

end CommentTags.Search

import CommentTags.Proofs.Files.Overwritten
import CommentTags.Proofs.Search.Found
import CommentTags.Proofs.Search.Resumed

namespace CommentTags

namespace Search

open Results (ofEvents)

variable {fs : FileSystem} {p : Path} {ps : List Path} {later : List WalkStep}
  {ready : List Event} {ts : List Task}

def Pending.steps (fs : FileSystem) : Pending → List WalkStep
  | .start path => walkSteps fs (.ofString path)
  | .directory _ p =>
    match fs.nodeItself? p with
    | some n => walkDir fs p n
    | none => []
  | .file _ p => (fileStep? fs p).toList

def stepsToCome (fs : FileSystem) (ps : List Pending) : List WalkStep :=
  ps.flatMap (Pending.steps fs)

theorem stepsToCome_nil : stepsToCome fs [] = [] := rfl

theorem stepsToCome_append (ps qs : List Pending) :
    stepsToCome fs (ps ++ qs) = stepsToCome fs ps ++ stepsToCome fs qs :=
  List.flatMap_append

theorem stepsToCome_cons (q : Pending) (ps : List Pending) :
    stepsToCome fs (q :: ps) = q.steps fs ++ stepsToCome fs ps :=
  List.flatMap_cons

theorem stepsToCome_files (repo : Option Git.Handle) (es : List (String × Node)) :
    stepsToCome fs (es.map fun e => .file repo (p.child e.1)) =
      es.filterMap fun e => fileStep? fs (p.child e.1) := by
  rw [stepsToCome, List.flatMap_map, List.filterMap_eq_flatMap_toList]
  rfl

theorem stepsToCome_listing {loc : Location} {entries : List (String × Node)} {info : DirInfo}
    (repo : Option Git.Handle) (h : fs.lookup true p = .ok (loc, .dir entries info))
    (hn : (Node.dir entries info).WellFormed) :
    stepsToCome fs ((Task.listing fs repo p entries info).map Task.pending) =
      walkDir fs p (.dir entries info) := by
  rw [Task.listing, walkDir_dir]
  split
  swap
  · rfl
  rw [List.map_append, stepsToCome_append, List.map_map, List.map_map]
  congr 1
  · exact stepsToCome_files repo _
  · rw [stepsToCome, List.flatMap_map]
    cases hs : info.searchable with
    | true =>
      rw [if_pos rfl]
      refine List.flatMap_congr fun e he => ?_
      have hmem := mem_of_mem_dirsIn he
      have hself : fs.nodeItself? (p.child e.1) = some e.2 :=
        FileSystem.nodeItself?_eq_some_iff.mpr ⟨_, FileSystem.lookup_child h hs
          (hn.isEntryName_of_mem hmem) (Node.lookup_of_mem hn.nodup_names hmem) fun _ => rfl⟩
      simp only [Function.comp_apply, Pending.steps, hself]
    | false =>
      rw [if_neg Bool.false_ne_true]
      refine List.flatMap_eq_nil_iff.mpr fun e he => ?_
      have hname := hn.isEntryName_of_mem (mem_of_mem_dirsIn he)
      have hself : fs.nodeItself? (p.child e.1) = none := by
        rw [FileSystem.nodeItself?, FileSystem.lookup_child_of_unsearchable h hs hname]
        rfl
      simp only [Function.comp_apply, Pending.steps, hself]

theorem stepsToCome_startTasks (hfs : fs.root.WellFormed) (repo : Option Git.Handle)
    (hstart : startRefusal? fs p = none) :
    stepsToCome fs ((Task.startTasks fs repo p (fs.node? p)).map Task.pending) =
      walkSteps fs p := by
  unfold walkSteps Task.startTasks
  rw [hstart]
  cases hn : fs.node? p with
  | none => rfl
  | some n =>
    cases n with
    | link target => rfl
    | dir entries info =>
      obtain ⟨loc, h⟩ := FileSystem.node?_eq_some_iff.mp hn
      exact stepsToCome_listing repo h (FileSystem.lookup_wellFormed hfs h)
    | file content =>
      dsimp only
      cases hl : fs.isLink p with
      | true => rfl
      | false =>
        have hplain : fs.isPlainFile p = true := by
          rw [FileSystem.isPlainFile, FileSystem.isFile, hn, hl]
          rfl
        rw [if_neg Bool.false_ne_true, if_neg Bool.false_ne_true, List.map_singleton,
          stepsToCome_cons, Pending.steps, fileStep?_of_isPlainFile hplain]
        rfl

theorem Pending.steps_directory {repo : Option Git.Handle} {loc : Location} {n : Node}
    (h : fs.lookup false p = .ok (loc, n)) :
    (Pending.directory repo p).steps fs = walkDir fs p n := by
  rw [steps, FileSystem.nodeItself?_eq_some_iff.mpr ⟨loc, h⟩]

/-- Give the next tag, if need be from the next file that has one: the tag, what is left of its
file, and the steps of the walk behind it. -/
def advance (scan : Path → List Tag) : List Tag → List WalkStep →
    Except SearchError (Option Tag) × List Tag × List WalkStep
  | t :: ts, steps => (.ok (some t), ts, steps)
  | [], [] => (.ok none, [], [])
  | [], .ok p :: steps => advance scan (scan p) steps
  | [], .error e :: _ => (.error (.path e), [], [])

theorem advance_cons (scan : Path → List Tag) (t : Tag) (ts : List Tag) (steps : List WalkStep) :
    advance scan (t :: ts) steps = (.ok (some t), ts, steps) := by
  cases steps <;> rfl

theorem advance_nil_cons (scan : Path → List Tag) (p : Path) (steps : List WalkStep) :
    advance scan [] (.ok p :: steps) = advance scan (scan p) steps := by
  rw [advance]

theorem stepsToCome_expand_directory (hfs : fs.root.WellFormed) (repo : Option Git.Handle)
    (p : Path) :
    ∃ ts, Task.expand fs .withoutRepository ⟨.directory repo p, fs.nodeItself? p⟩ = ([], ts) ∧
      stepsToCome fs (ts.map Task.pending) = (Pending.directory repo p).steps fs := by
  cases hn : fs.nodeItself? p with
  | none => exact ⟨[], rfl, by rw [Pending.steps, hn]; rfl⟩
  | some n =>
    obtain ⟨loc, hself⟩ := FileSystem.nodeItself?_eq_some_iff.mp hn
    rw [Pending.steps_directory hself]
    cases n with
    | link target => exact ⟨[], rfl, by rw [walkDir_link]; rfl⟩
    | file content => exact ⟨[], rfl, by rw [walkDir_file]; rfl⟩
    | dir entries info =>
      have h := FileSystem.lookup_true_of_false hself rfl
      exact ⟨_, rfl, stepsToCome_listing repo h (FileSystem.lookup_wellFormed hfs h)⟩

/-- A piece of work makes the steps that the work it leaves makes, or it takes one of them
itself. -/
theorem advance_expand (hfs : fs.root.WellFormed) {t : Task} (ht : t.IsLoaded fs)
    (steps : List WalkStep) :
    let r := t.expand fs .withoutRepository
    ((ofEvents r.1).failure = none ∧
      advance (scanTags fs) [] (t.pending.steps fs ++ steps) =
        advance (scanTags fs) (ofEvents r.1).tags
          (stepsToCome fs (r.2.map Task.pending) ++ steps)) ∨
    ∃ e, r = ([.failed (.path e)], []) ∧ t.pending.steps fs = [.error e] := by
  obtain ⟨pending, node⟩ := t
  cases pending with
  | start path =>
    obtain rfl : fs.node? (.ofString path) = node := congrArg Task.node ht
    have hrepo : Task.repositoryFor fs .withoutRepository path = (.ok none, []) := rfl
    dsimp only [Task.expand, Pending.steps]
    rw [hrepo]
    dsimp only
    cases hstart : startRefusal? fs (.ofString path) with
    | some e => exact .inr ⟨e, rfl, by rw [walkSteps, hstart]⟩
    | none =>
      dsimp only
      rw [stepsToCome_startTasks hfs none hstart]
      exact .inl ⟨rfl, rfl⟩
  | directory repo p =>
    obtain rfl : fs.nodeItself? p = node := congrArg Task.node ht
    obtain ⟨ts, hexpand, hsteps⟩ := stepsToCome_expand_directory hfs repo p
    dsimp only
    rw [hexpand, hsteps]
    exact .inl ⟨rfl, rfl⟩
  | file repo p =>
    dsimp only [Task.expand, Pending.steps]
    cases hstep : fileStep? fs p with
    | none => exact .inl ⟨rfl, rfl⟩
    | some step =>
      cases step with
      | error e => exact .inr ⟨e, rfl, rfl⟩
      | ok q =>
        obtain ⟨rfl, -⟩ := fileStep?_eq_ok_iff.mp hstep
        have hevents : ofEvents (fileEvents fs .withoutRepository (repo.map (·.connect fs)) q) =
            ⟨scanTags fs q, readFailures fs q, none⟩ := ofEvents_visit_plain repo
        rw [Option.toList_some, List.singleton_append, advance_nil_cons]
        dsimp only
        rw [hevents, List.map_nil, stepsToCome_nil, List.nil_append]
        exact .inl ⟨rfl, by dsimp only⟩

theorem seek_eq_advance (hfs : fs.root.WellFormed) (hts : ∀ t ∈ ts, t.IsLoaded fs)
    (hready : (ofEvents ready).failure = none) :
    let r := seek fs .withoutRepository ready ts
    let a := advance (scanTags fs) (ofEvents ready).tags (stepsToCome fs (ts.map Task.pending))
    r.result = a.1 ∧ (ofEvents r.ready).failure = none ∧ (ofEvents r.ready).tags = a.2.1 ∧
      stepsToCome fs (r.tasks.map Task.pending) = a.2.2 := by
  fun_induction seek fs .withoutRepository ready ts with
  | case1 t es ts =>
    rw [ofEvents] at hready ⊢
    dsimp only
    rw [advance_cons]
    exact ⟨rfl, hready, rfl, rfl⟩
  | case2 n es ts p ih => exact ih hts hready
  | case3 => cases hready
  | case4 => exact ⟨rfl, rfl, rfl, rfl⟩
  | case5 t ts ih =>
    obtain ⟨ht, hts⟩ := List.forall_mem_cons.mp hts
    obtain ⟨hfailure, hadvance⟩ | ⟨e, hexpand, hsteps⟩ :=
      advance_expand hfs ht (stepsToCome fs (ts.map Task.pending))
    · have hloaded := Task.isLoaded_expand hfs .withoutRepository ht
      have hrest := ih (List.forall_mem_append.mpr ⟨hloaded, hts⟩) hfailure
      rw [List.map_append, stepsToCome_append, ← hadvance, ← stepsToCome_cons] at hrest
      exact hrest
    · rw [hexpand, seek, List.map_cons, stepsToCome_cons, hsteps]
      exact ⟨rfl, rfl, rfl, rfl⟩

/-- What happens while a search is under way: the next tag is asked for, or a file gets another
text. -/
inductive Turn where
  | next
  | overwrite (path : String) (text : List Char)
  deriving DecidableEq

def Turn.perform (fs : FileSystem) : Turn → FileSystem
  | next => fs
  | overwrite path text => fs.write (.ofString path) (Text.Utf8.encode text)

/-- The turns before request number `k` for a tag. Requests are counted from zero. -/
def turnsBefore : Nat → List Turn → List Turn
  | _, [] => []
  | 0, .next :: _ => []
  | k + 1, .next :: turns => .next :: turnsBefore k turns
  | k, .overwrite path text :: turns => .overwrite path text :: turnsBefore k turns

def filesAt (fs : FileSystem) (turns : List Turn) (k : Nat) : FileSystem :=
  (turnsBefore k turns).foldl Turn.perform fs

def Cursor.answers (fs : FileSystem) (c : Cursor) :
    List Turn → List (Except SearchError (Option Tag))
  | [] => []
  | .next :: turns => (c.next fs).1 :: answers fs (c.next fs).2.2 turns
  | .overwrite path text :: turns => answers ((Turn.overwrite path text).perform fs) c turns

/-- What is overwritten is a file already, and not the one with the last tag. -/
def Permitted (fs : FileSystem) (c : Cursor) (last : Option Tag) : List Turn → Prop
  | [] => True
  | .next :: turns =>
    Permitted fs (c.next fs).2.2 (((c.next fs).1.toOption.getD none).or last) turns
  | .overwrite path text :: turns =>
    (fs.isFile (.ofString path) = true ∧
      ∀ t ∈ last, fs.location? t.path ≠ fs.location? (.ofString path)) ∧
    Permitted ((Turn.overwrite path text).perform fs) c last turns

def OnlyFiles (fs : FileSystem) (turns : List Turn) : Prop :=
  ∀ path text, .overwrite path text ∈ turns → fs.isFile (.ofString path) = true

def lastText (fs : FileSystem) (p : Path) : List Turn → Option (List Char)
  | [] => none
  | .next :: turns => lastText fs p turns
  | .overwrite path text :: turns =>
    (lastText fs p turns).or
      (if fs.location? (.ofString path) = fs.location? p then some text else none)

variable {turns : List Turn} {path : String} {text : List Char} {c : Cursor} {last : Option Tag}

theorem Turn.perform_overwrite (hfs : fs.root.WellFormed)
    (h : fs.isFile (.ofString path) = true) (text : List Char) :
    (overwrite path text).perform fs = fs.rewrite fun loc old =>
      if fs.location? (.ofString path) = some loc then Text.Utf8.encode text else old :=
  FileSystem.write_eq_rewrite hfs h _

theorem Turn.wellFormed_perform (hfs : fs.root.WellFormed)
    (h : fs.isFile (.ofString path) = true) (text : List Char) :
    ((overwrite path text).perform fs).root.WellFormed := by
  rw [perform_overwrite hfs h]
  exact hfs.rewrite _

theorem Turn.denied_perform (hfs : fs.root.WellFormed)
    (h : fs.isFile (.ofString path) = true) (text : List Char) :
    ((overwrite path text).perform fs).denied = fs.denied := by
  rw [perform_overwrite hfs h]
  rfl

theorem OnlyFiles.induction {motive : FileSystem → List Turn → Prop}
    (hfs : fs.root.WellFormed) (h : OnlyFiles fs turns)
    (nil : ∀ fs, fs.root.WellFormed → motive fs [])
    (next : ∀ fs turns, fs.root.WellFormed → OnlyFiles fs turns → motive fs turns →
      motive fs (.next :: turns))
    (overwrite : ∀ fs path text turns, fs.root.WellFormed →
      fs.isFile (.ofString path) = true → OnlyFiles fs turns →
      motive ((Turn.overwrite path text).perform fs) turns →
      motive fs (.overwrite path text :: turns)) : motive fs turns := by
  induction turns generalizing fs with
  | nil => exact nil fs hfs
  | cons turn turns ih =>
    have htail : OnlyFiles fs turns := fun path text hmem =>
      h path text (List.mem_cons_of_mem turn hmem)
    cases turn with
    | next => exact next fs turns hfs htail (ih hfs htail)
    | overwrite path text =>
      have hfile := h path text List.mem_cons_self
      refine overwrite fs path text turns hfs hfile htail
        (ih (Turn.wellFormed_perform hfs hfile text) fun path' text' hmem => ?_)
      rw [Turn.perform_overwrite hfs hfile, FileSystem.isFile_rewrite]
      exact htail path' text' hmem

theorem onlyFiles_of_permitted (hfs : fs.root.WellFormed) (h : Permitted fs c last turns) :
    OnlyFiles fs turns := by
  induction turns generalizing fs c last with
  | nil => exact fun path text hmem => absurd hmem List.not_mem_nil
  | cons turn turns ih =>
    intro path text hmem
    cases turn with
    | next => exact ih hfs h path text (List.mem_of_ne_of_mem (by simp) hmem)
    | overwrite path' text' =>
      obtain ⟨⟨hfile, -⟩, hrest⟩ := h
      obtain heq | hmem := List.mem_cons.mp hmem
      · rwa [(Turn.overwrite.inj heq).1]
      · have htail := ih (Turn.wellFormed_perform hfs hfile text') hrest path text hmem
        rwa [Turn.perform_overwrite hfs hfile, FileSystem.isFile_rewrite] at htail

theorem lastText_congr {fs' : FileSystem} (h : ∀ q, fs'.location? q = fs.location? q) (p : Path)
    (turns : List Turn) : lastText fs' p turns = lastText fs p turns := by
  induction turns with
  | nil => rfl
  | cons turn turns ih =>
    cases turn with
    | next => exact ih
    | overwrite path text => rw [lastText, lastText, ih, h, h]

/-- What turns leave of a tree is the same tree with other texts. -/
structure SameTree (fs fs' : FileSystem) : Prop where
  walkSteps : ∀ p, walkSteps fs' p = walkSteps fs p
  denied : fs'.denied = fs.denied

theorem sameTree_perform (hfs : fs.root.WellFormed) (h : OnlyFiles fs turns) :
    SameTree fs (turns.foldl Turn.perform fs) := by
  refine h.induction (motive := fun fs turns => SameTree fs (turns.foldl Turn.perform fs)) hfs
    (fun fs _ => ⟨fun _ => rfl, rfl⟩) (fun fs turns _ _ ih => ih) ?_
  intro fs path text turns hfs hfile _ ih
  refine ⟨fun p => (ih.walkSteps p).trans ?_, ih.denied.trans (Turn.denied_perform hfs hfile text)⟩
  rw [Turn.perform_overwrite hfs hfile, walkSteps_rewrite]

theorem content?_overwrite (hfs : fs.root.WellFormed) (h : fs.isFile (.ofString path) = true)
    (hp : fs.isFile p = true) :
    ((Turn.overwrite path text).perform fs).content? p =
      ((if fs.location? (.ofString path) = fs.location? p then some text else none).map
        Text.Utf8.encode).or (fs.content? p) := by
  obtain ⟨loc, content, hlookup⟩ := FileSystem.isFile_eq_true_iff.mp hp
  have hlocation : fs.location? p = some loc := by
    rw [FileSystem.location?, hlookup]
    rfl
  have hcontent : fs.content? p = some content := by
    rw [FileSystem.content?, FileSystem.node?_eq_some_iff.mpr ⟨loc, hlookup⟩]
  rw [Turn.perform_overwrite hfs h, FileSystem.content?_rewrite, hlocation, hcontent]
  dsimp only [Option.bind_some, Option.map_some]
  split <;> rfl

theorem content?_perform (hfs : fs.root.WellFormed) (h : OnlyFiles fs turns)
    (hp : fs.isFile p = true) :
    (turns.foldl Turn.perform fs).content? p =
      ((lastText fs p turns).map Text.Utf8.encode).or (fs.content? p) := by
  refine h.induction (motive := fun fs turns => fs.isFile p = true →
    (turns.foldl Turn.perform fs).content? p =
      ((lastText fs p turns).map Text.Utf8.encode).or (fs.content? p)) hfs
    (fun fs _ _ => rfl) (fun fs turns _ _ ih => ih) ?_ hp
  intro fs path text turns hfs hfile _ ih hp
  have hperform := Turn.perform_overwrite hfs hfile text
  have htext : lastText ((Turn.overwrite path text).perform fs) p turns = lastText fs p turns :=
    lastText_congr (fun q => by rw [hperform, FileSystem.location?_rewrite]) p turns
  rw [List.foldl_cons, ih (by rwa [hperform, FileSystem.isFile_rewrite]), htext,
    content?_overwrite hfs hfile hp, lastText, Option.map_or, Option.or_assoc]

theorem Pending.steps_rewrite (f : Location → List UInt8 → List UInt8) (q : Pending) :
    q.steps (fs.rewrite f) = q.steps fs := by
  cases q with
  | start path => exact walkSteps_rewrite _
  | file repo p => rw [steps, steps, fileStep?_rewrite]
  | directory repo p =>
    rw [steps, steps, FileSystem.nodeItself?, FileSystem.nodeItself?, FileSystem.lookup_rewrite]
    cases fs.lookup false p with
    | error e => rfl
    | ok r => exact walkDir_rewrite p r.2 _

theorem stepsToCome_rewrite (f : Location → List UInt8 → List UInt8) (ps : List Pending) :
    stepsToCome (fs.rewrite f) ps = stepsToCome fs ps :=
  List.flatMap_congr fun q _ => q.steps_rewrite f

/-- What is left of the file that was read last, and the steps of the walk behind it. -/
structure Cursor.StandsAt (fs : FileSystem) (c : Cursor) (ts : List Tag)
    (steps : List WalkStep) : Prop where
  options : c.options = .withoutRepository
  failure : (ofEvents c.ready).failure = none
  tags : (ofEvents c.ready).tags = ts
  steps : stepsToCome fs c.pending = steps

namespace Cursor.StandsAt

variable {tags : List Tag}

theorem start (fs : FileSystem) (root : String) :
    (Cursor.start .withoutRepository [root]).StandsAt fs [] (walkSteps fs (.ofString root)) :=
  ⟨rfl, rfl, rfl, List.append_nil _⟩

theorem overwrite (hfs : fs.root.WellFormed) (hfile : fs.isFile (.ofString path) = true)
    (h : c.StandsAt fs tags later) (text : List Char) :
    c.StandsAt ((Turn.overwrite path text).perform fs) tags later := by
  refine ⟨h.options, h.failure, h.tags, ?_⟩
  rw [Turn.perform_overwrite hfs hfile, stepsToCome_rewrite, h.steps]

theorem next (hfs : fs.root.WellFormed) (h : c.StandsAt fs tags later) :
    let a := advance (scanTags fs) tags later
    (c.next fs).1 = a.1 ∧ (c.next fs).2.2.StandsAt fs a.2.1 a.2.2 := by
  have hloaded : ∀ t ∈ c.tasks fs, t.IsLoaded fs := by
    intro t ht
    obtain ⟨q, -, rfl⟩ := List.mem_map.mp ht
    exact Task.isLoaded_load fs q
  have hpending : (c.tasks fs).map Task.pending = c.pending := by
    rw [tasks, List.map_map]
    exact (List.map_congr_left fun q _ => by cases q <;> rfl).trans (List.map_id _)
  obtain ⟨hresult, hfailure, htags, hsteps⟩ := seek_eq_advance hfs hloaded h.failure
  rw [hpending, h.tags, h.steps] at hresult htags hsteps
  rw [← h.options] at hresult hfailure htags hsteps
  exact ⟨hresult, h.options, hfailure, htags, hsteps⟩

end Cursor.StandsAt

/-- The files with the requests at which they are opened, when `k` tags have been given before: each
at the first request that gets past the last tag of the files before it. What a file gives depends
on the request. -/
def openings (scan : Nat → Path → List Tag) (k : Nat) : List Path → List (Path × Nat)
  | [] => []
  | p :: ps => (p, k) :: openings scan (k + (scan k p).length) ps

def openedTags (scan : Nat → Path → List Tag) (k : Nat) (ps : List Path) : List Tag :=
  (openings scan k ps).flatMap fun e => scan e.2 e.1

variable {scan scan' : Nat → Path → List Tag} {k : Nat} {tags : List Tag}

theorem openedTags_cons (scan : Nat → Path → List Tag) (k : Nat) (p : Path) (ps : List Path) :
    openedTags scan k (p :: ps) = scan k p ++ openedTags scan (k + (scan k p).length) ps := by
  rw [openedTags, openings, List.flatMap_cons, ← openedTags]

theorem map_fst_openings (scan : Nat → Path → List Tag) (k : Nat) (ps : List Path) :
    (openings scan k ps).map Prod.fst = ps := by
  induction ps generalizing k with
  | nil => rfl
  | cons p ps ih => rw [openings, List.map_cons, ih]

theorem fst_mem_of_mem_openings {e : Path × Nat} (he : e ∈ openings scan k ps) : e.1 ∈ ps := by
  have h := List.mem_map_of_mem (f := Prod.fst) he
  rwa [map_fst_openings] at h

theorem eq_of_mem_openings {e e' : Path × Nat} (hps : ps.Nodup) (he : e ∈ openings scan k ps)
    (he' : e' ∈ openings scan k ps) (h : e.1 = e'.1) : e = e' := by
  rw [← map_fst_openings scan k ps] at hps
  exact List.inj_on_of_nodup_map hps he he' h

theorem openedTags_succ (scan : Nat → Path → List Tag) (k : Nat) (ps : List Path) :
    openedTags scan (k + 1) ps = openedTags (fun k => scan (k + 1)) k ps := by
  induction ps generalizing k with
  | nil => rfl
  | cons p ps ih => rw [openedTags_cons, openedTags_cons, ← ih, Nat.add_right_comm]

/-- The answer to request number `k` when these are all tags to come. If the walk ends over a path,
that is said once, in the place of the tag that there is not. -/
def answerAt (tags : List Tag) (refusal : Option PathError) (k : Nat) :
    Except SearchError (Option Tag) :=
  match refusal with
  | none => .ok tags[k]?
  | some e => if k = tags.length then .error (.path e) else .ok tags[k]?

theorem answerAt_cons_zero (t : Tag) (tags : List Tag) (refusal : Option PathError) :
    answerAt (t :: tags) refusal 0 = .ok (some t) := by
  cases refusal with
  | none => rfl
  | some e => rw [answerAt, List.length_cons, if_neg (Nat.succ_ne_zero _).symm]; rfl

theorem answerAt_cons_succ (t : Tag) (tags : List Tag) (refusal : Option PathError) (k : Nat) :
    answerAt (t :: tags) refusal (k + 1) = answerAt tags refusal k := by
  cases refusal with
  | none => rfl
  | some e => simp only [answerAt, List.length_cons, Nat.add_right_cancel_iff,
      List.getElem?_cons_succ]

theorem answerAt_advance (scan : Nat → Path → List Tag) (tags : List Tag)
    (steps : List WalkStep) :
    let a := advance (scan 0) tags steps
    answerAt (tags ++ openedTags scan tags.length (untilError steps).1) (untilError steps).2 0 =
        a.1 ∧
      ∀ k, answerAt (tags ++ openedTags scan tags.length (untilError steps).1)
          (untilError steps).2 (k + 1) =
        answerAt (a.2.1 ++ openedTags (fun k => scan (k + 1)) a.2.1.length (untilError a.2.2).1)
          (untilError a.2.2).2 k := by
  fun_induction advance (scan 0) tags steps with
  | case1 t tags steps =>
    rw [List.length_cons, openedTags_succ, List.cons_append]
    exact ⟨answerAt_cons_zero .., answerAt_cons_succ _ _ _⟩
  | case2 => exact ⟨rfl, fun k => rfl⟩
  | case3 p steps ih =>
    rw [List.nil_append, List.length_nil, untilError, openedTags_cons, Nat.zero_add]
    exact ih
  | case4 e steps =>
    refine ⟨rfl, fun k => ?_⟩
    simp [untilError, openedTags, openings, answerAt]

theorem openedTags_congr (ps : List Path)
    (h : ∀ e ∈ openings scan k ps, scan e.2 e.1 = scan' e.2 e.1) :
    openedTags scan k ps = openedTags scan' k ps := by
  induction ps generalizing k with
  | nil => rfl
  | cons p ps ih =>
    obtain ⟨hp, hps⟩ := List.forall_mem_cons.mp h
    have hscan : scan k p = scan' k p := hp
    rw [openedTags_cons, openedTags_cons, ← hscan, ih hps]

def scanAt (fs : FileSystem) (turns : List Turn) (k : Nat) : Path → List Tag :=
  scanTags (filesAt fs turns k)

/-- The answers to the requests are the tags of the files as they are when they are opened. -/
theorem answers_eq (hfs : fs.root.WellFormed) (h : OnlyFiles fs turns)
    (hc : c.StandsAt fs tags later) :
    c.answers fs turns = (List.range (turns.count .next)).map
      (answerAt (tags ++ openedTags (scanAt fs turns) tags.length (untilError later).1)
        (untilError later).2) := by
  refine h.induction (motive := fun fs turns =>
    ∀ {c : Cursor} {tags : List Tag} {later : List WalkStep}, c.StandsAt fs tags later →
      c.answers fs turns = (List.range (turns.count .next)).map
        (answerAt (tags ++ openedTags (scanAt fs turns) tags.length (untilError later).1)
          (untilError later).2)) hfs
    (fun _ _ _ _ _ _ => rfl) ?_ ?_ hc
  · intro fs turns hfs _ ih c tags later hc
    obtain ⟨hresult, hrest⟩ := hc.next hfs
    obtain ⟨hfirst, hothers⟩ := answerAt_advance (scanAt fs (.next :: turns)) tags later
    rw [Cursor.answers, ih hrest, hresult, List.count_cons_self, List.range_succ_eq_map,
      List.map_cons, List.map_map, hfirst]
    congr 1
    refine List.map_congr_left fun k _ => ?_
    rw [Function.comp_apply, Nat.succ_eq_add_one, hothers]
    rfl
  · intro fs path text turns hfs hfile _ ih c tags later hc
    rw [Cursor.answers, ih (hc.overwrite hfs hfile text), List.count_cons_of_ne (by simp)]
    rfl

variable {before after turns' : List Turn} {root : String}

theorem turnsBefore_subset (k : Nat) (turns : List Turn) : turnsBefore k turns ⊆ turns := by
  fun_induction turnsBefore k turns with
  | case1 => exact List.nil_subset _
  | case2 => exact List.nil_subset _
  | case3 k turns ih => exact List.cons_subset_cons _ ih
  | case4 k path text turns ih => exact List.cons_subset_cons _ ih

theorem OnlyFiles.subset (h : OnlyFiles fs turns) (hturns : turns' ⊆ turns) :
    OnlyFiles fs turns' :=
  fun path text hmem => h path text (hturns hmem)

theorem turnsBefore_append (h : k < before.count .next) (after : List Turn) :
    turnsBefore k (before ++ after) = turnsBefore k before := by
  induction before generalizing k with
  | nil => exact absurd h (Nat.not_lt_zero k)
  | cons turn before ih =>
    cases turn with
    | next =>
      cases k with
      | zero => rfl
      | succ k =>
        rw [List.count_cons_self, Nat.add_lt_add_iff_right] at h
        rw [List.cons_append, turnsBefore, turnsBefore, ih h]
    | overwrite path text =>
      rw [List.count_cons_of_ne (by simp)] at h
      rw [List.cons_append, turnsBefore, turnsBefore, ih h]

theorem lastText_overwrite_of_ne (h : fs.location? (.ofString path) ≠ fs.location? p)
    (text : List Char) (k : Nat) (before after : List Turn) :
    lastText fs p (turnsBefore k (before ++ .overwrite path text :: after)) =
      lastText fs p (turnsBefore k (before ++ after)) := by
  induction before generalizing k with
  | nil => rw [List.nil_append, turnsBefore, lastText, if_neg h, Option.or_none, List.nil_append]
  | cons turn before ih =>
    cases turn with
    | next =>
      cases k with
      | zero => rfl
      | succ k => exact ih k
    | overwrite path' text' =>
      rw [List.cons_append, List.cons_append, turnsBefore, turnsBefore, lastText, lastText, ih]

theorem content?_filesAt (hfs : fs.root.WellFormed) (h : OnlyFiles fs turns)
    (hp : p ∈ walk fs (.ofString root)) (k : Nat) :
    (filesAt fs turns k).content? p =
      ((lastText fs p (turnsBefore k turns)).map Text.Utf8.encode).or (fs.content? p) := by
  obtain ⟨loc, more, content, -, -, hlookup⟩ := lookup_of_mem_walk hfs hp
  exact content?_perform hfs (h.subset (turnsBefore_subset k turns))
    (FileSystem.isFile_eq_true_iff.mpr ⟨_, content, hlookup⟩)

theorem sameTree_filesAt (hfs : fs.root.WellFormed) (h : OnlyFiles fs turns) (k : Nat) :
    SameTree fs (filesAt fs turns k) :=
  sameTree_perform hfs (h.subset (turnsBefore_subset k turns))

theorem scanAt_congr (hfs : fs.root.WellFormed) (h : OnlyFiles fs turns)
    (h' : OnlyFiles fs turns') (hp : p ∈ walk fs (.ofString root))
    (htext : lastText fs p (turnsBefore k turns) = lastText fs p (turnsBefore k turns')) :
    scanAt fs turns k p = scanAt fs turns' k p := by
  have hdenied := (sameTree_filesAt hfs h k).denied
  refine scanTags_congr (hdenied.trans (sameTree_filesAt hfs h' k).denied.symm) ?_
  rw [content?_filesAt hfs h hp, content?_filesAt hfs h' hp, htext]

/-- A cursor takes nothing from the files until it is asked. -/
theorem answers_append (h : .next ∉ before) (fs : FileSystem) (c : Cursor) (after : List Turn) :
    c.answers fs (before ++ after) = c.answers (before.foldl Turn.perform fs) after := by
  induction before generalizing fs with
  | nil => rfl
  | cons turn before ih =>
    obtain ⟨hturn, hbefore⟩ := List.ne_and_not_mem_of_not_mem_cons h
    cases turn with
    | next => exact absurd rfl hturn
    | overwrite path text =>
      rw [List.cons_append, Cursor.answers, ih hbefore]
      rfl

/-- What a search makes of files that are overwritten between its tags. -/
structure ReadsInTurn (fs : FileSystem) (root : String) (turns : List Turn) : Prop where
  /-- The search comes to the files that it would have come to anyway. -/
  walk_eq : ∀ k, walk (filesAt fs turns k) (.ofString root) = walk fs (.ofString root) ∧
    walkRefusal? (filesAt fs turns k) (.ofString root) = walkRefusal? fs (.ofString root)
  answers : (Cursor.start .withoutRepository [root]).answers fs turns =
    (List.range (turns.count .next)).map
      (answerAt (openedTags (scanAt fs turns) 0 (walk fs (.ofString root)))
        (walkRefusal? fs (.ofString root)))
  untouched : ∀ k, ∀ p ∈ walk fs (.ofString root),
    lastText fs p (turnsBefore k turns) = none → scanAt fs turns k p = scanTags fs p
  overwritten : ∀ k, ∀ p ∈ walk fs (.ofString root), p.toString ∉ fs.denied →
    ∀ text, lastText fs p (turnsBefore k turns) = some text →
      scanAt fs turns k p = fileTags (fun _ => text) p
  /-- Once a file has been opened and left, it may as well not be overwritten. -/
  left : ∀ before path text after, turns = before ++ .overwrite path text :: after →
    ∀ e ∈ openings (scanAt fs turns) 0 (walk fs (.ofString root)), e.2 < before.count .next →
      fs.location? e.1 = fs.location? (.ofString path) →
        (Cursor.start .withoutRepository [root]).answers fs (before ++ after) =
          (Cursor.start .withoutRepository [root]).answers fs turns
  /-- Nothing is read when the search is started: it may as well be started once the files have been
  overwritten. -/
  started : ∀ before after, turns = before ++ after → .next ∉ before →
    (Cursor.start .withoutRepository [root]).answers fs turns =
      (Cursor.start .withoutRepository [root]).answers (before.foldl Turn.perform fs) after

theorem answers_start (hfs : fs.root.WellFormed) (h : OnlyFiles fs turns) (root : String) :
    (Cursor.start .withoutRepository [root]).answers fs turns =
      (List.range (turns.count .next)).map
        (answerAt (openedTags (scanAt fs turns) 0 (walk fs (.ofString root)))
          (walkRefusal? fs (.ofString root))) := by
  rw [answers_eq hfs h (Cursor.StandsAt.start fs root)]
  rfl

theorem answers_without_overwrite (hfs : fs.root.WellFormed)
    (hturns : turns = before ++ .overwrite path text :: after) (h : OnlyFiles fs turns)
    {e : Path × Nat} (he : e ∈ openings (scanAt fs turns) 0 (walk fs (.ofString root)))
    (hlt : e.2 < before.count .next)
    (hlocation : fs.location? e.1 = fs.location? (.ofString path)) :
    (Cursor.start .withoutRepository [root]).answers fs (before ++ after) =
      (Cursor.start .withoutRepository [root]).answers fs turns := by
  have hsubset : before ++ after ⊆ turns := by
    rw [hturns]
    exact List.append_subset.mpr ⟨List.subset_append_left _ _,
      List.Subset.trans (List.subset_cons_self _ _) (List.subset_append_right _ _)⟩
  have hcount : turns.count .next = (before ++ after).count .next := by
    rw [hturns, List.count_append, List.count_cons_of_ne Turn.noConfusion, List.count_append]
  have hscan : ∀ e' ∈ openings (scanAt fs turns) 0 (walk fs (.ofString root)),
      scanAt fs turns e'.2 e'.1 = scanAt fs (before ++ after) e'.2 e'.1 := by
    intro e' he'
    refine scanAt_congr hfs h (h.subset hsubset) (fst_mem_of_mem_openings he') ?_
    rw [hturns]
    -- either it is opened before the overwriting, or it is not the file that is overwritten
    by_cases hlt' : e'.2 < before.count .next
    · rw [turnsBefore_append hlt', turnsBefore_append hlt']
    · refine lastText_overwrite_of_ne (fun heq => hlt' ?_) text _ _ _
      have hpath := location?_inj hfs (fst_mem_of_mem_openings he) (fst_mem_of_mem_openings he')
        (hlocation.trans heq)
      rwa [← eq_of_mem_openings (walk_nodup hfs _) he he' hpath]
  rw [answers_start hfs (h.subset hsubset), answers_start hfs h, hcount, openedTags_congr _ hscan]

/-- Each file is read as it is when the search comes to it. -/
theorem files_read_in_turn (fs : FileSystem) (root : String) (turns : List Turn)
    (hfs : fs.root.WellFormed)
    (hturns : Permitted fs (Cursor.start .withoutRepository [root]) none turns) :
    ReadsInTurn fs root turns := by
  have h := onlyFiles_of_permitted hfs hturns
  constructor
  case walk_eq =>
    intro k
    rw [walk, walkRefusal?, (sameTree_filesAt hfs h k).walkSteps]
    exact ⟨rfl, rfl⟩
  case answers => exact answers_start hfs h root
  case untouched =>
    intro k p hp htext
    refine scanTags_congr (sameTree_filesAt hfs h k).denied ?_
    rw [content?_filesAt hfs h hp, htext]
    rfl
  case overwritten =>
    intro k p hp hopen text htext
    refine scanTags_of_hasText ⟨?_, ?_⟩
    · rwa [(sameTree_filesAt hfs h k).denied]
    · rw [content?_filesAt hfs h hp, htext]
      rfl
  case left =>
    intro before path text after heq e he hlt hlocation
    exact answers_without_overwrite hfs heq h he hlt hlocation
  case started =>
    rintro before after rfl hnext
    exact answers_append hnext fs _ after

theorem Cursor.StandsAt.permitted_next (hfs : fs.root.WellFormed) (h : c.StandsAt fs tags later) :
    Permitted fs c last (.next :: turns) ↔
      Permitted fs (c.next fs).2.2
        (((advance (scanTags fs) tags later).1.toOption.getD none).or last) turns := by
  rw [Permitted, (h.next hfs).1]

def lateTurns : List Turn :=
  [.next, .overwrite "b/b.rs" "// FIXME: late".toList, .next, .overwrite "a.c" [], .next]

theorem scanTags_smallTree : scanTags smallTree ⟨.here, ["a.c"]⟩ =
    [⟨⟨.here, ["a.c"]⟩, 1, .todo, "a", none⟩] := by
  have htext := hasText_smallTree "." List.mem_cons_self ⟨.here, ["a.c"]⟩
    (by rw [walk_smallTree]; exact List.mem_cons_self) (by decide)
  rw [scanTags_of_hasText htext, fileTags_eq]
  cbv

theorem fileTags_late : fileTags (fun _ => "// FIXME: late".toList) ⟨.here, ["b", "b.rs"]⟩ =
    [⟨⟨.here, ["b", "b.rs"]⟩, 1, .fix, "late", none⟩] := by
  rw [fileTags_eq]
  cbv

theorem permitted_lateTurns :
    Permitted smallTree (Cursor.start .withoutRepository ["."]) none lateTurns := by
  have hwf : smallTree.root.WellFormed := by decide
  have hfile : smallTree.isFile (.ofString "b/b.rs") = true := by cbv
  have hstart := Cursor.StandsAt.start smallTree "."
  have hfirst := (hstart.next hwf).2
  rw [lateTurns, hstart.permitted_next hwf]
  generalize ((Cursor.start .withoutRepository ["."]).next smallTree).2.2 = c at hfirst ⊢
  rw [walkSteps_smallTree, List.map_cons, advance_nil_cons, scanTags_smallTree, advance_cons]
    at hfirst ⊢
  refine ⟨⟨hfile, fun t ht => ?_⟩, ?_⟩
  · obtain rfl := Option.some.inj ht
    exact of_decide_eq_false (by cbv)
  · have hlate := hfirst.overwrite hwf hfile "// FIXME: late".toList
    have htext : ((Turn.overwrite "b/b.rs" "// FIXME: late".toList).perform smallTree).HasText
        ⟨.here, ["b", "b.rs"]⟩ "// FIXME: late".toList :=
      ⟨Turn.denied_perform hwf hfile _ ▸ List.not_mem_nil, by cbv⟩
    rw [hlate.permitted_next (Turn.wellFormed_perform hwf hfile _), List.map_cons,
      advance_nil_cons,
      scanTags_of_hasText htext, fileTags_late, advance_cons]
    refine ⟨⟨by cbv, fun t ht => ?_⟩, trivial⟩
    obtain rfl := Option.some.inj ht
    exact of_decide_eq_false (by cbv)

theorem smallTree_readsInTurn :
    smallTree.root.WellFormed ∧
    Permitted smallTree (Cursor.start .withoutRepository ["."]) none lateTurns ∧
    ReadsInTurn smallTree "." lateTurns ∧
    (Cursor.start .withoutRepository ["."]).answers smallTree lateTurns =
      [.ok (some ⟨⟨.here, ["a.c"]⟩, 1, .todo, "a", none⟩),
        .ok (some ⟨⟨.here, ["b", "b.rs"]⟩, 1, .fix, "late", none⟩), .ok none] := by
  have hwf : smallTree.root.WellFormed := by decide
  have hread := files_read_in_turn smallTree "." lateTurns hwf permitted_lateTurns
  refine ⟨hwf, permitted_lateTurns, hread, ?_⟩
  have ha : scanAt smallTree lateTurns 0 ⟨.here, ["a.c"]⟩ =
      [⟨⟨.here, ["a.c"]⟩, 1, .todo, "a", none⟩] := by
    rw [hread.untouched 0 _ (by rw [walk_smallTree]; decide) rfl, scanTags_smallTree]
  have hb : scanAt smallTree lateTurns 1 ⟨.here, ["b", "b.rs"]⟩ =
      [⟨⟨.here, ["b", "b.rs"]⟩, 1, .fix, "late", none⟩] := by
    rw [hread.overwritten 1 _ (by rw [walk_smallTree]; decide) (by decide)
      "// FIXME: late".toList (by cbv), fileTags_late]
  have hother : scanAt smallTree lateTurns 2 ⟨.here, ["b", "b.txt"]⟩ = [] :=
    scanTags_of_not_isSource (by decide)
  have htags : openedTags (scanAt smallTree lateTurns) 0 (walk smallTree (.ofString ".")) =
      [⟨⟨.here, ["a.c"]⟩, 1, .todo, "a", none⟩,
        ⟨⟨.here, ["b", "b.rs"]⟩, 1, .fix, "late", none⟩] := by
    simp only [walk_smallTree, openedTags_cons, ha, List.length_singleton, Nat.zero_add, hb, hother]
    rfl
  rw [hread.answers, htags, walkRefusal?_smallTree]
  rfl

end Search

end CommentTags

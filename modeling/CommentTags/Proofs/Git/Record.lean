import CommentTags.Git.Record
import CommentTags.Proofs.Files.Edit

namespace CommentTags

variable {fs fs' : FileSystem} {p : Path} {loc : Location}

namespace Git

theorem freshEntries_wellFormed (bare : Bool) :
    ∀ e ∈ freshEntries bare, IsEntryName e.1 ∧ e.2.WellFormed := by
  apply (Node.checks_iff _).mp
  cases bare <;> decide

theorem foldl_setEntry_wellFormed {es entries : List (String × Node)} {info : DirInfo}
    (hes : ∀ e ∈ es, IsEntryName e.1 ∧ e.2.WellFormed) (h : (Node.dir entries info).WellFormed) :
    (Node.dir (es.foldl (fun es e => Node.setEntry e.1 e.2 es) entries) info).WellFormed := by
  induction es generalizing entries with
  | nil => exact h
  | cons e es ih =>
    obtain ⟨⟨hname, hnode⟩, hes⟩ := List.forall_mem_cons.mp hes
    exact ih hes (h.setEntry hname hnode info)

theorem getD_wellFormed {root : Node} (h : root.WellFormed) :
    ((root.get? loc).getD .emptyDir).WellFormed := by
  cases hn : root.get? loc with
  | none => exact .dir_nil {}
  | some n => exact (h.get? hn).1

theorem proper_gitDir {bare : Bool} (h : Proper loc) :
    Proper (if bare then loc else loc ++ [".git"]) := by
  split
  · exact h
  · exact h.concat (by decide)

theorem init_wellFormed (h : fs.WellFormed) (hp : p.Normal) (bare : Bool) :
    (init fs p bare).WellFormed := by
  have hdir : (fs.makeDir p).WellFormed := h.makeDir hp
  have hgit : Proper (if bare then (fs.makeDir p).targetOf p
      else (fs.makeDir p).targetOf p ++ [".git"]) :=
    proper_gitDir (hdir.targetOf hp)
  unfold init
  dsimp only
  generalize (if bare = true then _ else _ : Location) = gitDir at hgit ⊢
  split
  · exact hdir
  · refine hdir.put hgit (foldl_setEntry_wellFormed (freshEntries_wellFormed bare) ?_)
    exact (getD_wellFormed hdir.root).dir_entries _

theorem openAt?_proper {handle : Handle} (hloc : Proper loc) (h : openAt? fs loc = some handle) :
    Proper handle.gitDir := by
  unfold openAt? at h
  dsimp only at h
  split at h
  · obtain rfl := Option.some.inj h
    split <;> exact hloc.concat (by decide)
  · obtain rfl := Option.some.inj h
    split <;> exact hloc
  · cases h

theorem applyToDisk_wellFormed (h : fs.WellFormed) (hp : p.Normal) {c : Change}
    (hc : c.1.Normal) : (applyToDisk p fs c).WellFormed := by
  have hfile : Path.Normal { p with names := p.names ++ c.1.names } :=
    List.forall_mem_append.mpr ⟨hp, hc⟩
  unfold applyToDisk
  dsimp only
  split
  · exact h.remove _
  · exact h.write hfile _

theorem foldl_applyToDisk_wellFormed (h : fs.WellFormed) (hp : p.Normal) {changes : List Change}
    (hchanges : ∀ c ∈ changes, c.1.Normal) : (changes.foldl (applyToDisk p) fs).WellFormed := by
  induction changes generalizing fs with
  | nil => exact h
  | cons c changes ih =>
    obtain ⟨hc, hchanges⟩ := List.forall_mem_cons.mp hchanges
    exact ih (applyToDisk_wellFormed h hp hc) hchanges

theorem commit_wellFormed (h : fs.WellFormed) (hp : p.Normal) {changes : List Change}
    (hchanges : ∀ c ∈ changes, c.1.Normal) (author : List UInt8) (seconds offset : Int) :
    (commit fs p changes author seconds offset).WellFormed := by
  have hdisk := foldl_applyToDisk_wellFormed h hp hchanges
  unfold commit
  dsimp only
  split
  · exact hdisk
  · rename_i handle hopen
    have hgit : Proper handle.gitDir := openAt?_proper (hdisk.targetOf hp) hopen
    exact hdisk.put hgit ((getD_wellFormed hdisk.root).dir_entries _)

end Git

namespace FileSystem

/-- One change to a file system, with paths in normal form. -/
inductive Step (fs : FileSystem) : FileSystem → Prop
  | write {p : Path} (hp : p.Normal) (content : List UInt8) : Step fs (fs.write p content)
  | makeDir {p : Path} (hp : p.Normal) : Step fs (fs.makeDir p)
  | makeLink {p : Path} (hp : p.Normal) (target : String) : Step fs (fs.makeLink p target)
  | remove (p : Path) : Step fs (fs.remove p)
  | rename (p : Path) {q : Path} (hq : q.Normal) : Step fs (fs.rename p q)
  | setAccess (p : Path) (listable searchable : Bool) : Step fs (fs.setAccess p listable searchable)
  | changeDir (p : Path) : Step fs (fs.changeDir p)
  | deny (p : Path) : Step fs (fs.deny p)
  | init {p : Path} (hp : p.Normal) (bare : Bool) : Step fs (Git.init fs p bare)
  | commit {p : Path} (hp : p.Normal) {changes : List Git.Change}
    (hchanges : ∀ c ∈ changes, c.1.Normal) (author : List UInt8) (seconds offset : Int) :
    Step fs (Git.commit fs p changes author seconds offset)

/-- The file systems that changes lead to, from one that holds no more than a directory to be in. -/
inductive Reachable : FileSystem → Prop
  | start {loc : Location} (h : ∀ name ∈ loc, IsEntryName name) :
    Reachable ⟨Node.emptyDir.set loc .emptyDir, loc, []⟩
  | step {fs fs' : FileSystem} (h : Reachable fs) (hs : Step fs fs') : Reachable fs'

theorem WellFormed.step (h : fs.WellFormed) (hs : Step fs fs') : fs'.WellFormed := by
  cases hs with
  | write hp content => exact h.write hp content
  | makeDir hp => exact h.makeDir hp
  | makeLink hp target => exact h.makeLink hp target
  | remove p => exact h.remove p
  | rename p hq => exact h.rename p hq
  | setAccess p listable searchable => exact h.setAccess p listable searchable
  | changeDir p => exact h.changeDir p
  | deny p => exact h.deny p
  | init hp bare => exact Git.init_wellFormed h hp bare
  | commit hp hchanges author seconds offset =>
    exact Git.commit_wellFormed h hp hchanges author seconds offset

theorem Reachable.wellFormed (h : Reachable fs) : fs.WellFormed := by
  induction h with
  | start hloc =>
    exact ⟨(Node.WellFormed.dir_nil {}).set hloc (.dir_nil {}), fun n hn => (hloc n hn).toIsName⟩
  | step _ hs ih => exact ih.step hs

end FileSystem

end CommentTags

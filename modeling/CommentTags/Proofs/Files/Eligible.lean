import CommentTags.Proofs.Files.Walk

namespace CommentTags

namespace FileSystem

def isPlainDir (fs : FileSystem) (p : Path) : Bool :=
  fs.isDir p && !fs.isLink p

def isListable (fs : FileSystem) (p : Path) : Bool :=
  match fs.node? p with
  | some (.dir _ info) => info.listable
  | _ => false

/-- An entry, itself no directory, of a directory that may not be searched. -/
def Barred (fs : FileSystem) (p : Path) : Prop :=
  ∃ q name entries info node, p = Path.child q name ∧ fs.node? q = some (.dir entries info) ∧
    info.searchable = false ∧ (name, node) ∈ entries ∧ node.isDir = false

/-- In the directory that a path leads to, the first name is listed before the second. -/
def ListedBefore (fs : FileSystem) (p : Path) (a b : String) : Prop :=
  ∃ entries info, fs.node? p = some (.dir entries info) ∧ [a, b].Sublist (entries.map Prod.fst)

end FileSystem

/-- Names that lead on from a directory, through directories that a walk lists. Those before the
last name are plain and not skipped. -/
structure Within (fs : FileSystem) (p : Path) (names : List String) : Prop where
  ne_nil : names ≠ []
  isName : ∀ name ∈ names, IsEntryName name
  listable : ∀ before behind, names = before ++ behind → behind ≠ [] →
    fs.isListable (p.below before) = true
  dirs : ∀ before name behind, names = before ++ name :: behind → behind ≠ [] →
    fs.isPlainDir (p.below (before ++ [name])) = true ∧ name ∉ skippedNames

/-- Names that lead from a directory to a file that a walk comes to. -/
structure Eligible (fs : FileSystem) (p : Path) (names : List String) : Prop
    extends Within fs p names where
  file : fs.isPlainFile (p.below names) = true

/-- Names that lead from a directory to where a walk breaks off. -/
structure Refused (fs : FileSystem) (p : Path) (names : List String) : Prop
    extends Within fs p names where
  barred : fs.Barred (p.below names)

/-- The order of a walk, on the names that lead on from a directory. -/
inductive Precedes (fs : FileSystem) : Path → List String → List String → Prop
  | files {p : Path} {a b : String} (h : fs.ListedBefore p a b) : Precedes fs p [a] [b]
  | fileFirst {p : Path} {a b c : String} {names : List String} :
    Precedes fs p [a] (b :: c :: names)
  | dirs {p : Path} {a b c d : String} {names names' : List String} (h : fs.ListedBefore p a b) :
    Precedes fs p (a :: c :: names) (b :: d :: names')
  | within {p : Path} {a : String} {names names' : List String}
    (h : Precedes fs (p.child a) names names') : Precedes fs p (a :: names) (a :: names')

/-- The files below a directory that a walk has to come to, each once and in their order. -/
structure IsWalk (fs : FileSystem) (p : Path) (files : List Path) : Prop where
  mem_iff : ∀ q, q ∈ files ↔ ∃ names, Eligible fs p names ∧ q = p.below names
  nodup : files.Nodup
  ordered : files.Pairwise fun q q' =>
    ∃ names names', q = p.below names ∧ q' = p.below names' ∧ Precedes fs p names names'

/-- Names that lead from a directory to a step of its walk. -/
inductive Meets (fs : FileSystem) : Path → List String → WalkStep → Prop
  | file {p : Path} {entries : List (String × Node)} {info : DirInfo} {e : String × Node}
    {step : WalkStep} (hnode : fs.node? p = some (.dir entries info))
    (hlist : info.listable = true) (he : e ∈ filesIn fs p entries)
    (hstep : fileStep? fs (p.child e.1) = some step) : Meets fs p [e.1] step
  | dir {p : Path} {entries : List (String × Node)} {info : DirInfo} {e : String × Node}
    {names : List String} {step : WalkStep} (hnode : fs.node? p = some (.dir entries info))
    (hlist : info.listable = true) (hsearch : info.searchable = true)
    (he : e ∈ dirsIn fs p entries) (hdir : e.2.isDir = true)
    (h : Meets fs (p.child e.1) names step) : Meets fs p (e.1 :: names) step

variable {fs : FileSystem} {p q : Path} {loc : Location} {name : String} {names : List String}
  {entries : List (String × Node)} {info : DirInfo} {step : WalkStep} {e : PathError}

namespace FileSystem

theorem isListable_iff : fs.isListable p = true ↔
    ∃ entries info, fs.node? p = some (.dir entries info) ∧ info.listable = true := by
  rw [isListable]
  split
  · rename_i entries info hnode
    refine ⟨fun h => ⟨entries, info, hnode, h⟩, ?_⟩
    rintro ⟨entries', info', hnode', h⟩
    cases hnode.symm.trans hnode'
    exact h
  · rename_i hnone
    exact ⟨fun h => (by cases h), fun ⟨entries, info, hnode, _⟩ => absurd hnode (hnone _ _)⟩

theorem isPlainFile_child_of_unsearchable (h : fs.lookup true p = .ok (loc, .dir entries info))
    (hs : info.searchable = false) (hname : IsEntryName name) :
    fs.isPlainFile (p.child name) = false := by
  rw [isPlainFile, isFile, node?, lookup_child_of_unsearchable h hs hname]
  rfl

theorem isDir_child_of_unsearchable (h : fs.lookup true p = .ok (loc, .dir entries info))
    (hs : info.searchable = false) (hname : IsEntryName name) :
    fs.isDir (p.child name) = false := by
  rw [isDir, node?, lookup_child_of_unsearchable h hs hname]
  rfl

theorem isPlainDir_child {node : Node} (h : fs.lookup true p = .ok (loc, .dir entries info))
    (hs : info.searchable = true) (hname : IsEntryName name)
    (he : entries.lookup name = some node) : fs.isPlainDir (p.child name) = node.isDir := by
  rw [isPlainDir, isLink_child h hs hname he]
  cases hlink : node.isLink with
  | true =>
    cases node with
    | link target => exact Bool.and_false _
    | file content => cases hlink
    | dir entries info => cases hlink
  | false =>
    rw [isDir, node?_child h hs hname he hlink]
    exact Bool.and_true _

theorem isPlainFile_child_iff (h : fs.lookup true p = .ok (loc, .dir entries info))
    (hname : IsEntryName name) :
    fs.isPlainFile (p.child name) = true ↔
      info.searchable = true ∧ ∃ content, entries.lookup name = some (.file content) := by
  cases hs : info.searchable with
  | false =>
    rw [isPlainFile_child_of_unsearchable h hs hname]
    exact ⟨fun h => (by cases h), fun h => by cases h.1⟩
  | true =>
    rw [and_iff_right rfl]
    cases he : entries.lookup name with
    | none =>
      rw [isPlainFile, isFile, node?, lookup_child_of_none h hs hname he]
      exact ⟨fun h => (by cases h), by rintro ⟨_, h⟩; cases h⟩
    | some node =>
      rw [isPlainFile_child h hs hname he]
      cases node with
      | file content => exact ⟨fun _ => ⟨content, rfl⟩, fun _ => rfl⟩
      | link target => exact ⟨fun h => (by cases h), by rintro ⟨_, h⟩; cases h⟩
      | dir entries info => exact ⟨fun h => (by cases h), by rintro ⟨_, h⟩; cases h⟩

theorem isPlainDir_child_iff (h : fs.lookup true p = .ok (loc, .dir entries info))
    (hname : IsEntryName name) :
    fs.isPlainDir (p.child name) = true ↔ info.searchable = true ∧
      ∃ entries' info', entries.lookup name = some (.dir entries' info') := by
  cases hs : info.searchable with
  | false =>
    rw [isPlainDir, isDir_child_of_unsearchable h hs hname]
    exact ⟨fun h => (by cases h), fun h => by cases h.1⟩
  | true =>
    rw [and_iff_right rfl]
    cases he : entries.lookup name with
    | none =>
      rw [isPlainDir, isDir, node?, lookup_child_of_none h hs hname he]
      exact ⟨fun h => (by cases h), by rintro ⟨_, _, h⟩; cases h⟩
    | some node =>
      rw [isPlainDir_child h hs hname he]
      cases node with
      | dir entries info => exact ⟨fun _ => ⟨entries, info, rfl⟩, fun _ => rfl⟩
      | file content => exact ⟨fun h => (by cases h), by rintro ⟨_, _, h⟩; cases h⟩
      | link target => exact ⟨fun h => (by cases h), by rintro ⟨_, _, h⟩; cases h⟩

theorem entries_of_node? (hfs : fs.root.WellFormed) (h : fs.node? p = some (.dir entries info)) :
    ∃ loc, fs.lookup true p = .ok (loc, .dir entries info) ∧
      (Node.dir entries info).WellFormed := by
  obtain ⟨loc, hp⟩ := node?_eq_some_iff.mp h
  exact ⟨loc, hp, lookup_wellFormed hfs hp⟩

end FileSystem

namespace Within

theorem singleton_iff :
    Within fs p [name] ↔ IsEntryName name ∧ fs.isListable p = true := by
  constructor
  · intro h
    have hlist := h.listable [] [name] rfl (List.cons_ne_nil _ _)
    rw [Path.below_nil] at hlist
    exact ⟨h.isName name List.mem_cons_self, hlist⟩
  · rintro ⟨hname, hlist⟩
    refine ⟨List.cons_ne_nil _ _, List.forall_mem_singleton.mpr hname, ?_, ?_⟩
    · intro before behind heq hne
      cases before with
      | nil => rwa [Path.below_nil]
      | cons x before => exact absurd (List.append_eq_nil_iff.mp (List.cons.inj heq).2.symm).2 hne
    · intro before last behind heq hne
      cases before with
      | nil => exact absurd (List.cons.inj heq).2.symm hne
      | cons x before => exact absurd (List.cons.inj heq).2 (by simp)

theorem cons_iff (hne : names ≠ []) :
    Within fs p (name :: names) ↔
      (IsEntryName name ∧ fs.isListable p = true ∧ fs.isPlainDir (p.child name) = true ∧
        name ∉ skippedNames) ∧ Within fs (p.child name) names := by
  have hbelow : ∀ names, p.below (name :: names) = (p.child name).below names :=
    fun names => p.below_cons name names
  constructor
  · intro h
    obtain ⟨hname, hnames⟩ := List.forall_mem_cons.mp h.isName
    have hlist := h.listable [] (name :: names) rfl (List.cons_ne_nil _ _)
    rw [Path.below_nil] at hlist
    refine ⟨⟨hname, hlist, h.dirs [] name names rfl hne⟩, hne, hnames, ?_, ?_⟩
    · intro before behind heq hbehind
      rw [← hbelow]
      exact h.listable (name :: before) behind (congrArg (name :: ·) heq) hbehind
    · intro before last behind heq hbehind
      rw [← hbelow]
      exact h.dirs (name :: before) last behind (congrArg (name :: ·) heq) hbehind
  · rintro ⟨⟨hname, hlist, hdir⟩, h⟩
    refine ⟨List.cons_ne_nil _ _, List.forall_mem_cons.mpr ⟨hname, h.isName⟩, ?_, ?_⟩
    · intro before behind heq hbehind
      cases before with
      | nil => rwa [Path.below_nil]
      | cons x before =>
        obtain ⟨rfl, htail⟩ := List.cons.inj heq
        rw [hbelow]
        exact h.listable before behind htail hbehind
    · intro before last behind heq hbehind
      cases before with
      | nil =>
        obtain ⟨rfl, -⟩ := List.cons.inj heq
        exact hdir
      | cons x before =>
        obtain ⟨rfl, htail⟩ := List.cons.inj heq
        rw [List.cons_append, hbelow]
        exact h.dirs before last behind htail hbehind

end Within

theorem not_isDir_of_mem_filesIn {e : String × Node} (he : e ∈ filesIn fs p entries) :
    e.2.isDir = false := by
  have hentry := (List.mem_filter.mp he).2
  cases hnode : e.2 with
  | dir entries info => rw [hnode] at hentry; cases hentry
  | file content => rfl
  | link target => rfl

theorem Meets.within (hfs : fs.root.WellFormed) (h : Meets fs p names step) :
    Within fs p names ∧ fileStep? fs (p.below names) = some step := by
  induction h with
  | file hnode hlist he hstep =>
    obtain ⟨loc, hp, hn⟩ := FileSystem.entries_of_node? hfs hnode
    have hname := hn.isEntryName_of_mem (mem_of_mem_filesIn he)
    exact ⟨Within.singleton_iff.mpr ⟨hname, FileSystem.isListable_iff.mpr ⟨_, _, hnode, hlist⟩⟩,
      hstep⟩
  | @dir p entries info e names step hnode hlist hsearch he hdir h ih =>
    obtain ⟨loc, hp, hn⟩ := FileSystem.entries_of_node? hfs hnode
    have hmem := mem_of_mem_dirsIn he
    have hname := hn.isEntryName_of_mem hmem
    have hplain : fs.isPlainDir (p.child e.1) = true := by
      rwa [FileSystem.isPlainDir_child hp hsearch hname (Node.lookup_of_mem hn.nodup_names hmem)]
    have hskip := of_decide_eq_true (Bool.and_eq_true_iff.mp (List.mem_filter.mp he).2).2
    refine ⟨(Within.cons_iff ih.1.ne_nil).mpr ⟨⟨hname, ?_, hplain, hskip⟩, ih.1⟩, ?_⟩
    · exact FileSystem.isListable_iff.mpr ⟨_, _, hnode, hlist⟩
    · rw [Path.below_cons]
      exact ih.2

theorem meets_of_within (hfs : fs.root.WellFormed) (h : Within fs p names)
    (hstep : fileStep? fs (p.below names) = some step)
    (hlast : ∀ before name entries info, names = before ++ [name] →
      fs.node? (p.below before) = some (.dir entries info) →
        ∃ e ∈ filesIn fs (p.below before) entries, e.1 = name) :
    Meets fs p names step := by
  induction names generalizing p with
  | nil => exact absurd rfl h.ne_nil
  | cons name names ih =>
    cases names with
    | nil =>
      obtain ⟨hname, hlist⟩ := Within.singleton_iff.mp h
      obtain ⟨entries, info, hnode, hlist⟩ := FileSystem.isListable_iff.mp hlist
      obtain ⟨e, he, rfl⟩ := hlast [] name entries info rfl (by rwa [Path.below_nil])
      rw [Path.below_nil] at he
      exact .file hnode hlist he hstep
    | cons next names =>
      obtain ⟨⟨hname, hlist, hdir, hskip⟩, hrest⟩ := (Within.cons_iff (List.cons_ne_nil _ _)).mp h
      obtain ⟨entries, info, hnode, hlist⟩ := FileSystem.isListable_iff.mp hlist
      obtain ⟨loc, hp, -⟩ := FileSystem.entries_of_node? hfs hnode
      obtain ⟨hsearch, entries', info', he⟩ := (FileSystem.isPlainDir_child_iff hp hname).mp hdir
      have hmem : (name, Node.dir entries' info') ∈ dirsIn fs p entries :=
        List.mem_filter.mpr
          ⟨mem_of_lookup he, Bool.and_eq_true_iff.mpr ⟨rfl, decide_eq_true hskip⟩⟩
      rw [Path.below_cons] at hstep
      refine .dir hnode hlist hsearch hmem rfl (ih hrest hstep fun before last es i heq hn => ?_)
      rw [← Path.below_cons] at hn ⊢
      exact hlast (name :: before) last es i (congrArg (name :: ·) heq) hn

theorem child_below (p : Path) (before : List String) (name : String) :
    (p.below before).child name = p.below (before ++ [name]) :=
  congrArg (Path.mk p.anchor) (List.append_assoc ..)

theorem meets_ok_iff (hfs : fs.root.WellFormed) :
    Meets fs p names (.ok q) ↔ Eligible fs p names ∧ q = p.below names := by
  constructor
  · intro h
    obtain ⟨hwithin, hstep⟩ := h.within hfs
    obtain ⟨hq, hfile⟩ := fileStep?_eq_ok_iff.mp hstep
    exact ⟨⟨hwithin, hfile⟩, hq⟩
  · rintro ⟨h, rfl⟩
    refine meets_of_within hfs h.toWithin (fileStep?_of_isPlainFile h.file) ?_
    rintro before name entries info rfl hnode
    obtain ⟨loc, hp, -⟩ := FileSystem.entries_of_node? hfs hnode
    have hname := h.isName name List.mem_concat_self
    have hfile := h.file
    rw [← child_below] at hfile
    obtain ⟨-, content, he⟩ := (FileSystem.isPlainFile_child_iff hp hname).mp hfile
    exact ⟨_, List.mem_filter.mpr ⟨mem_of_lookup he, rfl⟩, rfl⟩

theorem FileSystem.Barred.fileStep? (hfs : fs.root.WellFormed) (h : fs.Barred p) :
    fileStep? fs p = some (.error (.denied p.toString)) := by
  obtain ⟨q, name, entries, info, node, rfl, hnode, hs, hmem, -⟩ := h
  obtain ⟨loc, hp, hn⟩ := entries_of_node? hfs hnode
  exact fileStep?_child_of_unsearchable hp hs (hn.isEntryName_of_mem hmem)

theorem Meets.barred (hfs : fs.root.WellFormed) (h : Meets fs p names (.error e)) :
    fs.Barred (p.below names) := by
  generalize hstep : (Except.error e : WalkStep) = step at h
  induction h with
  | @file p entries info e' step hnode hlist he hfile =>
    obtain ⟨loc, hp, hn⟩ := FileSystem.entries_of_node? hfs hnode
    have hmem := mem_of_mem_filesIn he
    refine ⟨p, e'.1, entries, info, e'.2, rfl, hnode, ?_, hmem, not_isDir_of_mem_filesIn he⟩
    refine Bool.eq_false_iff.mpr fun hs => ?_
    rw [fileStep?_child hp hs (hn.isEntryName_of_mem hmem) (Node.lookup_of_mem hn.nodup_names hmem),
      ← hstep] at hfile
    split at hfile <;> cases hfile
  | dir _ _ _ _ _ _ ih =>
    rw [Path.below_cons]
    exact ih hstep

theorem meets_of_mem_walkDir {n : Node} (hfs : fs.root.WellFormed)
    (hp : fs.lookup true p = .ok (loc, n)) (hstep : step ∈ walkDir fs p n) :
    ∃ names, Meets fs p names step := by
  induction p, n using walkDir.induct fs generalizing loc with
  | case1 p entries info hlist ih =>
    have hnode := FileSystem.node?_eq_some_iff.mpr ⟨loc, hp⟩
    rw [walkDir_dir, if_pos hlist, List.mem_append] at hstep
    obtain hstep | hstep := hstep
    · obtain ⟨e, he, hstep⟩ := List.mem_filterMap.mp hstep
      exact ⟨[e.1], .file hnode hlist he hstep⟩
    · split at hstep
      · rename_i hsearch
        obtain ⟨e, he, hstep⟩ := List.mem_flatMap.mp hstep
        cases hentry : e.2 with
        | dir entries' info' =>
          have hentry' := lookup_entry hfs hp hsearch (mem_of_mem_dirsIn he) (by rw [hentry]; rfl)
          obtain ⟨names, hnames⟩ := ih e he hentry' hstep
          exact ⟨e.1 :: names, .dir hnode hlist hsearch he (by rw [hentry]; rfl) hnames⟩
        | link target =>
          rw [hentry, walkDir_link] at hstep
          cases hstep
        | file content =>
          rw [hentry, walkDir_file] at hstep
          cases hstep
      · cases hstep
  | case2 p entries info hlist =>
    rw [walkDir_dir, if_neg hlist] at hstep
    cases hstep
  | case3 p n hne =>
    rw [walkDir] at hstep
    · cases hstep
    · exact hne

theorem pair_sublist_asymm {a b : String} {l : List String} (hl : l.Nodup)
    (h : [a, b].Sublist l) : ¬ [b, a].Sublist l := by
  induction l with
  | nil => cases h
  | cons c l ih =>
    obtain ⟨hc, hl⟩ := List.nodup_cons.mp hl
    intro h'
    cases h with
    | cons _ h =>
      cases h' with
      | cons _ h' => exact ih hl h h'
      | cons_cons _ h' => exact hc (h.subset (List.mem_cons_of_mem _ List.mem_cons_self))
    | cons_cons _ h =>
      cases h' with
      | cons _ h' => exact hc (h'.subset (List.mem_cons_of_mem _ List.mem_cons_self))
      | cons_cons _ h' => exact hc (h'.subset List.mem_cons_self)

theorem FileSystem.ListedBefore.asymm {a b : String} (hfs : fs.root.WellFormed)
    (h : fs.ListedBefore p a b) : ¬ fs.ListedBefore p b a := by
  obtain ⟨entries, info, hnode, hsub⟩ := h
  obtain ⟨loc, -, hn⟩ := entries_of_node? hfs hnode
  rintro ⟨entries', info', hnode', hsub'⟩
  cases hnode.symm.trans hnode'
  exact pair_sublist_asymm hn.nodup_names hsub hsub'

theorem Precedes.asymm {names' : List String} (hfs : fs.root.WellFormed)
    (h : Precedes fs p names names') : ¬ Precedes fs p names' names := by
  induction h with
  | files hab =>
    intro h
    cases h with
    | files hba => exact hab.asymm hfs hba
    | within h => cases h
  | fileFirst =>
    intro h
    cases h with
    | within h => cases h
  | dirs hab =>
    intro h
    cases h with
    | dirs hba => exact hab.asymm hfs hba
    | within h => exact hab.asymm hfs hab
  | within h ih =>
    intro h'
    cases h' with
    | files haa => exact haa.asymm hfs haa
    | fileFirst => cases h
    | dirs haa => exact haa.asymm hfs haa
    | within h' => exact ih h'

theorem Precedes.ne {names' : List String} (hfs : fs.root.WellFormed)
    (h : Precedes fs p names names') : names ≠ names' := by
  rintro rfl
  exact h.asymm hfs h

theorem FileSystem.listedBefore_of_sublist {e e' : String × Node}
    (hnode : fs.node? p = some (.dir entries info)) (h : [e, e'].Sublist entries) :
    fs.ListedBefore p e.1 e'.1 :=
  ⟨entries, info, hnode, h.map Prod.fst⟩

def InOrder (fs : FileSystem) (p : Path) (step step' : WalkStep) : Prop :=
  ∃ names names', Meets fs p names step ∧ Meets fs p names' step' ∧ Precedes fs p names names'

theorem exists_meets_of_mem_walkDir_child {e : String × Node} (hfs : fs.root.WellFormed)
    (hp : fs.lookup true p = .ok (loc, .dir entries info)) (hlist : info.listable = true)
    (hsearch : info.searchable = true) (he : e ∈ dirsIn fs p entries)
    (hstep : step ∈ walkDir fs (p.child e.1) e.2) :
    ∃ next names, Meets fs p (e.1 :: next :: names) step := by
  have hnode := FileSystem.node?_eq_some_iff.mpr ⟨loc, hp⟩
  cases hentry : e.2 with
  | link target =>
    rw [hentry, walkDir_link] at hstep
    cases hstep
  | file content =>
    rw [hentry, walkDir_file] at hstep
    cases hstep
  | dir entries' info' =>
    have hdir : e.2.isDir = true := by rw [hentry]; rfl
    have hentry' := lookup_entry hfs hp hsearch (mem_of_mem_dirsIn he) (by rw [hentry]; rfl)
    obtain ⟨names, hnames⟩ := meets_of_mem_walkDir hfs hentry' hstep
    obtain ⟨next, names, rfl⟩ := List.exists_cons_of_ne_nil (hnames.within hfs).1.ne_nil
    exact ⟨next, names, .dir hnode hlist hsearch he hdir hnames⟩

theorem fileSteps_ordered (hnode : fs.node? p = some (.dir entries info))
    (hlist : info.listable = true) :
    ((filesIn fs p entries).filterMap fun e => fileStep? fs (p.child e.1)).Pairwise
      (InOrder fs p) := by
  rw [List.pairwise_filterMap, List.pairwise_iff_forall_sublist]
  intro e e' hsub step hstep step' hstep'
  have he := hsub.subset List.mem_cons_self
  have he' := hsub.subset (List.mem_cons_of_mem _ List.mem_cons_self)
  refine ⟨[e.1], [e'.1], .file hnode hlist he hstep, .file hnode hlist he' hstep', .files ?_⟩
  exact FileSystem.listedBefore_of_sublist hnode (hsub.trans List.filter_sublist)

theorem dirSteps_ordered (hfs : fs.root.WellFormed)
    (hp : fs.lookup true p = .ok (loc, .dir entries info)) (hlist : info.listable = true)
    (hsearch : info.searchable = true) :
    (dirsIn fs p entries).Pairwise fun e e' => ∀ step ∈ walkDir fs (p.child e.1) e.2,
      ∀ step' ∈ walkDir fs (p.child e'.1) e'.2, InOrder fs p step step' := by
  have hnode := FileSystem.node?_eq_some_iff.mpr ⟨loc, hp⟩
  refine List.pairwise_iff_forall_sublist.mpr fun {e e'} hsub step hstep step' hstep' => ?_
  obtain ⟨next, names, hmeets⟩ := exists_meets_of_mem_walkDir_child hfs hp hlist hsearch
    (hsub.subset List.mem_cons_self) hstep
  obtain ⟨next', names', hmeets'⟩ := exists_meets_of_mem_walkDir_child hfs hp hlist hsearch
    (hsub.subset (List.mem_cons_of_mem _ List.mem_cons_self)) hstep'
  exact ⟨_, _, hmeets, hmeets',
    .dirs (FileSystem.listedBefore_of_sublist hnode (hsub.trans List.filter_sublist))⟩

theorem walkDir_ordered {n : Node} (hfs : fs.root.WellFormed)
    (hp : fs.lookup true p = .ok (loc, n)) : (walkDir fs p n).Pairwise (InOrder fs p) := by
  induction p, n using walkDir.induct fs generalizing loc with
  | case1 p entries info hlist ih =>
    have hnode := FileSystem.node?_eq_some_iff.mpr ⟨loc, hp⟩
    rw [walkDir_dir, if_pos hlist, List.pairwise_append]
    refine ⟨fileSteps_ordered hnode hlist, ?_, ?_⟩
    · split
      · rename_i hsearch
        rw [List.pairwise_flatMap]
        refine ⟨fun e he => ?_, dirSteps_ordered hfs hp hlist hsearch⟩
        cases hentry : e.2 with
        | link target =>
          rw [walkDir_link]
          exact List.Pairwise.nil
        | file content =>
          rw [walkDir_file]
          exact List.Pairwise.nil
        | dir entries' info' =>
          have hdir : e.2.isDir = true := by rw [hentry]; rfl
          have hentry' := lookup_entry hfs hp hsearch (mem_of_mem_dirsIn he) (by rw [hentry]; rfl)
          rw [← hentry]
          refine (ih e he hentry').imp ?_
          rintro step step' ⟨names, names', hmeets, hmeets', h⟩
          exact ⟨e.1 :: names, e.1 :: names', .dir hnode hlist hsearch he hdir hmeets,
            .dir hnode hlist hsearch he hdir hmeets', .within h⟩
      · exact List.Pairwise.nil
    · intro step hstep step' hstep'
      obtain ⟨e, he, hstep⟩ := List.mem_filterMap.mp hstep
      split at hstep'
      · rename_i hsearch
        obtain ⟨e', he', hstep'⟩ := List.mem_flatMap.mp hstep'
        obtain ⟨next, names, hmeets⟩ :=
          exists_meets_of_mem_walkDir_child hfs hp hlist hsearch he' hstep'
        exact ⟨[e.1], _, .file hnode hlist he hstep, hmeets, .fileFirst⟩
      · cases hstep'
  | case2 p entries info hlist =>
    rw [walkDir_dir, if_neg hlist]
    exact List.Pairwise.nil
  | case3 p n hne =>
    rw [walkDir]
    · exact List.Pairwise.nil
    · exact hne

end CommentTags

import CommentTags.Files.Edit
import CommentTags.Proofs.Files.Resolve
import CommentTags.Proofs.Files.Walk
import CommentTags.Proofs.Files.Without

namespace CommentTags

namespace Node

mutual

/-- The tree with its files rewritten, each according to where it is. -/
def rewrite (f : Location → List UInt8 → List UInt8) : Node → Node
  | file content => file (f [] content)
  | link target => link target
  | dir entries info => dir (rewriteEntries f entries) info

def rewriteEntries (f : Location → List UInt8 → List UInt8) :
    List (String × Node) → List (String × Node)
  | [] => []
  | (name, n) :: rest => (name, rewrite (fun loc => f (name :: loc)) n) :: rewriteEntries f rest

end

variable {f : Location → List UInt8 → List UInt8} {n : Node} {entries : List (String × Node)}
  {name : String} {loc : Location} {content : List UInt8}

theorem rewrite_file : (file content).rewrite f = file (f [] content) := rfl

theorem rewrite_link {target : String} : (link target).rewrite f = link target := rfl

theorem rewrite_dir {info : DirInfo} :
    (dir entries info).rewrite f = dir (rewriteEntries f entries) info := rfl

@[simp] theorem isFile_rewrite : (n.rewrite f).isFile = n.isFile := by
  cases n <;> rfl

theorem rewriteEntries_eq (f : Location → List UInt8 → List UInt8)
    (entries : List (String × Node)) :
    rewriteEntries f entries =
      entries.map fun e => (e.1, e.2.rewrite fun loc => f (e.1 :: loc)) := by
  induction entries with
  | nil => rfl
  | cons e entries ih =>
    obtain ⟨name, n⟩ := e
    rw [rewriteEntries, ih, List.map_cons]

theorem lookup_rewriteEntries (f : Location → List UInt8 → List UInt8)
    (entries : List (String × Node)) (name : String) :
    (rewriteEntries f entries).lookup name =
      (entries.lookup name).map (rewrite fun loc => f (name :: loc)) := by
  induction entries with
  | nil => rfl
  | cons e entries ih =>
    obtain ⟨key, n⟩ := e
    rw [rewriteEntries, lookup_cons_eq, lookup_cons_eq, ih]
    by_cases h : name = key
    · rw [h, if_pos rfl, if_pos rfl, Option.map_some]
    · rw [if_neg h, if_neg h]

theorem reach?_rewrite (n : Node) (f : Location → List UInt8 → List UInt8) (loc : Location) :
    (n.rewrite f).reach? loc = (n.reach? loc).map (rewrite fun more => f (loc ++ more)) := by
  induction loc generalizing n f with
  | nil => rfl
  | cons name names ih =>
    cases n with
    | file content => rfl
    | link target => rfl
    | dir entries info =>
      rw [rewrite_dir, reach?_dir_cons, reach?_dir_cons]
      split
      · rw [lookup_rewriteEntries]
        cases entries.lookup name with
        | none => rfl
        | some m => exact ih m _
      · rfl

theorem WellFormed.rewrite_eq_self (h : n.WellFormed)
    (hf : ∀ loc content, f loc content = content) : n.rewrite f = n := by
  induction h generalizing f with
  | file content => rw [rewrite_file, hf]
  | link target => rfl
  | @dir entries info nodup names nodes ih =>
    have hentries : rewriteEntries f entries = entries := by
      rw [rewriteEntries_eq]
      refine (List.map_congr_left fun e he => ?_).trans (List.map_id entries)
      rw [ih e he fun loc => hf (e.1 :: loc)]
      rfl
    rw [rewrite_dir, hentries]

theorem WellFormed.rewrite (h : n.WellFormed) (f : Location → List UInt8 → List UInt8) :
    (n.rewrite f).WellFormed := by
  induction h generalizing f with
  | file content => exact .file _
  | link noNul => exact .link noNul
  | @dir entries info nodup names nodes ih =>
    rw [Node.rewrite_dir, rewriteEntries_eq]
    refine .dir ?_ (fun e he => ?_) fun e he => ?_
    · rw [List.map_map]
      exact nodup
    · obtain ⟨e', he', rfl⟩ := List.mem_map.mp he
      exact names e' he'
    · obtain ⟨e', he', rfl⟩ := List.mem_map.mp he
      exact ih e' he' _

theorem setEntry_eq_map {m : Node} (hlookup : entries.lookup name = some m) (m' : Node) :
    setEntry name m' entries = entries.map fun e => if e.1 = name then (name, m') else e := by
  rw [setEntry, if_pos (by rw [hlookup]; rfl)]

theorem set_eq_rewrite (hn : n.WellFormed) (h : n.get? loc = some (.file content))
    (content' : List UInt8) :
    n.set loc (.file content') =
      n.rewrite fun loc' old => if loc' = loc then content' else old := by
  induction loc generalizing n with
  | nil =>
    obtain rfl := Option.some.inj h
    rw [rewrite_file, if_pos rfl]
    rfl
  | cons name names ih =>
    obtain ⟨m, hm, hrest⟩ := Option.bind_eq_some_iff.mp h
    cases n with
    | file content => cases hm
    | link target => cases hm
    | dir entries info =>
      have hmem := mem_of_lookup hm
      have hset : (dir entries info).set (name :: names) (.file content') =
          dir (setEntry name (m.set names (.file content')) entries) info := by
        rw [set, modify, hm]
        rfl
      have hlookup : entries.lookup name = some m := hm
      rw [hset, ih (hn.of_mem hmem) hrest, setEntry_eq_map hlookup, rewrite_dir,
        rewriteEntries_eq]
      congr 1
      refine List.map_congr_left fun e he => ?_
      obtain ⟨key, child⟩ := e
      dsimp only
      by_cases hkey : key = name
      · subst hkey
        have hchild := lookup_of_mem hn.nodup_names he
        obtain rfl : child = m := Option.some.inj (hchild.symm.trans hm)
        rw [if_pos rfl]
        simp only [List.cons.injEq, true_and]
      · rw [if_neg hkey, (hn.of_mem he).rewrite_eq_self]
        exact fun loc content => if_neg fun h => hkey (List.cons.inj h).1

end Node

namespace FileSystem

variable {fs : FileSystem} {f : Location → List UInt8 → List UInt8} {p q : Path} {loc : Location}
  {entries : List (String × Node)} {info : DirInfo}

def rewrite (fs : FileSystem) (f : Location → List UInt8 → List UInt8) : FileSystem :=
  { fs with root := fs.root.rewrite f }

/-- What is found at a location, with the files below it rewritten. -/
def rewritten (f : Location → List UInt8 → List UInt8) (r : Location × Node) : Location × Node :=
  (r.1, r.2.rewrite fun more => f (r.1 ++ more))

theorem revised_rewrite (fs : FileSystem) (f : Location → List UInt8 → List UInt8) :
    Revised (fun loc n => some (n.rewrite fun more => f (loc ++ more))) fs (fs.rewrite f) where
  start _ := rfl
  reach? loc := (Node.reach?_rewrite fs.root f loc).trans (Option.map_eq_bind ..)
  file h := ⟨_, (Option.some.inj h).symm⟩
  link _ _ := rfl
  dir _ _ _ := ⟨_, rfl⟩
  short _ _ h := by cases h

theorem lookup_rewrite (follow : Bool) (p : Path) :
    ((fs.rewrite f).lookup follow p).toOption = (fs.lookup follow p).toOption.map (rewritten f) :=
  ((revised_rewrite fs f).lookup follow p).found.trans (Option.map_eq_bind ..).symm

theorem node?_rewrite (p : Path) :
    (fs.rewrite f).node? p =
      ((fs.lookup true p).toOption.map (rewritten f)).map Prod.snd := by
  rw [node?, lookup_rewrite]

@[simp] theorem isDir_rewrite (p : Path) : (fs.rewrite f).isDir p = fs.isDir p :=
  (revised_rewrite fs f).isDir p

@[simp] theorem isFile_rewrite (p : Path) : (fs.rewrite f).isFile p = fs.isFile p :=
  (revised_rewrite fs f).any_lookup (P := Node.isFile) (fun _ _ => Node.isFile_rewrite) true p

@[simp] theorem isLink_rewrite (p : Path) : (fs.rewrite f).isLink p = fs.isLink p :=
  (revised_rewrite fs f).isLink p

@[simp] theorem isPlainFile_rewrite (p : Path) :
    (fs.rewrite f).isPlainFile p = fs.isPlainFile p := by
  rw [isPlainFile, isPlainFile, isFile_rewrite, isLink_rewrite]

@[simp] theorem location?_rewrite (p : Path) : (fs.rewrite f).location? p = fs.location? p := by
  rw [location?, location?, lookup_rewrite]
  cases fs.lookup true p <;> rfl

theorem content?_rewrite (p : Path) :
    (fs.rewrite f).content? p =
      (fs.location? p).bind fun loc => (fs.content? p).map (f loc) := by
  rw [content?, content?, node?_rewrite, node?, location?]
  cases fs.lookup true p with
  | error e => rfl
  | ok r =>
    obtain ⟨loc, n⟩ := r
    simp only [Except.toOption, Option.map_some, Option.bind_some, rewritten]
    cases n with
    | file content => rw [Node.rewrite_file, List.append_nil]; rfl
    | link target => rfl
    | dir entries info => rfl

theorem entryIsDir_rewrite (p : Path) (n : Node) (g : Location → List UInt8 → List UInt8) :
    (fs.rewrite f).entryIsDir p (n.rewrite g) = fs.entryIsDir p n := by
  cases n with
  | file content => rfl
  | dir entries info => rfl
  | link target => exact isDir_rewrite p

theorem isClear_start (hfs : fs.root.WellFormed) {node : Node}
    (h : fs.lookup true p = .ok (loc, node)) (hnode : node.isLink = false) :
    fs.IsClear (fs.start p) := by
  obtain ⟨-, h⟩ := lookup_eq_ok_iff.mp h
  cases hget : fs.root.reach? (fs.start p) with
  | none =>
    rw [lookupFrom_of_none hget] at h
    cases h
  | some n =>
    refine IsClear.of_reach? hfs hget ?_
    cases n with
    | file content => rfl
    | dir entries info => rfl
    | link target =>
      cases hnames : p.names with
      | nil =>
        rw [hnames, lookupFrom_nil fs hget] at h
        cases h
        exact hnode
      | cons name names =>
        rw [hnames, lookupFrom, hget] at h
        cases h

theorem targetOf_eq (hfs : fs.root.WellFormed) {node : Node}
    (h : fs.lookup true p = .ok (loc, node)) (hnode : node.isLink = false) :
    fs.targetOf p = loc := by
  have hleads : fs.Denotes false p loc := leads_of_lookupFrom hfs (lookup_eq_ok_iff.mp h).2
  rw [targetOf, resolve?_of_isClear (isClear_start hfs h hnode) hleads, Option.getD_some]

theorem isFile_eq_true_iff :
    fs.isFile p = true ↔ ∃ loc content, fs.lookup true p = .ok (loc, .file content) := by
  constructor
  · intro h
    rw [isFile, node?] at h
    cases hlookup : fs.lookup true p with
    | error e =>
      rw [hlookup] at h
      cases h
    | ok r =>
      rw [hlookup] at h
      obtain ⟨loc, n⟩ := r
      cases n with
      | file content => exact ⟨loc, content, rfl⟩
      | link target => cases h
      | dir entries info => cases h
  · rintro ⟨loc, content, hlookup⟩
    rw [isFile, node?, hlookup]
    rfl

theorem write_eq_rewrite (hfs : fs.root.WellFormed) (h : fs.isFile p = true)
    (content : List UInt8) :
    fs.write p content =
      fs.rewrite fun loc old => if fs.location? p = some loc then content else old := by
  obtain ⟨loc, old, hlookup⟩ := isFile_eq_true_iff.mp h
  have hlocation : fs.location? p = some loc := by
    rw [location?, hlookup]
    rfl
  have hreach := lookup_reach? hlookup
  have htakes : takes loc = true := List.all_eq_true.mpr fun name hname => by
    have hentry := hfs.isEntryName_of_reach? hreach name hname
    rw [hentry.noNul, hentry.short]
    rfl
  rw [write, targetOf_eq hfs hlookup rfl, put, if_pos htakes,
    Node.set_eq_rewrite hfs (Node.get?_of_reach? hreach), rewrite, hlocation]
  simp only [Option.some.injEq, eq_comm (a := loc)]

end FileSystem

variable {fs : FileSystem} {f : Location → List UInt8 → List UInt8}

theorem filesIn_rewrite (p : Path) (g : Location → List UInt8 → List UInt8)
    (entries : List (String × Node)) :
    filesIn (fs.rewrite f) p (Node.rewriteEntries g entries) =
      (filesIn fs p entries).map fun e => (e.1, e.2.rewrite fun loc => g (e.1 :: loc)) := by
  rw [filesIn, Node.rewriteEntries_eq, List.filter_map, filesIn]
  congr 1
  refine List.filter_congr fun e _ => ?_
  simp only [Function.comp_apply, FileSystem.entryIsDir_rewrite]

theorem dirsIn_rewrite (p : Path) (g : Location → List UInt8 → List UInt8)
    (entries : List (String × Node)) :
    dirsIn (fs.rewrite f) p (Node.rewriteEntries g entries) =
      (dirsIn fs p entries).map fun e => (e.1, e.2.rewrite fun loc => g (e.1 :: loc)) := by
  rw [dirsIn, Node.rewriteEntries_eq, List.filter_map, dirsIn]
  congr 1
  refine List.filter_congr fun e _ => ?_
  simp only [Function.comp_apply, FileSystem.entryIsDir_rewrite]

theorem fileStep?_rewrite (p : Path) : fileStep? (fs.rewrite f) p = fileStep? fs p := by
  rw [fileStep?, fileStep?, (FileSystem.revised_rewrite fs f).refusal?,
    FileSystem.isPlainFile_rewrite]

theorem walkDir_rewrite (p : Path) (n : Node) (g : Location → List UInt8 → List UInt8) :
    walkDir (fs.rewrite f) p (n.rewrite g) = walkDir fs p n := by
  induction p, n using walkDir.induct fs generalizing g with
  | case1 p entries info hlist ih =>
    rw [Node.rewrite_dir, walkDir_dir, walkDir_dir, if_pos hlist, if_pos hlist, filesIn_rewrite,
      dirsIn_rewrite, List.filterMap_map]
    congr 1
    · exact List.filterMap_congr fun e _ => fileStep?_rewrite _
    · split
      · rw [List.flatMap_map]
        exact List.flatMap_congr fun e he => ih e he _
      · rfl
  | case2 p entries info hlist =>
    rw [Node.rewrite_dir, walkDir_dir, walkDir_dir, if_neg hlist, if_neg hlist]
  | case3 p n hne =>
    cases n with
    | file content => rw [Node.rewrite_file, walkDir_file, walkDir_file]
    | link target => rw [Node.rewrite_link, walkDir_link, walkDir_link]
    | dir entries info => exact absurd rfl (hne entries info)

/-- A walk takes the same steps, whatever is in the files. -/
theorem walkSteps_rewrite (p : Path) : walkSteps (fs.rewrite f) p = walkSteps fs p := by
  rw [walkSteps, walkSteps, (FileSystem.revised_rewrite fs f).startRefusal?,
    FileSystem.node?_rewrite, FileSystem.node?, FileSystem.isLink_rewrite]
  cases startRefusal? fs p with
  | some e => rfl
  | none =>
    cases fs.lookup true p with
    | error e => rfl
    | ok r =>
      obtain ⟨loc, n⟩ := r
      simp only [Except.toOption, Option.map_some, FileSystem.rewritten]
      cases n with
      | file content => rfl
      | link target => rfl
      | dir entries info =>
        have h : walkDir (fs.rewrite f) p _ = _ :=
          walkDir_rewrite p (.dir entries info) fun more => f (loc ++ more)
        rw [Node.rewrite_dir] at h ⊢
        exact h

end CommentTags

import CommentTags.Files.Walk
import CommentTags.Proofs.Files.WellFormed

namespace CommentTags

section UntilError

variable {ε α β : Type}

theorem untilError_map_ok_append (as : List α) (rest : List (Except ε α)) :
    untilError (as.map .ok ++ rest) = (as ++ (untilError rest).1, (untilError rest).2) := by
  induction as with
  | nil => rfl
  | cons a as ih =>
    rw [List.map_cons, List.cons_append, untilError, ih]
    rfl

theorem untilError_map_ok (as : List α) :
    untilError (as.map (Except.ok (ε := ε))) = (as, none) := by
  have h := untilError_map_ok_append as ([] : List (Except ε α))
  rwa [List.append_nil, untilError, List.append_nil] at h

/-- There is no error among the items, or what stands in front of the first one is known. -/
theorem untilError_cases (xs : List (Except ε α)) :
    ((untilError xs).2 = none ∧ xs = (untilError xs).1.map .ok) ∨
      ∃ e rest, (untilError xs).2 = some e ∧
        xs = (untilError xs).1.map .ok ++ .error e :: rest := by
  induction xs with
  | nil => exact Or.inl ⟨rfl, rfl⟩
  | cons x xs ih =>
    cases x with
    | error e => exact Or.inr ⟨e, xs, rfl, rfl⟩
    | ok a =>
      obtain ⟨hnone, hxs⟩ | ⟨e, rest, hsome, hxs⟩ := ih
      · exact Or.inl ⟨hnone, congrArg (Except.ok a :: ·) hxs⟩
      · exact Or.inr ⟨e, rest, hsome, congrArg (Except.ok a :: ·) hxs⟩

theorem ok_mem_of_mem_untilError {xs : List (Except ε α)} {a : α} (h : a ∈ (untilError xs).1) :
    .ok a ∈ xs := by
  have hmem : Except.ok a ∈ (untilError xs).1.map (Except.ok (ε := ε)) := List.mem_map_of_mem h
  obtain ⟨-, hxs⟩ | ⟨e, rest, -, hxs⟩ := untilError_cases xs
  · exact hxs ▸ hmem
  · rw [hxs]
    exact List.mem_append_left _ hmem

theorem untilError_isPrefix (xs : List (Except ε α)) :
    (untilError xs).1 <+: xs.filterMap Except.toOption := by
  induction xs with
  | nil => exact List.prefix_rfl
  | cons x xs ih =>
    cases x with
    | ok a => exact List.prefix_append_right_inj [a] |>.mpr ih
    | error e => exact List.nil_prefix

end UntilError

variable {fs : FileSystem} {p q : Path} {loc : Location} {entries : List (String × Node)}
  {info : DirInfo} {name : String} {names : List String} {node : Node}

theorem walkDir_dir (fs : FileSystem) (p : Path) (entries : List (String × Node))
    (info : DirInfo) :
    walkDir fs p (.dir entries info) =
      if info.listable then
        (filesIn fs p entries).filterMap (fun e => fileStep? fs (p.child e.1)) ++
          if info.searchable then
            (dirsIn fs p entries).flatMap fun e => walkDir fs (p.child e.1) e.2
          else []
      else [] := by
  rw [walkDir, List.flatMap_subtype, List.unattach_attach]
  exact fun _ _ => rfl

theorem walkDir_file (fs : FileSystem) (p : Path) (content : List UInt8) :
    walkDir fs p (.file content) = [] := by
  rw [walkDir]
  exact fun _ _ h => by cases h

theorem walkDir_link (fs : FileSystem) (p : Path) (target : String) :
    walkDir fs p (.link target) = [] := by
  rw [walkDir]
  exact fun _ _ h => by cases h

theorem walkDir_of_isLink {n : Node} (h : n.isLink = true) : walkDir fs p n = [] := by
  cases n with
  | link target => exact walkDir_link fs p target
  | file content => cases h
  | dir entries info => cases h

theorem mem_of_mem_filesIn {e : String × Node} (h : e ∈ filesIn fs p entries) : e ∈ entries :=
  (List.mem_filter.mp h).1

theorem mem_of_mem_dirsIn {e : String × Node} (h : e ∈ dirsIn fs p entries) : e ∈ entries :=
  (List.mem_filter.mp h).1

theorem lookup_entry {e : String × Node} (h : fs.root.WellFormed)
    (hp : fs.lookup true p = .ok (loc, .dir entries info)) (hs : info.searchable = true)
    (he : e ∈ entries) (hl : e.2.isLink = false) :
    fs.lookup true (p.child e.1) = .ok (loc ++ [e.1], e.2) := by
  have hn := FileSystem.lookup_wellFormed h hp
  refine FileSystem.lookup_child hp hs (hn.isEntryName_of_mem he)
    (Node.lookup_of_mem hn.nodup_names he) ?_
  exact fun hl' => absurd hl' (Bool.eq_false_iff.mp hl)

namespace FileSystem

theorem refusal?_of_lookup {follow : Bool} {found : Location × Node}
    (h : fs.lookup follow p = .ok found) : fs.refusal? follow p = none := by
  rw [refusal?, h]

theorem exists_lookupFrom_false {links : Nat} {found : Location × Node}
    (h : fs.lookupFrom true links loc names = .ok found) :
    ∃ found', fs.lookupFrom false links loc names = .ok found' := by
  fun_induction lookupFrom fs true links loc names with
  | case1 links loc n hd => exact ⟨_, lookupFrom_nil fs hd⟩
  | case7 links loc names es info hd hs ih =>
    obtain ⟨found', h'⟩ := ih h
    exact ⟨found', (lookupFrom_dot fs hd (searchable_of_not hs)).trans h'⟩
  | case8 links loc names es info hd hs _ ih =>
    obtain ⟨found', h'⟩ := ih h
    exact ⟨found', (lookupFrom_dotdot fs hd (searchable_of_not hs)).trans h'⟩
  | case10 => rename_i hn; exact absurd hn.2 (by decide)
  | case12 loc name names es info hd hs h1 h2 target he _ links ih =>
    cases names with
    | nil => exact ⟨_, lookupFrom_last_link fs hd (searchable_of_not hs) h1 h2 he⟩
    | cons next names =>
      obtain ⟨found', h'⟩ := ih h
      have hn : ¬ (next :: names = [] ∧ (!false) = true) := fun hn => by cases hn.1
      exact ⟨found', (lookupFrom_link fs hd (searchable_of_not hs) h1 h2 he hn).trans h'⟩
  | case13 links loc name names es info hd hs h1 h2 n hl he ih =>
    obtain ⟨found', h'⟩ := ih h
    exact ⟨found', (lookupFrom_entry fs hd (searchable_of_not hs) h1 h2 he
      (Node.isLink_eq_false hl)).trans h'⟩
  | _ => cases h

theorem isFile_iff : fs.isFile p = true ↔ ∃ content, fs.node? p = some (.file content) := by
  rw [isFile, Option.any_eq_true]
  constructor
  · rintro ⟨n, hn, hfile⟩
    cases n with
    | file content => exact ⟨content, hn⟩
    | link target => cases hfile
    | dir entries info => cases hfile
  · rintro ⟨content, h⟩
    exact ⟨_, h, rfl⟩

theorem refusal?_of_isFile (h : fs.isFile p = true) : fs.refusal? false p = none := by
  obtain ⟨content, hnode⟩ := isFile_iff.mp h
  obtain ⟨loc, hlookup⟩ := node?_eq_some_iff.mp hnode
  obtain ⟨hnul, hlookup⟩ := lookup_eq_ok_iff.mp hlookup
  obtain ⟨found, hfound⟩ := exists_lookupFrom_false hlookup
  exact refusal?_of_lookup (lookup_eq_ok_iff.mpr ⟨hnul, hfound⟩)

end FileSystem

theorem fileStep?_of_isPlainFile (h : fs.isPlainFile p = true) :
    fileStep? fs p = some (.ok p) := by
  rw [fileStep?, FileSystem.refusal?_of_isFile (Bool.and_eq_true_iff.mp h).1]
  exact if_pos h

theorem fileStep?_eq_ok_iff : fileStep? fs p = some (.ok q) ↔ q = p ∧ fs.isPlainFile p = true := by
  refine ⟨fun h => ?_, by rintro ⟨rfl, h⟩; exact fileStep?_of_isPlainFile h⟩
  unfold fileStep? at h
  split at h
  · cases h
  · split at h
    · rename_i hfile
      cases h
      exact ⟨rfl, hfile⟩
    · cases h

theorem fileStep?_child {n : Node} (h : fs.lookup true p = .ok (loc, .dir entries info))
    (hs : info.searchable = true) (hname : IsEntryName name) (he : entries.lookup name = some n) :
    fileStep? fs (p.child name) = if n.isFile then some (.ok (p.child name)) else none := by
  have hself := FileSystem.lookup_child h hs hname he fun _ => rfl
  rw [fileStep?, FileSystem.refusal?_of_lookup hself, FileSystem.isPlainFile_child h hs hname he]

theorem fileStep?_child_of_unsearchable (h : fs.lookup true p = .ok (loc, .dir entries info))
    (hs : info.searchable = false) (hname : IsEntryName name) :
    fileStep? fs (p.child name) = some (.error (.denied (p.child name).toString)) := by
  have hself : fs.lookup false (p.child name) = .error .denied :=
    FileSystem.lookup_child_of_unsearchable h hs hname
  rw [fileStep?, FileSystem.refusal?, hself]

end CommentTags

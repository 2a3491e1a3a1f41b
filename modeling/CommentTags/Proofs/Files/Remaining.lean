import CommentTags.Proofs.Files.Without
import Mathlib.Data.List.Basic

namespace CommentTags

variable {fs : FileSystem} {gone : Location → Bool} {p q : Path} {loc : Location}
  {entries : List (String × Node)} {info : DirInfo}

theorem untilError_filter {ε α : Type} (c : Except ε α → Bool) (xs : List (Except ε α))
    (h : ∀ e, c (.error e) = true) :
    untilError (xs.filter c) =
      ((untilError xs).1.filter fun a => c (.ok a), (untilError xs).2) := by
  induction xs with
  | nil => rfl
  | cons x xs ih =>
    rw [List.filter_cons]
    cases x with
    | error e => rw [if_pos (h e), untilError, untilError, List.filter_nil]
    | ok a =>
      rw [untilError, List.filter_cons]
      split
      · rw [untilError, ih]
      · exact ih

theorem filesIn_withoutAt (h : fs.root.WellFormed) (hroot : fs.root.isFile = false) (p : Path)
    (gone' : Location → Bool) (entries : List (String × Node)) :
    filesIn (fs.withoutAt gone) p (Node.withoutEntries gone' entries) =
      ((filesIn fs p entries).filter fun e => !e.2.isRemoved gone' [e.1]).map fun e =>
        (e.1, e.2.without fun loc => gone' (e.1 :: loc)) := by
  rw [filesIn, Node.withoutEntries_eq, List.filter_map, filesIn, List.filter_filter,
    List.filter_filter]
  congr 1
  refine List.filter_congr fun e _ => ?_
  rw [Bool.and_comm]
  simp only [Function.comp_apply, FileSystem.entryIsDir_withoutAt h hroot]

theorem dirsIn_withoutAt (h : fs.root.WellFormed) (hroot : fs.root.isFile = false) (p : Path)
    (gone' : Location → Bool) (entries : List (String × Node)) :
    dirsIn (fs.withoutAt gone) p (Node.withoutEntries gone' entries) =
      (dirsIn fs p entries).map fun e => (e.1, e.2.without fun loc => gone' (e.1 :: loc)) := by
  rw [dirsIn, Node.withoutEntries_eq, List.filter_map, dirsIn, List.filter_filter]
  congr 1
  refine List.filter_congr fun e _ => ?_
  simp only [Function.comp_apply, FileSystem.entryIsDir_withoutAt h hroot]
  cases hd : fs.entryIsDir (p.child e.1) e.2 with
  | false => rw [Bool.false_and, Bool.false_and]
  | true =>
    have hfile : e.2.isFile = false := by
      cases he : e.2 with
      | file content => rw [he] at hd; cases hd
      | _ => rfl
    rw [Node.isRemoved, hfile, Bool.false_and, Bool.not_false, Bool.and_true]

def FileSystem.keeps (fs : FileSystem) (gone : Location → Bool) : WalkStep → Bool
  | .ok q => !fs.leadsTo gone q
  | .error _ => true

theorem fileStep?_withoutAt (h : fs.root.WellFormed) (hroot : fs.root.isFile = false) (p : Path) :
    fileStep? (fs.withoutAt gone) p = (fileStep? fs p).filter (fs.keeps gone) := by
  rw [fileStep?, fileStep?, (FileSystem.revised_withoutAt h hroot gone).refusal?,
    FileSystem.isPlainFile_withoutAt h hroot]
  cases fs.refusal? false p with
  | some e => rfl
  | none =>
    cases fs.isPlainFile p with
    | false => rfl
    | true =>
      rw [Bool.true_and]
      dsimp only
      rw [if_pos rfl, Option.filter_some, FileSystem.keeps]

theorem leadsTo_child {e : String × Node} (h : fs.root.WellFormed)
    (hp : fs.lookup true p = .ok (loc, .dir entries info)) (hs : info.searchable = true)
    (he : e ∈ entries) (hl : e.2.isLink = false) :
    fs.leadsTo gone (p.child e.1) = gone (loc ++ [e.1]) := by
  rw [FileSystem.leadsTo, FileSystem.location?, lookup_entry h hp hs he hl]
  rfl

theorem fileStep?_of_isRemoved {e : String × Node} (h : fs.root.WellFormed)
    (hgone : ∀ loc, gone loc = true → fs.root.reach? loc ≠ none)
    (hp : fs.lookup true p = .ok (loc, .dir entries info)) (he : e ∈ entries)
    (hr : e.2.isRemoved (fun more => gone (loc ++ more)) [e.1] = true) :
    (fileStep? fs (p.child e.1)).filter (fs.keeps gone) = none := by
  obtain ⟨hfile, hloc⟩ : e.2.isFile = true ∧ gone (loc ++ [e.1]) = true :=
    Bool.and_eq_true_iff.mp hr
  have hn := FileSystem.lookup_wellFormed h hp
  have hname := hn.isEntryName_of_mem he
  have hs : info.searchable = true := by
    cases hs : info.searchable with
    | true => rfl
    | false =>
      have hd := FileSystem.lookup_reach? hp
      exact absurd (FileSystem.reach?_concat_of_unsearchable fs hd hs) (hgone _ hloc)
  have hl : e.2.isLink = false := by
    cases hnode : e.2 with
    | link target => rw [hnode] at hfile; cases hfile
    | _ => rfl
  rw [fileStep?_child hp hs hname (Node.lookup_of_mem hn.nodup_names he), if_pos hfile,
    Option.filter_some, FileSystem.keeps, leadsTo_child h hp hs he hl, hloc]
  rfl

theorem walkDir_withoutAt (h : fs.root.WellFormed) (hroot : fs.root.isFile = false)
    (hgone : ∀ loc, gone loc = true → fs.root.reach? loc ≠ none) {n : Node}
    (hp : fs.lookup true p = .ok (loc, n)) :
    walkDir (fs.withoutAt gone) p (n.without fun more => gone (loc ++ more)) =
      (walkDir fs p n).filter (fs.keeps gone) := by
  induction p, n using walkDir.induct fs generalizing loc with
  | case1 p entries info hlist ih =>
    rw [Node.without, walkDir_dir, walkDir_dir, if_pos hlist, if_pos hlist,
      filesIn_withoutAt h hroot, dirsIn_withoutAt h hroot, List.filter_append]
    congr 1
    · rw [List.filterMap_map, List.filterMap_filter, List.filter_filterMap]
      refine List.filterMap_congr fun e he => ?_
      rw [Function.comp_apply]
      cases hr : e.2.isRemoved (fun more => gone (loc ++ more)) [e.1] with
      | true =>
        rw [fileStep?_of_isRemoved h hgone hp (mem_of_mem_filesIn he) hr]
        rfl
      | false => exact fileStep?_withoutAt h hroot _
    · split
      · rename_i hsearch
        rw [List.filter_flatMap, List.flatMap_map]
        refine List.flatMap_congr fun e he => ?_
        have hmem := mem_of_mem_dirsIn he
        cases hl : e.2.isLink with
        | true =>
          rw [walkDir_of_isLink hl, walkDir_of_isLink (Node.isLink_without.trans hl),
            List.filter_nil]
        | false =>
          have hrest := ih e he (lookup_entry h hp hsearch hmem hl)
          simp only [List.append_assoc, List.singleton_append] at hrest
          exact hrest
      · rfl
  | case2 p entries info hlist =>
    rw [Node.without, walkDir_dir, walkDir_dir, if_neg hlist, if_neg hlist, List.filter_nil]
  | case3 p n hne =>
    cases n with
    | file content => rw [Node.without, walkDir_file, walkDir_file, List.filter_nil]
    | link target => rw [Node.without, walkDir_link, walkDir_link, List.filter_nil]
    | dir entries info => exact absurd rfl (hne entries info)

theorem walkSteps_withoutAt (h : fs.root.WellFormed) (hroot : fs.root.isFile = false)
    (hgone : ∀ loc, gone loc = true → fs.root.reach? loc ≠ none) (p : Path) :
    walkSteps (fs.withoutAt gone) p = (walkSteps fs p).filter (fs.keeps gone) := by
  have hrevised := FileSystem.revised_withoutAt h hroot gone
  rw [walkSteps, walkSteps, hrevised.startRefusal?]
  cases startRefusal? fs p with
  | some e => rfl
  | none =>
    cases hp : fs.lookup true p with
    | error e =>
      rw [FileSystem.node?_withoutAt_of_error h hroot hp, FileSystem.node?, hp]
      rfl
    | ok r =>
      obtain ⟨loc, n⟩ := r
      rw [FileSystem.node?_eq_some_iff.mpr ⟨loc, hp⟩, FileSystem.node?_withoutAt h hroot hp,
        Node.remains]
      cases n with
      | link target => rfl
      | dir entries info => exact walkDir_withoutAt h hroot hgone hp
      | file content =>
        have hleads : fs.leadsTo gone p = gone loc := by
          rw [FileSystem.leadsTo, FileSystem.location?, hp]
          rfl
        rw [Node.isRemoved, Node.isFile, Bool.true_and, Node.without]
        dsimp only
        rw [apply_ite (List.filter _), List.filter_nil, List.filter_cons, FileSystem.keeps, hleads,
          List.filter_nil, hrevised.isLink]
        cases gone loc with
        | true => exact (ite_self _).symm
        | false => rfl

theorem walk_withoutAt (h : fs.root.WellFormed) (hroot : fs.root.isFile = false)
    (hgone : ∀ loc, gone loc = true → fs.root.reach? loc ≠ none) (p : Path) :
    walk (fs.withoutAt gone) p = (walk fs p).filter (fun q => !fs.leadsTo gone q) ∧
      walkRefusal? (fs.withoutAt gone) p = walkRefusal? fs p := by
  rw [walk, walkRefusal?, walkSteps_withoutAt h hroot hgone, untilError_filter _ _ fun _ => rfl]
  exact ⟨rfl, rfl⟩

theorem lookup_of_mem_walkDir {n : Node} (h : fs.root.WellFormed)
    (hp : fs.lookup true p = .ok (loc, n)) (hq : .ok q ∈ walkDir fs p n) :
    ∃ more content, q = p.below more ∧ fs.lookup true q = .ok (loc ++ more, .file content) := by
  induction p, n using walkDir.induct fs generalizing loc with
  | case1 p entries info hlist ih =>
    have hn := FileSystem.lookup_wellFormed h hp
    rw [walkDir_dir, if_pos hlist] at hq
    obtain hq | hq := List.mem_append.mp hq
    · obtain ⟨e, he, hstep⟩ := List.mem_filterMap.mp hq
      obtain ⟨rfl, hfile⟩ := fileStep?_eq_ok_iff.mp hstep
      have hname := hn.isEntryName_of_mem (mem_of_mem_filesIn he)
      obtain ⟨hs, content, hentry⟩ := (FileSystem.isPlainFile_child_iff hp hname).mp hfile
      exact ⟨[e.1], content, rfl,
        FileSystem.lookup_child hp hs hname hentry fun h => (by cases h)⟩
    · split at hq
      · rename_i hsearch
        obtain ⟨e, he, hq⟩ := List.mem_flatMap.mp hq
        have hmem := mem_of_mem_dirsIn he
        cases hl : e.2.isLink with
        | true =>
          rw [walkDir_of_isLink hl] at hq
          cases hq
        | false =>
          obtain ⟨more, content, rfl, hq⟩ := ih e he (lookup_entry h hp hsearch hmem hl) hq
          rw [List.append_assoc, List.singleton_append] at hq
          exact ⟨e.1 :: more, content, (p.below_cons e.1 more).symm, hq⟩
      · cases hq
  | case2 p entries info hlist =>
    rw [walkDir_dir, if_neg hlist] at hq
    cases hq
  | case3 p n hne =>
    rw [walkDir] at hq
    · cases hq
    · exact hne

theorem lookup_of_mem_walk (h : fs.root.WellFormed) (hq : q ∈ walk fs p) :
    ∃ loc more content, fs.location? p = some loc ∧ q = p.below more ∧
      fs.lookup true q = .ok (loc ++ more, .file content) := by
  have hlocation {loc : Location} {n : Node} (hp : fs.lookup true p = .ok (loc, n)) :
      fs.location? p = some loc := by
    rw [FileSystem.location?, hp]
    rfl
  have hq : .ok q ∈ walkSteps fs p := ok_mem_of_mem_untilError hq
  unfold walkSteps at hq
  split at hq
  · cases List.mem_singleton.mp hq
  · split at hq
    · rename_i content hn
      obtain ⟨loc, hp⟩ := FileSystem.node?_eq_some_iff.mp hn
      split at hq
      · cases hq
      · cases List.mem_singleton.mp hq
        refine ⟨loc, [], content, hlocation hp, p.below_nil.symm, ?_⟩
        rwa [List.append_nil]
    · rename_i entries info hn
      obtain ⟨loc, hp⟩ := FileSystem.node?_eq_some_iff.mp hn
      obtain ⟨more, content, hbelow, hlookup⟩ := lookup_of_mem_walkDir h hp hq
      exact ⟨loc, more, content, hlocation hp, hbelow, hlookup⟩
    · cases hq

theorem exists_content?_of_mem_walk (h : fs.root.WellFormed) (hq : q ∈ walk fs p) :
    ∃ content, fs.content? q = some content := by
  obtain ⟨loc, more, content, -, -, hlookup⟩ := lookup_of_mem_walk h hq
  refine ⟨content, ?_⟩
  rw [FileSystem.content?, FileSystem.node?_eq_some_iff.mpr ⟨_, hlookup⟩]

theorem location?_inj {q' : Path} (h : fs.root.WellFormed) (hq : q ∈ walk fs p)
    (hq' : q' ∈ walk fs p) (heq : fs.location? q = fs.location? q') : q = q' := by
  obtain ⟨loc, more, content, hloc, rfl, hlookup⟩ := lookup_of_mem_walk h hq
  obtain ⟨loc', more', content', hloc', rfl, hlookup'⟩ := lookup_of_mem_walk h hq'
  obtain rfl := Option.some.inj (hloc.symm.trans hloc')
  rw [FileSystem.location?, FileSystem.location?, hlookup, hlookup'] at heq
  have hmore : loc ++ more = loc ++ more' := Option.some.inj heq
  rw [List.append_cancel_left hmore]

theorem names_of_mem_walk_of_isFile (h : fs.root.WellFormed) (hroot : fs.root.isFile = true)
    (hq : q ∈ walk fs p) : q.names = [] := by
  obtain ⟨loc, more, content, -, -, hlookup⟩ := lookup_of_mem_walk h hq
  obtain ⟨-, hlookup⟩ := FileSystem.lookup_eq_ok_iff.mp hlookup
  cases hnames : q.names with
  | nil => rfl
  | cons name names =>
    rw [hnames, FileSystem.lookupFrom] at hlookup
    split at hlookup
    · cases hlookup
    · cases hlookup
    · cases hlookup
    · rename_i entries info hd
      by_cases hstart : fs.start q = []
      · rw [hstart, Node.reach?] at hd
        obtain hd := Option.some.inj hd
        rw [hd] at hroot
        cases hroot
      · rw [Node.reach?_of_isFile hroot hstart] at hd
        cases hd

/-- The file system without the files that some paths lead to. -/
def FileSystem.withoutFiles (fs : FileSystem) (ps : List Path) : FileSystem :=
  fs.withoutAt fun loc => ps.any fun p => fs.location? p = some loc

theorem leadsTo_files (h : fs.root.WellFormed) {ps : List Path} (hps : ps ⊆ walk fs p)
    (hq : q ∈ walk fs p) :
    fs.leadsTo (fun loc => ps.any fun p => fs.location? p = some loc) q = decide (q ∈ ps) := by
  obtain ⟨loc, more, content, -, -, hlookup⟩ := lookup_of_mem_walk h hq
  have hloc : fs.location? q = some (loc ++ more) := by
    rw [FileSystem.location?, hlookup]; rfl
  rw [FileSystem.leadsTo, hloc, Option.any_some, Bool.eq_iff_iff, List.any_eq_true,
    decide_eq_true_eq]
  constructor
  · rintro ⟨q', hq', heq⟩
    rwa [location?_inj h hq (hps hq') (hloc.trans (of_decide_eq_true heq).symm)]
  · exact fun hmem => ⟨q, hmem, decide_eq_true hloc⟩

/-- Without some of its files a walk comes to all others, in the same order. -/
theorem walk_withoutFiles (h : fs.root.WellFormed) (hroot : fs.root.isFile = false)
    {ps : List Path} (hps : ps ⊆ walk fs p) :
    walk (fs.withoutFiles ps) p = (walk fs p).filter (· ∉ ps) ∧
      walkRefusal? (fs.withoutFiles ps) p = walkRefusal? fs p := by
  have hgone (loc : Location) (hloc : (ps.any fun p => fs.location? p = some loc) = true) :
      fs.root.reach? loc ≠ none := by
    obtain ⟨q, hq, heq⟩ := List.any_eq_true.mp hloc
    obtain ⟨loc', more, content, -, -, hlookup⟩ := lookup_of_mem_walk h (hps hq)
    rw [FileSystem.location?, hlookup] at heq
    obtain rfl := Option.some.inj (of_decide_eq_true heq)
    exact Option.ne_none_iff_exists'.mpr ⟨_, FileSystem.lookup_reach? hlookup⟩
  obtain ⟨hwalk, hrefusal⟩ := walk_withoutAt h hroot hgone p
  refine ⟨hwalk.trans (List.filter_congr fun q hq => ?_), hrefusal⟩
  rw [leadsTo_files h hps hq, decide_not]

theorem content?_withoutFiles (h : fs.root.WellFormed) (hroot : fs.root.isFile = false)
    {ps : List Path} (hps : ps ⊆ walk fs p) (hq : q ∈ walk fs p) (hne : q ∉ ps) :
    (fs.withoutFiles ps).content? q = fs.content? q := by
  obtain ⟨loc, more, content, -, -, hlookup⟩ := lookup_of_mem_walk h hq
  have hgone := leadsTo_files h hps hq
  rw [FileSystem.leadsTo, FileSystem.location?, hlookup, decide_eq_false hne] at hgone
  rw [FileSystem.withoutFiles, FileSystem.content?_withoutAt h hroot hlookup hgone,
    FileSystem.content?, FileSystem.node?_eq_some_iff.mpr ⟨_, hlookup⟩]

end CommentTags

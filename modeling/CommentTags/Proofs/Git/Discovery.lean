import CommentTags.Git.Repository
import CommentTags.Proofs.Files.Resolve
import Mathlib.Data.List.Infix

namespace CommentTags.Git

/-- Going up from a location to the root, `dir` is where a repository opens first. -/
structure OpensFirst (fs : FileSystem) (loc dir : Location) (h : Handle) : Prop where
  above : dir <+: loc
  opens : openAt? fs dir = some h
  first : ∀ nearer, nearer <+: loc → dir.length < nearer.length → openAt? fs nearer = none

/-- The names of a path lead somewhere up to one with a null byte. -/
def MeetsNul (fs : FileSystem) (p : Path) : Prop :=
  ∃ before name after loc, p.names = before ++ name :: after ∧ hasNul name = true ∧
    fs.Denotes true ⟨p.anchor, before⟩ loc

structure FindsInnermost (fs : FileSystem) : Prop where
  found_iff : ∀ path h, findRepository fs path = (.ok (some h), []) ↔
    ∃ loc dir, fs.Denotes true (.ofString path) loc ∧ OpensFirst fs loc dir h
  /-- Nothing is said where a name does not exist or links go round in a circle. -/
  missing_iff : fs.root.WellFormed → ∀ path, findRepository fs path = (.ok none, []) ↔
    ¬ (∃ loc, fs.Denotes true (.ofString path) loc) ∧ ¬ MeetsNul fs (.ofString path)
  /-- The only notice there can be names the path as it was given. -/
  nothing_iff : ∀ path, findRepository fs path = (.ok none, [.noRepository path]) ↔
    ∃ loc, fs.Denotes true (.ofString path) loc ∧ ∀ dir, dir <+: loc → openAt? fs dir = none
  /-- Where a null byte is come to there is an error and no answer. -/
  fails_iff : fs.root.WellFormed → ∀ path, findRepository fs path = (.error .nullByte, []) ↔
    MeetsNul fs (.ofString path)
  cases : ∀ path, (∃ h, findRepository fs path = (.ok (some h), [])) ∨
    findRepository fs path = (.ok none, []) ∨
    findRepository fs path = (.ok none, [.noRepository path]) ∨
    findRepository fs path = (.error .nullByte, [])
  notice_text : ∀ path, (Notice.noRepository path).text =
    "DEBUG tagscan.blame: No git repository found above " ++ path
  denotes_of_pathExists : fs.root.WellFormed → ∀ path, fs.pathExists (.ofString path) = true →
    ∃ loc, fs.Denotes true (.ofString path) loc
  /-- The directories above an existing path can be searched from themselves. -/
  above : fs.root.WellFormed → fs.HasHere → ∀ path loc dir,
    fs.Denotes true (.ofString path) loc → dir <+: loc →
      fs.Denotes true (.ofString (Path.mk .root dir).toString) dir
  below : ∀ path path' loc dir, fs.Denotes true (.ofString path) loc →
    fs.Denotes true (.ofString path') dir → dir <+: loc →
      (∀ nearer, nearer <+: loc → dir.length < nearer.length → openAt? fs nearer = none) →
        (findRepository fs path).1 = (findRepository fs path').1
  /-- A link and its target are in the same repository. -/
  link : fs.root.WellFormed → ∀ path path' (p : Path) name target,
    .ofString path = p.child name → name ≠ ".." →
      fs.nodeItself? (.ofString path) = some (.link target) →
        .ofString path' = p.linkTarget target →
          (findRepository fs path).1 = (findRepository fs path').1

variable {fs : FileSystem} {loc dir : Location} {h : Handle} {path path' : String}

theorem openAbove?_concat (fs : FileSystem) (loc : Location) (name : String) :
    openAbove? fs (loc ++ [name]).reverse =
      (openAt? fs (loc ++ [name])).or (openAbove? fs loc.reverse) := by
  rw [List.reverse_concat, openAbove?, List.reverse_cons, List.reverse_reverse]

theorem opensFirst_self (hopens : openAt? fs loc = some h) : OpensFirst fs loc loc h where
  above := List.prefix_rfl
  opens := hopens
  first _ hpre hlt := absurd hpre.length_le (Nat.not_le_of_lt hlt)

theorem OpensFirst.eq_self {h' : Handle} (hfirst : OpensFirst fs loc dir h)
    (hopens : openAt? fs loc = some h') : h' = h := by
  obtain hlt | hle := Nat.lt_or_ge dir.length loc.length
  · rw [hfirst.first loc List.prefix_rfl hlt] at hopens
    cases hopens
  · rw [hfirst.above.eq_of_length_le hle] at hfirst
    exact Option.some.inj (hopens.symm.trans hfirst.opens)

theorem opensFirst_concat_of_none {name : String} (hlast : openAt? fs (loc ++ [name]) = none) :
    OpensFirst fs (loc ++ [name]) dir h ↔ OpensFirst fs loc dir h := by
  constructor
  · rintro ⟨habove, hopens, hfirst⟩
    obtain rfl | habove := List.prefix_concat_iff.mp habove
    · rw [hlast] at hopens
      cases hopens
    · exact ⟨habove, hopens, fun nearer hpre => hfirst nearer (hpre.trans (List.prefix_append _ _))⟩
  · rintro ⟨habove, hopens, hfirst⟩
    refine ⟨habove.trans (List.prefix_append _ _), hopens, fun nearer hpre hlt => ?_⟩
    obtain rfl | hpre := List.prefix_concat_iff.mp hpre
    · exact hlast
    · exact hfirst nearer hpre hlt

theorem openAbove?_eq_some_iff :
    openAbove? fs loc.reverse = some h ↔ ∃ dir, OpensFirst fs loc dir h := by
  induction loc using List.reverseRecOn with
  | nil =>
    refine ⟨fun hopen => ⟨[], opensFirst_self hopen⟩, ?_⟩
    rintro ⟨dir, habove, hopens, -⟩
    rwa [List.prefix_nil.mp habove] at hopens
  | append_singleton loc name ih =>
    rw [openAbove?_concat]
    cases hlast : openAt? fs (loc ++ [name]) with
    | some h' =>
      rw [Option.some_or, Option.some_inj]
      exact ⟨fun heq => ⟨_, opensFirst_self (heq ▸ hlast)⟩, fun ⟨_, hfirst⟩ => hfirst.eq_self hlast⟩
    | none =>
      rw [Option.none_or, ih]
      exact exists_congr fun dir => (opensFirst_concat_of_none hlast).symm

theorem openAbove?_eq_none_iff :
    openAbove? fs loc.reverse = none ↔ ∀ dir, dir <+: loc → openAt? fs dir = none := by
  induction loc using List.reverseRecOn with
  | nil => exact ⟨fun hopen dir hpre => List.prefix_nil.mp hpre ▸ hopen,
      fun hall => hall [] List.prefix_rfl⟩
  | append_singleton loc name ih =>
    rw [openAbove?_concat, Option.or_eq_none_iff, ih]
    constructor
    · rintro ⟨hlast, hall⟩ dir hpre
      obtain rfl | hpre := List.prefix_concat_iff.mp hpre
      · exact hlast
      · exact hall dir hpre
    · exact fun hall => ⟨hall _ List.prefix_rfl,
        fun dir hpre => hall dir (hpre.trans (List.prefix_append _ _))⟩

theorem openAbove?_of_above (habove : dir <+: loc)
    (hfirst : ∀ nearer, nearer <+: loc → dir.length < nearer.length → openAt? fs nearer = none) :
    openAbove? fs loc.reverse = openAbove? fs dir.reverse := by
  refine Option.ext fun h => ?_
  rw [openAbove?_eq_some_iff, openAbove?_eq_some_iff]
  constructor
  · rintro ⟨top, htop, hopens, hnearer⟩
    have hle : top.length ≤ dir.length := by
      refine Nat.le_of_not_lt fun hlt => ?_
      rw [hfirst top htop hlt] at hopens
      cases hopens
    exact ⟨top, List.prefix_of_prefix_length_le htop habove hle, hopens,
      fun nearer hpre => hnearer nearer (hpre.trans habove)⟩
  · rintro ⟨top, htop, hopens, hnearer⟩
    refine ⟨top, htop.trans habove, hopens, fun nearer hpre hlt => ?_⟩
    obtain hlt' | hle := Nat.lt_or_ge dir.length nearer.length
    · exact hfirst nearer hpre hlt'
    · exact hnearer nearer (List.prefix_of_prefix_length_le hpre habove hle) hlt

theorem findRepository_of_some (hloc : fs.Denotes true (.ofString path) loc)
    (hopen : openAbove? fs loc.reverse = some h) :
    findRepository fs path = (.ok (some h), []) := by
  have hresolved := FileSystem.resolveStrict?_eq_some_iff.mpr hloc
  simp only [findRepository, hresolved, hopen]

theorem findRepository_of_none (hloc : fs.Denotes true (.ofString path) loc)
    (hopen : openAbove? fs loc.reverse = none) :
    findRepository fs path = (.ok none, [.noRepository path]) := by
  have hresolved := FileSystem.resolveStrict?_eq_some_iff.mpr hloc
  simp only [findRepository, hresolved, hopen]

theorem findRepository_fst (hloc : fs.Denotes true (.ofString path) loc) :
    (findRepository fs path).1 = .ok (openAbove? fs loc.reverse) := by
  cases hopen : openAbove? fs loc.reverse with
  | some h => rw [findRepository_of_some hloc hopen]
  | none => rw [findRepository_of_none hloc hopen]

/-- Either a path denotes no location, or a repository opens there or above, or none does. -/
theorem findRepository_cases (fs : FileSystem) (path : String) :
    (¬ (∃ loc, fs.Denotes true (.ofString path) loc) ∧
      (fs.resolveStrict? (.ofString path) = .ok none ∧ findRepository fs path = (.ok none, []) ∨
        fs.resolveStrict? (.ofString path) = .error .nullByte ∧
          findRepository fs path = (.error .nullByte, []))) ∨
      (∃ loc h, fs.Denotes true (.ofString path) loc ∧ openAbove? fs loc.reverse = some h ∧
        findRepository fs path = (.ok (some h), [])) ∨
      ∃ loc, fs.Denotes true (.ofString path) loc ∧ openAbove? fs loc.reverse = none ∧
        findRepository fs path = (.ok none, [.noRepository path]) := by
  by_cases hloc : ∃ loc, fs.Denotes true (.ofString path) loc
  · obtain ⟨loc, hloc⟩ := hloc
    cases hopen : openAbove? fs loc.reverse with
    | some h => exact .inr (.inl ⟨loc, h, hloc, hopen, findRepository_of_some hloc hopen⟩)
    | none => exact .inr (.inr ⟨loc, hloc, hopen, findRepository_of_none hloc hopen⟩)
  · refine .inl ⟨hloc, ?_⟩
    obtain hnone | herror := FileSystem.resolveStrict?_of_not_denotes (not_exists.mp hloc)
    · exact .inl ⟨hnone, by rw [findRepository, hnone]⟩
    · exact .inr ⟨herror, by rw [findRepository, herror]⟩

theorem findRepository_eq_some_iff : findRepository fs path = (.ok (some h), []) ↔
    ∃ loc dir, fs.Denotes true (.ofString path) loc ∧ OpensFirst fs loc dir h := by
  constructor
  · intro hfind
    obtain ⟨-, ⟨-, heq⟩ | ⟨-, heq⟩⟩ | ⟨loc, h', hloc, hopen, heq⟩ | ⟨loc, -, -, heq⟩ :=
      findRepository_cases fs path
    · cases heq.symm.trans hfind
    · cases heq.symm.trans hfind
    · cases heq.symm.trans hfind
      obtain ⟨dir, hdir⟩ := openAbove?_eq_some_iff.mp hopen
      exact ⟨loc, dir, hloc, hdir⟩
    · cases heq.symm.trans hfind
  · rintro ⟨loc, dir, hloc, hdir⟩
    exact findRepository_of_some hloc (openAbove?_eq_some_iff.mpr ⟨dir, hdir⟩)

theorem findRepository_eq_notice_iff :
    findRepository fs path = (.ok none, [.noRepository path]) ↔
      ∃ loc, fs.Denotes true (.ofString path) loc ∧
        ∀ dir, dir <+: loc → openAt? fs dir = none := by
  constructor
  · intro hfind
    obtain ⟨-, ⟨-, heq⟩ | ⟨-, heq⟩⟩ | ⟨loc, h', -, -, heq⟩ | ⟨loc, hloc, hopen, -⟩ :=
      findRepository_cases fs path
    · cases heq.symm.trans hfind
    · cases heq.symm.trans hfind
    · cases heq.symm.trans hfind
    · exact ⟨loc, hloc, openAbove?_eq_none_iff.mp hopen⟩
  · rintro ⟨loc, hloc, hall⟩
    exact findRepository_of_none hloc (openAbove?_eq_none_iff.mpr hall)

theorem resolveStrict?_fails_iff (hfs : fs.root.WellFormed) :
    fs.resolveStrict? (.ofString path) = .error .nullByte ↔ MeetsNul fs (.ofString path) :=
  (FileSystem.resolveStrict?_eq_error_iff hfs).trans (and_iff_right rfl)

theorem findRepository_fails_iff (hfs : fs.root.WellFormed) :
    findRepository fs path = (.error .nullByte, []) ↔ MeetsNul fs (.ofString path) := by
  rw [← resolveStrict?_fails_iff hfs]
  obtain ⟨-, ⟨hnone, heq⟩ | ⟨herror, heq⟩⟩ | ⟨loc, h, hloc, -, heq⟩ | ⟨loc, hloc, -, heq⟩ :=
    findRepository_cases fs path
  · rw [heq, hnone]
    exact ⟨nofun, nofun⟩
  · rw [heq, herror]
    exact iff_of_true rfl rfl
  · rw [heq, FileSystem.resolveStrict?_eq_some_iff.mpr hloc]
    exact ⟨nofun, nofun⟩
  · rw [heq, FileSystem.resolveStrict?_eq_some_iff.mpr hloc]
    exact ⟨nofun, nofun⟩

theorem findRepository_eq_nil_iff (hfs : fs.root.WellFormed) :
    findRepository fs path = (.ok none, []) ↔
      ¬ (∃ loc, fs.Denotes true (.ofString path) loc) ∧ ¬ MeetsNul fs (.ofString path) := by
  rw [← resolveStrict?_fails_iff hfs]
  obtain ⟨hloc, ⟨hnone, heq⟩ | ⟨herror, heq⟩⟩ | ⟨loc, h, hloc, -, heq⟩ | ⟨loc, hloc, -, heq⟩ :=
    findRepository_cases fs path
  · rw [heq, hnone]
    exact iff_of_true rfl ⟨hloc, nofun⟩
  · rw [heq, herror]
    exact ⟨nofun, fun h => absurd rfl h.2⟩
  · rw [heq]
    exact ⟨nofun, fun h => absurd ⟨loc, hloc⟩ h.1⟩
  · rw [heq]
    exact ⟨nofun, fun h => absurd ⟨loc, hloc⟩ h.1⟩

/-- Paths that denote the same location, or none, are in the same repository. -/
theorem findRepository_congr (hfs : fs.root.WellFormed)
    (hloc : ∀ loc, fs.Denotes true (.ofString path) loc ↔ fs.Denotes true (.ofString path') loc)
    (hnul : ¬ MeetsNul fs (.ofString path)) (hnul' : ¬ MeetsNul fs (.ofString path')) :
    (findRepository fs path).1 = (findRepository fs path').1 := by
  by_cases h : ∃ loc, fs.Denotes true (.ofString path) loc
  · obtain ⟨loc, h⟩ := h
    rw [findRepository_fst h, findRepository_fst ((hloc loc).mp h)]
  · have h' : ¬ ∃ loc, fs.Denotes true (.ofString path') loc := fun ⟨loc, h'⟩ =>
      h ⟨loc, (hloc loc).mpr h'⟩
    rw [(findRepository_eq_nil_iff hfs).mpr ⟨h, hnul⟩,
      (findRepository_eq_nil_iff hfs).mpr ⟨h', hnul'⟩]

theorem not_meetsNul {p : Path} (h : p.hasNul = false) : ¬ MeetsNul fs p := by
  rintro ⟨before, name, after, -, hnames, hnul, -⟩
  rw [Path.hasNul, hnames] at h
  refine Bool.eq_false_iff.mp h (List.any_eq_true.mpr ⟨name, ?_, hnul⟩)
  exact List.mem_append_right _ List.mem_cons_self

theorem hasNul_of_findRepository (hfs : fs.root.WellFormed) {e : PathError}
    (h : (findRepository fs path).1 = .error e) :
    (Path.ofString path).hasNul = true ∧ e = .nullByte := by
  obtain ⟨-, ⟨-, heq⟩ | ⟨-, heq⟩⟩ | ⟨loc, h', -, -, heq⟩ | ⟨loc, -, -, heq⟩ :=
    findRepository_cases fs path
  · cases (congrArg Prod.fst heq).symm.trans h
  · cases (congrArg Prod.fst heq).symm.trans h
    refine ⟨?_, rfl⟩
    cases hnul : (Path.ofString path).hasNul with
    | true => rfl
    | false => exact absurd ((findRepository_fails_iff hfs).mp heq) (not_meetsNul hnul)
  · cases (congrArg Prod.fst heq).symm.trans h
  · cases (congrArg Prod.fst heq).symm.trans h

theorem hasNul_linkTarget {p : Path} {target : String} (hp : p.hasNul = false)
    (htarget : hasNul target = false) : (p.linkTarget target).hasNul = false := by
  have hnames : ∀ name ∈ Path.namesOf target.toList, hasNul name = false := fun name hname =>
    decide_eq_false fun hmem => of_decide_eq_false htarget (Path.mem_of_mem_namesOf hname hmem)
  have hall : (Path.namesOf target.toList).any hasNul = false :=
    List.any_eq_false.mpr fun name hname => Bool.eq_false_iff.mp (hnames name hname)
  unfold Path.linkTarget
  split
  · exact hall
  · rw [Path.hasNul] at hp
    rw [Path.hasNul, Path.below, List.any_append, hp, hall]
    rfl

theorem hasNul_of_link (hfs : fs.root.WellFormed) {p : Path} {name target : String}
    (hdot : name ≠ ".") (hdotdot : name ≠ "..")
    (hlink : fs.nodeItself? (p.child name) = some (.link target)) :
    (p.child name).hasNul = false ∧ (p.linkTarget target).hasNul = false := by
  obtain ⟨found, hlookup⟩ := FileSystem.nodeItself?_eq_some_iff.mp hlink
  have hnul := (FileSystem.lookup_eq_ok_iff.mp hlookup).1
  refine ⟨hnul, ?_⟩
  rw [FileSystem.hasNul_child, Bool.or_eq_false_iff] at hnul
  obtain ⟨n, dir, -, -, hreach⟩ := FileSystem.leads_of_nodeItself? hfs true hdot hdotdot hlink
  cases hfs.reach? hreach with
  | link htarget => exact hasNul_linkTarget hnul.1 htarget

theorem denotes_of_above (hfs : fs.root.WellFormed) (hhere : fs.HasHere) {p : Path}
    (hloc : fs.Denotes true p loc) (hpre : dir <+: loc) :
    fs.Denotes true (.ofString (Path.mk .root dir).toString) dir := by
  obtain ⟨n, hleads⟩ := hloc
  obtain ⟨rest, rfl⟩ := hpre
  have hclear := (hleads.isClear (.start hfs hhere _)).of_append
  have hget : fs.root.reach? dir ≠ none :=
    FileSystem.reach?_ne_none_of_above (hleads.reach?_ne_none (hhere.reach?_start _))
      (List.prefix_append _ _)
  obtain ⟨node, hnode⟩ := Option.ne_none_iff_exists'.mp hget
  have hnames (name : String) (hname : name ∈ dir) : IsName name :=
    (hfs.isEntryName_of_reach? hnode name hname).toIsName
  rw [Path.ofString_toString (Path.normal_of_isName .root hnames)]
  exact ⟨0, hclear.leads fun _ => hget⟩

theorem findRepository_innermost (fs : FileSystem) : FindsInnermost fs where
  found_iff _ _ := findRepository_eq_some_iff
  missing_iff hfs _ := findRepository_eq_nil_iff hfs
  nothing_iff _ := findRepository_eq_notice_iff
  fails_iff hfs _ := findRepository_fails_iff hfs
  cases path := by
    obtain ⟨-, ⟨-, heq⟩ | ⟨-, heq⟩⟩ | ⟨loc, h, -, -, heq⟩ | ⟨loc, -, -, heq⟩ :=
      findRepository_cases fs path
    · exact .inr (.inl heq)
    · exact .inr (.inr (.inr heq))
    · exact .inl ⟨h, heq⟩
    · exact .inr (.inr (.inl heq))
  notice_text path := by
    have hbefore : "DEBUG tagscan.blame: No git repository found above " =
        "DEBUG tagscan.blame: " ++ "No git repository found above " := by decide
    rw [hbefore, String.append_assoc]
    rfl
  denotes_of_pathExists hfs _ h := FileSystem.denotes_of_pathExists hfs h
  above hfs hhere _ _ _ hloc hpre := denotes_of_above hfs hhere hloc hpre
  below path path' loc dir hloc hdir hpre hfirst := by
    rw [findRepository_fst hloc, findRepository_fst hdir, openAbove?_of_above hpre hfirst]
  link hfs path path' p name target hpath hname hlink hpath' := by
    have hdot : name ≠ "." :=
      (Path.ofString_normal path name (hpath ▸ List.mem_concat_self)).2
    rw [hpath] at hlink
    obtain ⟨hnul, hnul'⟩ := hasNul_of_link hfs hdot hname hlink
    refine findRepository_congr hfs (fun loc => ?_) ?_ ?_
    · rw [hpath, hpath', FileSystem.denotes_link_iff hfs hdot hname hlink]
    · exact hpath ▸ not_meetsNul hnul
    · exact hpath' ▸ not_meetsNul hnul'

def repositoryDir (bare : Bool) : Node :=
  .dir [("HEAD", .file []), ("objects", .emptyDir), ("refs", .emptyDir)]
    { history := some ⟨bare, []⟩ }

def nestedTree : FileSystem where
  root := .dir
    [("sub", .dir [(".git", repositoryDir false), ("deep", .dir [("a.c", .file [])] {})] {}),
      (".git", repositoryDir false), ("into", .link "sub/deep"), ("store", repositoryDir true)] {}
  here := []
  denied := []

theorem nestedTree_innermost :
    nestedTree.root.WellFormed ∧ nestedTree.HasHere ∧
      (∃ loc dir, nestedTree.Denotes true (.ofString "sub/deep/a.c") loc ∧
        OpensFirst nestedTree loc dir ⟨["sub", ".git"], some ["sub"]⟩) ∧
      nestedTree.Denotes true (.ofString (Path.mk .root ["sub"]).toString) ["sub"] ∧
      (findRepository nestedTree "into").1 = .ok (some ⟨["sub", ".git"], some ["sub"]⟩) := by
  have hroot : nestedTree.root.WellFormed := by decide
  have hhere : nestedTree.HasHere := ⟨_, _, rfl⟩
  have hfind := findRepository_innermost nestedTree
  have hdenotes : nestedTree.Denotes true (.ofString "sub/deep/a.c") ["sub", "deep", "a.c"] :=
    FileSystem.resolveStrict?_eq_some_iff.mp (by cbv)
  have htarget : Path.ofString "sub/deep" = Path.linkTarget ⟨.here, []⟩ "sub/deep" := by
    rw [Path.linkTarget, if_neg (by decide)]
    cbv
  have hdeep : findRepository nestedTree "sub/deep" =
      (.ok (some ⟨["sub", ".git"], some ["sub"]⟩), []) := by cbv
  have hinto := hfind.link hroot "into" "sub/deep" ⟨.here, []⟩ "into" "sub/deep" (by cbv)
    (by decide) (by cbv) htarget
  refine ⟨hroot, hhere, (hfind.found_iff "sub/deep/a.c" _).mp (by cbv), ?_, ?_⟩
  · exact hfind.above hroot hhere "sub/deep/a.c" _ ["sub"] hdenotes ⟨["deep", "a.c"], rfl⟩
  · exact hinto.trans (congrArg Prod.fst hdeep)

/-- A path with a null byte does not exist, and yet there is an error instead of no repository. -/
theorem nestedTree_nul_fails :
    nestedTree.root.WellFormed ∧ nestedTree.pathExists (.ofString "a\x00b") = false ∧
      (¬ ∃ loc, nestedTree.Denotes true (.ofString "a\x00b") loc) ∧
      findRepository nestedTree "a\x00b" = (.error .nullByte, []) := by
  have hfails : findRepository nestedTree "a\x00b" = (.error .nullByte, []) := by cbv
  refine ⟨by decide, by cbv, ?_, hfails⟩
  rintro ⟨loc, hloc⟩
  cases hfails.symm.trans (congrArg (·, _) (findRepository_fst hloc))

end CommentTags.Git

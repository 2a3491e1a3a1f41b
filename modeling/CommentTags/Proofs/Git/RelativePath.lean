import CommentTags.Proofs.Files.Spelling
import CommentTags.Provenance

namespace CommentTags

open Git (Repository relativeText namesBelow?)

variable {fs : FileSystem} {r : Repository} {s s' t : String} {names : List String}
  {w top loc : Location}

def Git.Repository.relativePath? (fs : FileSystem) (r : Repository) (s : String) : Option String :=
  (r.relativeNames? fs (.ofString s)).map relativeText

structure SameAnswers (fs : FileSystem) (r : Repository) (s s' : String) : Prop where
  relativePath : r.relativePath? fs s = r.relativePath? fs s'
  leavesOut : r.leavesOut fs (.ofString s) = r.leavesOut fs (.ofString s')
  fileBlame : r.fileBlame fs (.ofString s) = r.fileBlame fs (.ofString s')
  provenance : ∀ line, provenanceOf fs r (.ofString s) line = provenanceOf fs r (.ofString s') line

/-- The paths that a repository knows are exact, and they depend on locations alone. -/
structure KnowsPaths (fs : FileSystem) (r : Repository) : Prop where
  bare : r.workTree = none → ∀ s, r.relativePath? fs s = none
  some_iff : ∀ w, r.workTree = some w → ∀ s t, r.relativePath? fs s = some t ↔
    ∃ top names, fs.resolve? ⟨.root, w⟩ = some top ∧
      fs.resolve? (.ofString s) = some (top ++ names) ∧ (∀ name ∈ names, IsName name) ∧
        t = relativeText names
  top_iff : ∀ w, r.workTree = some w → ∀ s, r.relativePath? fs s = some "." ↔
    ∃ top, fs.resolve? ⟨.root, w⟩ = some top ∧ fs.resolve? (.ofString s) = some top
  none_iff : ∀ w, r.workTree = some w → ∀ s, r.relativePath? fs s = none ↔
    fs.resolve? ⟨.root, w⟩ = none ∨ fs.resolve? (.ofString s) = none ∨
      ∃ top loc, fs.resolve? ⟨.root, w⟩ = some top ∧ fs.resolve? (.ofString s) = some loc ∧
        ¬ top <+: loc
  /-- A path is resolved to where its names lead, whether or not all of them exist. -/
  resolves : ∀ p loc, fs.Denotes false p loc → fs.resolve? p = some loc
  /-- A path that comes to a null byte is resolved to nothing. -/
  nul : ∀ (p : Path) before name after loc, p.names = before ++ name :: after →
    hasNul name = true → fs.Denotes false ⟨p.anchor, before⟩ loc → fs.resolve? p = none
  sameLocation : ∀ s s', fs.resolve? (.ofString s) = fs.resolve? (.ofString s') →
    SameAnswers fs r s s'
  sameText : ∀ s s' t, r.relativePath? fs s = some t → r.relativePath? fs s' = some t →
    fs.resolve? (.ofString s) = fs.resolve? (.ofString s')
  respelled : ∀ s s', Respelled fs s s' → SameAnswers fs r s s'

theorem namesBelow?_eq_some_iff : namesBelow? top loc = some names ↔ loc = top ++ names := by
  rw [namesBelow?]
  split
  · rename_i hpre
    obtain ⟨rest, rfl⟩ := List.isPrefixOf_iff_prefix.mp hpre
    rw [List.drop_left, Option.some_inj]
    exact ⟨fun h => congrArg _ h, fun h => List.append_cancel_left h⟩
  · rename_i hpre
    refine ⟨fun h => (by cases h), fun h => absurd ?_ hpre⟩
    exact List.isPrefixOf_iff_prefix.mpr ⟨names, h.symm⟩

theorem namesBelow?_eq_none_iff : namesBelow? top loc = none ↔ ¬ top <+: loc := by
  rw [namesBelow?, ite_eq_right_iff, List.isPrefixOf_iff_prefix]
  exact forall_congr' fun _ => by simp

theorem relativeText_eq (names : List String) :
    relativeText names = (Path.mk .here names).toString := by
  rw [relativeText, Path.toString]
  simp [Path.anchorText]

theorem relativeText_injective {names' : List String} (h : ∀ name ∈ names, IsName name)
    (h' : ∀ name ∈ names', IsName name) (heq : relativeText names = relativeText names') :
    names = names' := by
  rw [relativeText_eq, relativeText_eq] at heq
  exact congrArg Path.names
    (Path.toString_injective (Path.normal_of_isName .here h) (Path.normal_of_isName .here h') heq)

theorem relativeNames?_ofString (fs : FileSystem) (r : Repository) (s : String) :
    r.relativeNames? fs (.ofString s) =
      r.workTree.bind fun w => (fs.resolve? (.ofString s)).bind fun loc =>
        (fs.resolve? ⟨.root, w⟩).bind fun top => namesBelow? top loc := by
  have hnormal := Path.ofString_normal s
  rw [Repository.relativeNames?, Path.withoutLeadingDot_toString hnormal,
    Path.ofString_toString hnormal]
  rfl

theorem relativeNames?_eq_some_iff (hw : r.workTree = some w) :
    r.relativeNames? fs (.ofString s) = some names ↔
      ∃ top, fs.resolve? ⟨.root, w⟩ = some top ∧
        fs.resolve? (.ofString s) = some (top ++ names) := by
  rw [relativeNames?_ofString, hw, Option.bind_some, Option.bind_eq_some_iff]
  constructor
  · rintro ⟨loc, hloc, h⟩
    obtain ⟨top, htop, h⟩ := Option.bind_eq_some_iff.mp h
    rw [namesBelow?_eq_some_iff.mp h] at hloc
    exact ⟨top, htop, hloc⟩
  · rintro ⟨top, htop, hloc⟩
    refine ⟨_, hloc, ?_⟩
    rw [htop, Option.bind_some]
    exact namesBelow?_eq_some_iff.mpr rfl

theorem relativeNames?_eq_none_iff (hw : r.workTree = some w) :
    r.relativeNames? fs (.ofString s) = none ↔
      fs.resolve? ⟨.root, w⟩ = none ∨ fs.resolve? (.ofString s) = none ∨
        ∃ top loc, fs.resolve? ⟨.root, w⟩ = some top ∧ fs.resolve? (.ofString s) = some loc ∧
          ¬ top <+: loc := by
  rw [relativeNames?_ofString, hw, Option.bind_some]
  cases hloc : fs.resolve? (.ofString s) with
  | none => exact ⟨fun _ => .inr (.inl rfl), fun _ => rfl⟩
  | some loc =>
    cases htop : fs.resolve? ⟨.root, w⟩ with
    | none => exact ⟨fun _ => .inl rfl, fun _ => rfl⟩
    | some top =>
      refine namesBelow?_eq_none_iff.trans ⟨fun h => .inr (.inr ⟨top, loc, rfl, rfl, h⟩), ?_⟩
      rintro (h | h | ⟨top', loc', htop', hloc', h⟩)
      · cases h
      · cases h
      · rwa [Option.some.inj htop', Option.some.inj hloc']

theorem isName_of_relativeNames? (hfs : fs.root.WellFormed) (hhere : fs.HasHere)
    (h : fs.resolve? (.ofString s) = some (top ++ names)) : ∀ name ∈ names, IsName name := by
  obtain ⟨entries, info, hget⟩ := hhere
  have hentries := hfs.isEntryName_of_reach? hget
  have hwf : fs.WellFormed := ⟨hfs, fun name hname => (hentries name hname).toIsName⟩
  have hproper := hwf.resolve? (Path.ofString_normal s) h
  exact fun name hname => hproper name (List.mem_append_right _ hname)

theorem relativePath?_eq_some_iff (hfs : fs.root.WellFormed) (hhere : fs.HasHere)
    (hw : r.workTree = some w) :
    r.relativePath? fs s = some t ↔
      ∃ top names, fs.resolve? ⟨.root, w⟩ = some top ∧
        fs.resolve? (.ofString s) = some (top ++ names) ∧ (∀ name ∈ names, IsName name) ∧
          t = relativeText names := by
  rw [Repository.relativePath?, Option.map_eq_some_iff]
  constructor
  · rintro ⟨names, hnames, rfl⟩
    obtain ⟨top, htop, hloc⟩ := (relativeNames?_eq_some_iff hw).mp hnames
    exact ⟨top, names, htop, hloc, isName_of_relativeNames? hfs hhere hloc, rfl⟩
  · rintro ⟨top, names, htop, hloc, -, rfl⟩
    exact ⟨names, (relativeNames?_eq_some_iff hw).mpr ⟨top, htop, hloc⟩, rfl⟩

theorem sameAnswers_of_resolve? (h : fs.resolve? (.ofString s) = fs.resolve? (.ofString s')) :
    SameAnswers fs r s s' := by
  have hnames : r.relativeNames? fs (.ofString s) = r.relativeNames? fs (.ofString s') := by
    rw [relativeNames?_ofString, relativeNames?_ofString, h]
  have hblame : r.fileBlame fs (.ofString s) = r.fileBlame fs (.ofString s') := by
    rw [Repository.fileBlame, Repository.fileBlame, hnames]
  refine ⟨?_, ?_, hblame, fun line => ?_⟩
  · rw [Repository.relativePath?, Repository.relativePath?, hnames]
  · rw [Repository.leavesOut, Repository.leavesOut, hnames]
  · rw [provenanceOf, provenanceOf, hblame]

theorem resolve?_of_respelled (hfs : fs.root.WellFormed) (hhere : fs.HasHere)
    (h : Respelled fs s s') : fs.resolve? (.ofString s) = fs.resolve? (.ofString s') := by
  rw [FileSystem.resolve?, FileSystem.resolve?, h.resolution_eq hfs hhere]

theorem relativePath?_exact (hfs : fs.root.WellFormed) (hhere : fs.HasHere) (r : Repository) :
    KnowsPaths fs r where
  bare hbare s := by
    rw [Repository.relativePath?, relativeNames?_ofString, hbare]
    rfl
  some_iff w hw s t := relativePath?_eq_some_iff hfs hhere hw
  top_iff w hw s := by
    rw [relativePath?_eq_some_iff hfs hhere hw]
    constructor
    · rintro ⟨top, names, htop, hloc, hnames, htext⟩
      obtain rfl : [] = names := relativeText_injective (List.forall_mem_nil _) hnames htext
      rw [List.append_nil] at hloc
      exact ⟨top, htop, hloc⟩
    · rintro ⟨top, htop, hloc⟩
      refine ⟨top, [], htop, ?_, List.forall_mem_nil _, rfl⟩
      rwa [List.append_nil]
  none_iff w hw s := by
    rw [Repository.relativePath?, Option.map_eq_none_iff]
    exact relativeNames?_eq_none_iff hw
  resolves p loc := FileSystem.resolve?_of_denotes hfs hhere
  nul p before name after loc := FileSystem.resolve?_of_nul
  sameLocation s s' := sameAnswers_of_resolve?
  sameText s s' t h h' := by
    cases hw : r.workTree with
    | none =>
      rw [Repository.relativePath?, relativeNames?_ofString, hw] at h
      cases h
    | some w =>
      obtain ⟨top, names, htop, hloc, hnames, rfl⟩ :=
        (relativePath?_eq_some_iff hfs hhere hw).mp h
      obtain ⟨top', names', htop', hloc', hnames', htext⟩ :=
        (relativePath?_eq_some_iff hfs hhere hw).mp h'
      obtain rfl := relativeText_injective hnames hnames' htext
      obtain rfl := Option.some.inj (htop.symm.trans htop')
      rw [hloc, hloc']
  respelled s s' h := sameAnswers_of_resolve? (resolve?_of_respelled hfs hhere h)

def linkedWorkTree : FileSystem where
  root := .dir
    [("t2", .dir [("a.c", .file [])] {}),
      ("t", .dir [("b", .dir [("a.c", .file [])] {}), ("l", .link "b")] {})] {}
  here := ["t"]
  denied := []

def linkedRepository : Repository where
  workTree := some ["t"]
  ignores _ := .ok false
  blame _ := .error (.store "no history")

theorem linkedWorkTree_relativePath :
    linkedWorkTree.root.WellFormed ∧ linkedWorkTree.HasHere ∧
      linkedRepository.relativePath? linkedWorkTree "l/a.c" = some "b/a.c" ∧
      linkedRepository.relativePath? linkedWorkTree "../t2/a.c" = none ∧
      linkedRepository.relativePath? linkedWorkTree "b/a\x00.c" = none ∧
      SameAnswers linkedWorkTree linkedRepository "./l/a.c" "./b/a.c" ∧
      SameAnswers linkedWorkTree linkedRepository "b/a.c" "/t/b/a.c" := by
  have hroot : linkedWorkTree.root.WellFormed := by decide
  have hhere : linkedWorkTree.HasHere := ⟨_, _, rfl⟩
  have hknows := relativePath?_exact hroot hhere linkedRepository
  have hname : IsName "l" := by decide
  have hlink : linkedWorkTree.nodeItself? (.ofString "./l") = some (.link "b") := by cbv
  have hloc : linkedWorkTree.Denotes false (.ofString "./l") ["t", "b"] :=
    FileSystem.resolution_eq_resolved_iff.mp (by cbv)
  have hbefore : linkedWorkTree.Denotes false ⟨.here, ["b"]⟩ ["t", "b"] :=
    FileSystem.resolution_eq_resolved_iff.mp (by cbv)
  refine ⟨hroot, hhere, ?_, ?_, ?_, ?_, ?_⟩
  · refine (hknows.some_iff ["t"] rfl _ _).mpr ⟨["t"], ["b", "a.c"], ?_⟩
    exact ⟨by cbv, by cbv, by decide, by cbv⟩
  · refine (hknows.none_iff ["t"] rfl _).mpr (.inr (.inr ⟨["t"], ["t2", "a.c"], ?_⟩))
    exact ⟨by cbv, by cbv, by decide⟩
  · refine (hknows.none_iff ["t"] rfl _).mpr (.inr (.inl ?_))
    exact hknows.nul _ ["b"] "a\x00.c" [] _ (by cbv) (by cbv) hbefore
  · exact hknows.respelled _ _ (.link (a := ".") (x := "l") hname hlink hloc "a.c")
  · exact hknows.respelled _ _ (.absolute (s := "b/a.c") (by decide))

end CommentTags

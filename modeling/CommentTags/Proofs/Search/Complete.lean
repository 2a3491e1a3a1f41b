import CommentTags.Proofs.Files.WholeWalk
import CommentTags.Proofs.Search.Run
import CommentTags.Proofs.Search.ScanFile
import Mathlib.Data.List.Nodup

namespace CommentTags

namespace Search

variable {fs : FileSystem} {text : Path → List Char} {p q : Path} {t : Tag}

def fileTags (text : Path → List Char) (p : Path) : List Tag :=
  match Grammar.ofPath? p with
  | none => []
  | some g => (Scanner.start g p (TextStream.ofList (text p))).collect.1

def walkTags (fs : FileSystem) (text : Path → List Char) (root : String) : List Tag :=
  (walk fs (.ofString root)).flatMap (fileTags text)

theorem mem_fileTags :
    t ∈ fileTags text p ↔ ∃ g, Grammar.ofPath? p = some g ∧
      ∃ i line, (Text.cut '\n' (text p))[i]? = some line ∧ HasTag p (i + 1) line g t := by
  unfold fileTags
  cases Grammar.ofPath? p with
  | none => exact ⟨fun h => absurd h List.not_mem_nil, fun ⟨_, h, _⟩ => by cases h⟩
  | some g =>
    dsimp only
    rw [Scanner.mem_collect_ofList]
    exact ⟨fun h => ⟨g, rfl, h⟩, fun ⟨_, hg, h⟩ => Option.some.inj hg ▸ h⟩

theorem fileTags_eq (text : Path → List Char) (p : Path) :
    fileTags text p =
      match Grammar.ofPath? p with
      | none => []
      | some g => tagsFrom g p 1 (Text.cut '\n' (text p)) := by
  unfold fileTags
  cases Grammar.ofPath? p with
  | none => rfl
  | some g => exact congrArg Prod.fst (Scanner.collect_ofList g p (text p))

theorem path_of_mem_fileTags (h : t ∈ fileTags text p) : t.path = p := by
  obtain ⟨g, -, i, line, -, h⟩ := mem_fileTags.mp h
  cases h <;> rfl

theorem fileTags_pairwise : (fileTags text p).Pairwise fun a b => a.line < b.line := by
  rw [fileTags_eq]
  split
  · exact List.Pairwise.nil
  · exact tagsFrom_pairwise _

theorem visit_of_hasText {repo : Option Git.Handle}
    (h : (Grammar.ofPath? p).isSome = true → fs.HasText p (text p)) :
    visit fs .withoutRepository repo p = (fileTags text p).map .tag := by
  unfold visit fileEvents fileTags
  cases hg : Grammar.ofPath? p with
  | none => rfl
  | some g =>
    have htext := scanFile_of_hasText (g := g) (h (by rw [hg]; rfl))
    simp only [passesOver, Options.withoutRepository, sourceEvents, htext, tagEvents, endEvents,
      Bool.false_eq_true, if_false, List.append_nil]

theorem ofEvents_run_plain (fs : FileSystem) (root : String) :
    Results.ofEvents (run fs .withoutRepository [root]) =
      Results.ofEvents ((walk fs (.ofString root)).flatMap (visit fs .withoutRepository none) ++
        refusalEvents (walkRefusal? fs (.ofString root))) :=
  ofEvents_run _ rfl

theorem results_of_hasText {root : String}
    (h : ∀ p ∈ walk fs (.ofString root), (Grammar.ofPath? p).isSome = true →
      fs.HasText p (text p)) :
    Results.ofEvents (run fs .withoutRepository [root]) =
      ⟨walkTags fs text root, [], (walkRefusal? fs (.ofString root)).map .path⟩ := by
  have hvisits : (walk fs (.ofString root)).flatMap (visit fs .withoutRepository none) =
      (walkTags fs text root).map .tag := by
    rw [walkTags, List.map_flatMap]
    exact List.flatMap_congr fun p hp => visit_of_hasText (h p hp)
  rw [ofEvents_run_plain, hvisits, ofEvents_append_refusal (by rw [Results.ofEvents_tags]),
    Results.ofEvents_tags]

theorem results_of_roots {roots : List String}
    (h : ∀ root ∈ roots, ∀ p ∈ walk fs (.ofString root), (Grammar.ofPath? p).isSome = true →
      fs.HasText p (text p))
    (hnone : ∀ root ∈ roots, walkRefusal? fs (.ofString root) = none) :
    Results.ofEvents (run fs .withoutRepository roots) =
      ⟨roots.flatMap (walkTags fs text), [], none⟩ := by
  have hroot (root : String) (hroot : root ∈ roots) :
      Results.ofEvents (run fs .withoutRepository [root]) = ⟨walkTags fs text root, [], none⟩ := by
    rw [results_of_hasText (h root hroot), hnone root hroot, Option.map_none]
  have hfailure : ∀ root ∈ roots,
      (Results.ofEvents (run fs .withoutRepository [root])).failure = none :=
    fun root hmem => congrArg Results.failure (hroot root hmem)
  obtain ⟨hnofailure, htags⟩ := Results.ofEvents_flatMap_of_none _ _ hfailure
  have hnotices := Results.notices_flatMap_of_none _ _ hfailure
  rw [List.flatMap_congr fun root hmem => congrArg Results.tags (hroot root hmem)] at htags
  rw [List.flatMap_eq_nil_iff.mpr fun root hmem => congrArg Results.notices (hroot root hmem)]
    at hnotices
  rw [run_flatMap, ← hnofailure, ← htags, ← hnotices]

variable {ps : List Path}

theorem mem_flatMap_fileTags :
    t ∈ ps.flatMap (fileTags text) ↔ ∃ p ∈ ps, ∃ g, Grammar.ofPath? p = some g ∧
      ∃ i line, (Text.cut '\n' (text p))[i]? = some line ∧ HasTag p (i + 1) line g t := by
  rw [List.mem_flatMap]
  exact exists_congr fun p => and_congr_right fun _ => mem_fileTags

theorem path_mem_of_mem_flatMap (h : t ∈ ps.flatMap (fileTags text)) : t.path ∈ ps := by
  obtain ⟨p, hp, h⟩ := List.mem_flatMap.mp h
  rwa [path_of_mem_fileTags h]

theorem flatMap_fileTags_nodup (h : ps.Nodup) :
    ((ps.flatMap (fileTags text)).map fun t => (t.path, t.line)).Nodup := by
  rw [List.map_flatMap, List.nodup_flatMap]
  constructor
  · intro p _
    refine List.pairwise_map.mpr (fileTags_pairwise.imp fun hlt heq => ?_)
    exact absurd (congrArg Prod.snd heq) (Int.ne_of_lt hlt)
  · refine h.imp fun hne e he he' => hne ?_
    obtain ⟨t, ht, rfl⟩ := List.mem_map.mp he
    obtain ⟨t', ht', heq⟩ := List.mem_map.mp he'
    rw [← path_of_mem_fileTags ht, ← path_of_mem_fileTags ht']
    exact (congrArg Prod.fst heq).symm

/-- The tags of one file stand together, in the order of their lines. -/
theorem flatMap_fileTags_contiguous (h : ps.Nodup) (p : Path) :
    ∃ before own after, ps.flatMap (fileTags text) = before ++ own ++ after ∧
      (∀ t ∈ own, t.path = p) ∧ (∀ t ∈ before ++ after, t.path ≠ p) ∧
      own.Pairwise fun a b => a.line < b.line := by
  by_cases hp : p ∈ ps
  · obtain ⟨qs, rs, rfl⟩ := List.append_of_mem hp
    obtain ⟨-, hrs, hdisjoint⟩ := List.nodup_append'.mp h
    refine ⟨qs.flatMap (fileTags text), fileTags text p, rs.flatMap (fileTags text), ?_,
      fun t => path_of_mem_fileTags, fun t ht hpath => ?_, fileTags_pairwise⟩
    · rw [List.flatMap_append, List.flatMap_cons, List.append_assoc]
    · subst hpath
      obtain ht | ht := List.mem_append.mp ht
      · exact hdisjoint (path_mem_of_mem_flatMap ht) List.mem_cons_self
      · exact (List.nodup_cons.mp hrs).1 (path_mem_of_mem_flatMap ht)
  · refine ⟨ps.flatMap (fileTags text), [], [], by rw [List.append_nil, List.append_nil],
      fun t ht => absurd ht List.not_mem_nil, fun t ht hpath => ?_, List.Pairwise.nil⟩
    rw [List.append_nil] at ht
    exact hp (hpath ▸ path_mem_of_mem_flatMap ht)

/-- When all sources can be read, a search finds a tag exactly where a line of a file of the walk
has one, and ends as the walk does. No line is reported twice. Several places are searched one
after the other, up to the first whose walk breaks off. -/
theorem run_sound_complete (fs : FileSystem) (text : Path → List Char) (roots : List String)
    (hfs : fs.root.WellFormed)
    (hread : ∀ root ∈ roots, ∀ p ∈ walk fs (.ofString root), (Grammar.ofPath? p).isSome = true →
      fs.HasText p (text p)) :
    (∀ root ∈ roots,
      Results.ofEvents (run fs .withoutRepository [root]) =
        ⟨walkTags fs text root, [], (walkRefusal? fs (.ofString root)).map .path⟩ ∧
      (∀ t, t ∈ walkTags fs text root ↔
        ∃ p ∈ walk fs (.ofString root), ∃ g, Grammar.ofPath? p = some g ∧
          ∃ i line, (Text.cut '\n' (text p))[i]? = some line ∧ HasTag p (i + 1) line g t) ∧
      ((walkTags fs text root).map fun t => (t.path, t.line)).Nodup ∧
      (∀ p, ∃ before own after, walkTags fs text root = before ++ own ++ after ∧
        (∀ t ∈ own, t.path = p) ∧ (∀ t ∈ before ++ after, t.path ≠ p) ∧
        own.Pairwise fun a b => a.line < b.line)) ∧
    ((∀ root ∈ roots, walkRefusal? fs (.ofString root) = none) →
      Results.ofEvents (run fs .withoutRepository roots) =
        ⟨roots.flatMap (walkTags fs text), [], none⟩) ∧
    (∀ before root after e, roots = before ++ root :: after →
      (∀ r ∈ before, walkRefusal? fs (.ofString r) = none) →
        walkRefusal? fs (.ofString root) = some e →
          Results.ofEvents (run fs .withoutRepository roots) =
            ⟨(before ++ [root]).flatMap (walkTags fs text), [], some (.path e)⟩) ∧
    ∀ o, run fs o roots = roots.flatMap fun root => run fs o [root] := by
  refine ⟨fun root hroot => ⟨results_of_hasText (hread root hroot), fun t => mem_flatMap_fileTags,
    flatMap_fileTags_nodup (walk_nodup hfs _), flatMap_fileTags_contiguous (walk_nodup hfs _)⟩,
    results_of_roots hread, ?_, fun o => run_flatMap o roots⟩
  rintro before root after e rfl hnone hrefusal
  obtain ⟨hbefore, hafter⟩ := List.forall_mem_append.mp hread
  have hfirst := results_of_roots hbefore hnone
  have hlast := results_of_hasText (hafter root List.mem_cons_self)
  rw [hrefusal, Option.map_some] at hlast
  have hbroken : (Results.ofEvents (run fs .withoutRepository [root])).failure ≠ none := by
    rw [hlast]
    exact Option.some_ne_none _
  rw [run_flatMap, List.flatMap_append, List.flatMap_cons, ← run_flatMap _ before,
    Results.ofEvents_append_of_none (congrArg Results.failure hfirst),
    Results.ofEvents_append_of_ne_none hbroken, hfirst, hlast, List.flatMap_append,
    List.flatMap_singleton]
  rfl

def smallTree : FileSystem where
  root := .dir
    [("b", .dir [("b.rs", .file (Text.Utf8.encode "todo!()".toList)), ("b.txt", .file [0xff])] {}),
      ("a.c", .file (Text.Utf8.encode "// TODO: a\n".toList))] {}
  here := []
  denied := []

def smallText (p : Path) : List Char :=
  if p.names = ["a.c"] then "// TODO: a\n".toList else "todo!()".toList

theorem walkSteps_smallTree : walkSteps smallTree (.ofString ".") =
    [⟨.here, ["a.c"]⟩, ⟨.here, ["b", "b.rs"]⟩, ⟨.here, ["b", "b.txt"]⟩].map .ok := by
  cbv

theorem walk_smallTree : walk smallTree (.ofString ".") =
    [⟨.here, ["a.c"]⟩, ⟨.here, ["b", "b.rs"]⟩, ⟨.here, ["b", "b.txt"]⟩] := by
  rw [walk, walkSteps_smallTree, untilError_map_ok]

theorem walkRefusal?_smallTree : walkRefusal? smallTree (.ofString ".") = none := by
  rw [walkRefusal?, walkSteps_smallTree, untilError_map_ok]

theorem hasText_smallTree : ∀ root ∈ ["."], ∀ p ∈ walk smallTree (.ofString root),
    (Grammar.ofPath? p).isSome = true → smallTree.HasText p (smallText p) := by
  intro root hroot p hp hg
  rw [List.mem_singleton.mp hroot, walk_smallTree] at hp
  simp only [List.mem_cons, List.not_mem_nil, or_false] at hp
  rcases hp with rfl | rfl | rfl
  · exact ⟨List.not_mem_nil, by cbv⟩
  · exact ⟨List.not_mem_nil, by cbv⟩
  · exact absurd hg (by decide)

def smallTags : List Tag :=
  [⟨⟨.here, ["a.c"]⟩, 1, .todo, "a", none⟩, ⟨⟨.here, ["b", "b.rs"]⟩, 1, .todoCall, "", none⟩]

theorem walkTags_smallTree : walkTags smallTree smallText "." = smallTags := by
  rw [walkTags, walk_smallTree]
  simp only [List.flatMap_cons, List.flatMap_nil, fileTags_eq]
  cbv

theorem visits_smallTree :
    (walk smallTree (.ofString ".")).flatMap (visit smallTree .withoutRepository none) =
      smallTags.map .tag := by
  rw [← walkTags_smallTree, walkTags, List.map_flatMap]
  exact List.flatMap_congr fun p hp =>
    visit_of_hasText (hasText_smallTree "." List.mem_cons_self p hp)

theorem run_smallTree_eq_map : run smallTree .withoutRepository ["."] = smallTags.map .tag := by
  have hsteps : rootSteps smallTree .withoutRepository "." =
      walkSteps smallTree (.ofString ".") := rfl
  rw [run_singleton, hsteps, walkSteps_smallTree, List.flatMap_map, ← visits_smallTree,
    walk_smallTree]
  rfl

theorem run_smallTree :
    smallTree.root.WellFormed ∧
    (∀ root ∈ ["."], ∀ p ∈ walk smallTree (.ofString root), (Grammar.ofPath? p).isSome = true →
      smallTree.HasText p (smallText p)) ∧
    Results.ofEvents (run smallTree .withoutRepository ["."]) =
      ⟨[⟨⟨.here, ["a.c"]⟩, 1, .todo, "a", none⟩, ⟨⟨.here, ["b", "b.rs"]⟩, 1, .todoCall, "", none⟩],
        [], none⟩ := by
  have hwf : smallTree.root.WellFormed := by decide
  refine ⟨hwf, hasText_smallTree, ?_⟩
  have h := run_sound_complete smallTree smallText ["."] hwf hasText_smallTree
  rw [(h.1 "." List.mem_cons_self).1, walkTags_smallTree, walkRefusal?_smallTree]
  rfl

def guardedTree : FileSystem where
  root := .dir
    [("sub", .dir [("notes.txt", .file [])] { searchable := false }),
      ("zz", .dir [("c.c", .file (Text.Utf8.encode "// TODO: c\n".toList))] {}),
      ("a.c", .file (Text.Utf8.encode "// TODO: a\n".toList))] {}
  here := []
  denied := []

theorem guardedTree_search_ends_early :
    guardedTree.root.WellFormed ∧
    (Grammar.ofPath? ⟨.here, ["sub", "notes.txt"]⟩ = none ∧
      guardedTree.HasText ⟨.here, ["a.c"]⟩ "// TODO: a\n".toList ∧
      guardedTree.HasText ⟨.here, ["zz", "c.c"]⟩ "// TODO: c\n".toList) ∧
    Results.ofEvents (run guardedTree .withoutRepository ["."]) =
      ⟨[⟨⟨.here, ["a.c"]⟩, 1, .todo, "a", none⟩], [],
        some (.path (.denied "sub/notes.txt"))⟩ := by
  have ha : guardedTree.HasText ⟨.here, ["a.c"]⟩ "// TODO: a\n".toList :=
    ⟨List.not_mem_nil, by cbv⟩
  have hc : guardedTree.HasText ⟨.here, ["zz", "c.c"]⟩ "// TODO: c\n".toList :=
    ⟨List.not_mem_nil, by cbv⟩
  have hwalk : walk guardedTree (.ofString ".") = [⟨.here, ["a.c"]⟩] := by cbv
  have hrefusal : walkRefusal? guardedTree (.ofString ".") = some (.denied "sub/notes.txt") := by
    cbv
  have hresults : Results.ofEvents (run guardedTree .withoutRepository ["."]) =
      ⟨walkTags guardedTree (fun _ => "// TODO: a\n".toList) ".", [],
        (walkRefusal? guardedTree (.ofString ".")).map .path⟩ := by
    refine results_of_hasText fun p hp _ => ?_
    rw [hwalk] at hp
    rwa [List.mem_singleton.mp hp]
  refine ⟨by decide, ⟨by decide, ha, hc⟩, ?_⟩
  rw [hresults, walkTags, hwalk, hrefusal, List.flatMap_singleton, fileTags_eq]
  cbv

end Search

end CommentTags

import CommentTags.Proofs.CommandLine.Outcome
import CommentTags.Proofs.Search.Complete

namespace CommentTags.CommandLine

open Report (tagJson)
open Search.Results (ofEvents)

def defaultKinds : List Kind :=
  [.bug, .fix, .todo, .todoCall, .optimize]

theorem level_mem_default_iff (k : Kind) :
    k.level ∈ [Level.fix, .improvement] ↔ k ∈ defaultKinds := by
  cases k with
  | custom text => simp [Kind.level, defaultKinds]
  | _ => decide

namespace Settings

variable {s : Settings} {keyword : String} {fs : FileSystem}

theorem wants_keyword_iff (htag : s.tag = some keyword) (hne : keyword ≠ "") (t : Tag) :
    s.Wants t ↔ (Kind.ofKeyword keyword).level ∈ s.wantedLevels ∧ t.kind = .ofKeyword keyword := by
  have hlevel : t.level = t.kind.level := rfl
  rw [Wants, htag, hlevel]
  constructor
  · rintro ⟨hl, hkind⟩
    have ht := hkind keyword rfl hne
    exact ⟨ht ▸ hl, ht⟩
  · rintro ⟨hl, ht⟩
    exact ⟨ht ▸ hl, fun _ heq _ => Option.some.inj heq ▸ ht⟩

theorem shown_keyword (htag : s.tag = some keyword) (hne : keyword ≠ "") (fs : FileSystem) :
    s.shown fs =
      if (Kind.ofKeyword keyword).level ∈ s.wantedLevels then
        (s.found fs).filter (·.kind = .ofKeyword keyword)
      else [] := by
  rw [shown]
  split
  · rename_i hl
    refine List.filter_congr fun t _ => ?_
    rw [decide_eq_decide, wants_keyword_iff htag hne]
    exact and_iff_right hl
  · rename_i hl
    refine List.filter_eq_nil_iff.mpr fun t _ ht => hl ?_
    exact ((wants_keyword_iff htag hne t).mp (of_decide_eq_true ht)).1

theorem shown_keyword_of_level_mem (htag : s.tag = some keyword) (hne : keyword ≠ "")
    (hlevel : (Kind.ofKeyword keyword).level ∈ s.levels) (fs : FileSystem) :
    s.shown fs = (s.found fs).filter (·.kind = .ofKeyword keyword) := by
  have hnil : s.levels ≠ [] := List.ne_nil_of_mem hlevel
  rw [shown_keyword htag hne, wantedLevels, if_neg hnil, if_pos hlevel]

theorem shown_keyword_of_levels_eq_nil (htag : s.tag = some keyword) (hne : keyword ≠ "")
    (hlevels : s.levels = []) (fs : FileSystem) :
    s.shown fs =
      if Kind.ofKeyword keyword ∈ defaultKinds then
        (s.found fs).filter (·.kind = .ofKeyword keyword)
      else [] := by
  rw [shown_keyword htag hne, wantedLevels, if_pos hlevels]
  exact if_congr (level_mem_default_iff _) rfl rfl

theorem shown_keyword_eq_filter_iff (htag : s.tag = some keyword) (hne : keyword ≠ "")
    (hlevels : s.levels = []) (fs : FileSystem) :
    s.shown fs = (s.found fs).filter (·.kind = .ofKeyword keyword) ↔
      Kind.ofKeyword keyword ∈ defaultKinds ∨
        ∀ t ∈ s.found fs, t.kind ≠ .ofKeyword keyword := by
  rw [shown_keyword_of_levels_eq_nil htag hne hlevels]
  split
  · rename_i hkind
    exact ⟨fun _ => Or.inl hkind, fun _ => rfl⟩
  · rename_i hkind
    rw [or_iff_right hkind, eq_comm, List.filter_eq_nil_iff]
    exact forall₂_congr fun t _ => not_congr decide_eq_true_iff

end Settings

structure ShowsKind (fs : FileSystem) (zone : Int) (arguments : List String) (s : Settings)
    (k : Kind) : Prop where
  /-- The five kinds of the default levels are shown, and of all others nothing is. -/
  shown : s.shown fs = if k ∈ defaultKinds then (s.found fs).filter (·.kind = k) else []
  all_iff : s.shown fs = (s.found fs).filter (·.kind = k) ↔
    k ∈ defaultKinds ∨ ∀ t ∈ s.found fs, t.kind ≠ k
  /-- What is shown once the level of the kind is asked for as well. -/
  withLevel : ∀ levels, k.level ∈ levels →
    Settings.shown { s with levels } fs = (s.found fs).filter (·.kind = k)
  document : ∀ interrupt outcome, run fs zone arguments interrupt = .ok outcome →
    outcome.code = 0 → s.json = true →
      Report.Json.read? outcome.output.toList = some (.arr ((s.shown fs).map tagJson))
  text : ∀ interrupt outcome, run fs zone arguments interrupt = .ok outcome →
    outcome.code = 0 → s.json = false →
      ∃ lines, List.Forall₂ (fun t line => outputLine zone t = .ok line) (s.shown fs) lines ∧
        outcome.output.toList = lines.flatten

/-- With a keyword and no levels a run shows all tags of the kind that the keyword names if this is
one of five kinds, and no tags at all if it is any other. -/
theorem run_showsKind (fs : FileSystem) (zone : Int) (arguments : List String) (s : Settings)
    (keyword : String) (hs : parse arguments = .ok s) (htag : s.tag = some keyword)
    (hne : keyword ≠ "") (hlevels : s.levels = []) :
    ShowsKind fs zone arguments s (.ofKeyword keyword) where
  shown := Settings.shown_keyword_of_levels_eq_nil htag hne hlevels fs
  all_iff := Settings.shown_keyword_eq_filter_iff htag hne hlevels fs
  withLevel levels hlevel :=
    Settings.shown_keyword_of_level_mem (s := { s with levels }) htag hne hlevel fs
  document _ _ hrun hcode hjson := read?_of_run hs hjson hrun hcode
  text _ _ hrun hcode hjson := lines_of_run hs hjson hrun hcode

def twoKindsText : List Char :=
  "// HACK: a\n// FIXME: b\n".toList

def twoKinds : FileSystem where
  root := .dir [("a.c", .file (Text.Utf8.encode twoKindsText))] {}
  here := []
  denied := []

def hackTag : Tag := ⟨⟨.here, ["a.c"]⟩, 1, .hack, "a", none⟩

def fixTag : Tag := ⟨⟨.here, ["a.c"]⟩, 2, .fix, "b", none⟩

def keywordSettings (keyword : String) : Settings :=
  ⟨["."], [], some keyword, false, true, false, false⟩

theorem run_twoKinds :
    Search.run twoKinds ⟨true, false⟩ ["."] =
      [.notice (.noRepository "."), .tag hackTag, .tag fixTag] := by
  have hrepo : Search.Task.repositoryFor twoKinds ⟨true, false⟩ "." =
      (.ok none, [.noRepository "."]) := by cbv
  have hsteps : walkSteps twoKinds (.ofString ".") = [.ok ⟨.here, ["a.c"]⟩] := by cbv
  have hscan : Search.scanFile twoKinds .cLike ⟨.here, ["a.c"]⟩ = ([hackTag, fixTag], none) := by
    have htext : twoKinds.HasText ⟨.here, ["a.c"]⟩ twoKindsText := ⟨List.not_mem_nil, by cbv⟩
    rw [Search.scanFile_of_hasText htext, Scanner.collect_ofList]
    cbv
  have hgrammar : Grammar.ofPath? ⟨.here, ["a.c"]⟩ = some .cLike := by cbv
  rw [Search.run_singleton, Search.rootSteps, Search.openedFor, hrepo]
  dsimp only
  rw [hsteps, List.flatMap_singleton, Search.stepEvents, Search.visit]
  unfold Search.fileEvents
  rw [hgrammar]
  dsimp only [Search.passesOver, Option.map_none]
  rw [Search.sourceEvents, hscan]
  rfl

theorem found_twoKinds (keyword : String) :
    (keywordSettings keyword).found twoKinds = [hackTag, fixTag] := by
  have hfound : (keywordSettings keyword).found twoKinds =
      (ofEvents (Search.run twoKinds ⟨true, false⟩ ["."])).tags := rfl
  rw [hfound, run_twoKinds]
  rfl

theorem twoKinds_shown :
    parse [".", "--tag", "fixme", "-b"] = .ok (keywordSettings "fixme") ∧
    (keywordSettings "fixme").shown twoKinds = [fixTag] ∧
    parse [".", "--tag", "hack", "-b"] = .ok (keywordSettings "hack") ∧
    (keywordSettings "hack").shown twoKinds = [] := by
  have hfix : parse [".", "--tag", "fixme", "-b"] = .ok (keywordSettings "fixme") := by
    decide
  have hhack : parse [".", "--tag", "hack", "-b"] = .ok (keywordSettings "hack") := by
    decide
  have hshown := (run_showsKind twoKinds 0 _ _ "fixme" hfix rfl (by decide) rfl).shown
  have hhidden := (run_showsKind twoKinds 0 _ _ "hack" hhack rfl (by decide) rfl).shown
  rw [found_twoKinds] at hshown hhidden
  exact ⟨hfix, hshown, hhack, hhidden⟩

/-- The arguments `. --tag hack -b` are to show only the tags of one kind, but they show none,
although the search finds one. -/
theorem twoKinds_hack_not_shown :
    parse [".", "--tag", "hack", "-b"] = .ok (keywordSettings "hack") ∧
    ((keywordSettings "hack").found twoKinds).filter (·.kind = Kind.ofKeyword "hack") =
      [hackTag] ∧
    (keywordSettings "hack").shown twoKinds = [] ∧
    run twoKinds 0 [".", "--tag", "hack", "-b"] none = .ok ⟨0, "", ""⟩ := by
  have hparse : parse [".", "--tag", "hack", "-b"] = .ok (keywordSettings "hack") := by
    decide
  have hexist : ∀ p ∈ (keywordSettings "hack").roots, twoKinds.pathExists p = true :=
    List.forall_mem_singleton.mpr (by cbv)
  have hheard : heard twoKinds (keywordSettings "hack") none =
      ([.notice (.noRepository "."), .tag hackTag, .tag fixTag], false) :=
    congrArg (·, false) run_twoKinds
  refine ⟨hparse, ?_, ?_, ?_⟩
  · rw [found_twoKinds]
    decide
  · rw [Settings.shown, found_twoKinds]
    decide
  · rw [run_eq_searchAndWrite hparse hexist, searchAndWrite_eq, hheard]
    decide

end CommentTags.CommandLine

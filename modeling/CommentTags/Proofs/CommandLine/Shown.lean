import CommentTags.Proofs.CommandLine.Outcome
import CommentTags.Proofs.Report.Lines

namespace CommentTags.CommandLine

open Report (tagJson styledLine headingWidth expandTabs)
open Search (smallTree)

variable {fs : FileSystem} {zone : Int} {arguments : List String} {s s' : Settings} {t : Tag}
  {outcome : Outcome}

/-- A line that shows a tag: its columns side by side, with the tabs expanded. -/
def IsLineOf (zone : Int) (t : Tag) (line : List Char) : Prop :=
  ∃ styled, styledLine zone headingWidth t = .ok styled ∧ Report.Expands 0 styled.plain line

theorem exists_of_outputLine {line : List Char} (ht : t.WellFormed)
    (hpath : '\n' ∉ t.path.toString.toList) (h : outputLine zone t = .ok line) :
    ∃ w, line = w ++ ['\n'] ∧ '\n' ∉ w ∧ IsLineOf zone t w := by
  have hheading : '\n' ∉ t.heading.toList := by
    rw [Tag.heading, Report.newline_not_mem_append, Report.newline_not_mem_append]
    exact ⟨⟨ht.kind_oneLine, by decide⟩, ht.message_oneLine⟩
  unfold outputLine at h
  cases hstyled : styledLine zone headingWidth t with
  | error e => rw [hstyled] at h; cases e <;> cases h
  | ok styled =>
    rw [hstyled] at h
    obtain ⟨hexpands, hline⟩ :=
      Report.expandTabs_of_not_mem (Report.newline_not_mem_styledLine hheading hpath hstyled)
    exact ⟨expandTabs styled.plain, (Except.ok.inj h).symm, hline, styled, hstyled, hexpands⟩

theorem exists_of_outputLines {ts : List Tag} {lines : List (List Char)}
    (h : List.Forall₂ (fun t line => outputLine zone t = .ok line) ts lines)
    (hts : ∀ t ∈ ts, t.WellFormed) (hpaths : ∀ t ∈ ts, '\n' ∉ t.path.toString.toList) :
    ∃ ws, lines = ws.map (· ++ ['\n']) ∧ (∀ w ∈ ws, '\n' ∉ w) ∧
      List.Forall₂ (IsLineOf zone) ts ws := by
  induction h with
  | nil => exact ⟨[], rfl, List.forall_mem_nil _, .nil⟩
  | @cons t line ts lines hline hlines ih =>
    obtain ⟨ht, hts⟩ := List.forall_mem_cons.mp hts
    obtain ⟨hpath, hpaths⟩ := List.forall_mem_cons.mp hpaths
    obtain ⟨w, rfl, hw, hshows⟩ := exists_of_outputLine ht hpath hline
    obtain ⟨ws, rfl, hws, hall⟩ := ih hts hpaths
    exact ⟨w :: ws, rfl, List.forall_mem_cons.mpr ⟨hw, hws⟩, .cons hshows hall⟩

theorem cut_flatten_lines {ws : List (List Char)} (h : ∀ w ∈ ws, '\n' ∉ w) :
    Text.cut '\n' (ws.map (· ++ ['\n'])).flatten = ws.map (· ++ ['\n']) := by
  have hlines : ∀ line ∈ ws.map (· ++ ['\n']), ∃ w, '\n' ∉ w ∧ line = w ++ ['\n'] := by
    intro line hline
    obtain ⟨w, hw, rfl⟩ := List.mem_map.mp hline
    exact ⟨w, h w hw, rfl⟩
  have hcut := Text.cut_flatten_append [] hlines
  rwa [List.append_nil, Text.cut_nil, List.append_nil] at hcut

/-- Settings that ask for the same tags. They may differ in the form of the output, and in the order
in which the levels are given. -/
structure Settings.Alike (s s' : Settings) : Prop where
  paths : s'.paths = s.paths
  levels : ∀ l, l ∈ s'.levels ↔ l ∈ s.levels
  tag : s'.tag = s.tag
  noIgnore : s'.noIgnore = s.noIgnore
  noBlame : s'.noBlame = s.noBlame

namespace Settings

theorem Alike.mem_wantedLevels (h : s.Alike s') (l : Level) :
    l ∈ s'.wantedLevels ↔ l ∈ s.wantedLevels := by
  have hnil : s'.levels = [] ↔ s.levels = [] := by
    rw [List.eq_nil_iff_forall_not_mem, List.eq_nil_iff_forall_not_mem]
    exact forall_congr' fun l => not_congr (h.levels l)
  unfold wantedLevels
  by_cases hlevels : s.levels = []
  · rw [if_pos hlevels, if_pos (hnil.mpr hlevels)]
  · rw [if_neg hlevels, if_neg (mt hnil.mp hlevels)]
    exact h.levels l

theorem Alike.wants_iff (h : s.Alike s') (t : Tag) : s'.Wants t ↔ s.Wants t := by
  rw [Wants, Wants, h.mem_wantedLevels, h.tag]

theorem Alike.shows_eq (h : s.Alike s') : s'.shows = s.shows := by
  funext t
  rw [Bool.eq_iff_iff, shows_iff, shows_iff, h.wants_iff]

theorem Alike.roots_eq (h : s.Alike s') : s'.roots = s.roots := by
  rw [roots, roots, h.paths]

theorem Alike.shown_eq (h : s.Alike s') (fs : FileSystem) : s'.shown fs = s.shown fs := by
  rw [shown, shown, ← filter_shows, ← filter_shows, h.shows_eq, found, found, h.roots_eq,
    h.noIgnore, h.noBlame]

theorem Alike.searchAndWrite_eq (h : s.Alike s') (hjson : s'.json = s.json)
    (hverbose : s'.verbose = s.verbose) (fs : FileSystem) (zone : Int) (interrupt : Option Nat) :
    searchAndWrite fs zone s' interrupt = searchAndWrite fs zone s interrupt := by
  have hoptions : s'.searchOptions = s.searchOptions := by
    rw [searchOptions, searchOptions, h.noIgnore, h.noBlame]
  have hlogs : s'.logs = s.logs := by
    funext n
    rw [logs, logs, hverbose]
  unfold searchAndWrite logText
  rw [hoptions, h.roots_eq, hjson, h.shows_eq, hlogs]

theorem filter_level_shown {l : Level} (hl : l ∈ s.wantedLevels) (fs : FileSystem) :
    (s.shown fs).filter (·.level = l) = shown { s with levels := [l] } fs := by
  have hfound : found { s with levels := [l] } fs = s.found fs := rfl
  rw [shown, shown, hfound, List.filter_filter]
  refine List.filter_congr fun t _ => ?_
  rw [Bool.eq_iff_iff, Bool.and_eq_true, decide_eq_true_eq, decide_eq_true_eq, decide_eq_true_eq]
  have hlevels : wantedLevels { s with levels := [l] } = [l] := if_neg (List.cons_ne_nil _ _)
  rw [Wants, Wants, hlevels, List.mem_singleton]
  constructor
  · rintro ⟨hlevel, -, hkind⟩
    exact ⟨hlevel, hkind⟩
  · rintro ⟨rfl, hkind⟩
    exact ⟨rfl, hl, hkind⟩

end Settings

structure Shows (fs : FileSystem) (zone : Int) (arguments : List String) (s : Settings)
    (outcome : Outcome) : Prop where
  code : outcome.code = 0
  document : s.json = true →
    Report.Json.read? outcome.output.toList = some (.arr ((s.shown fs).map tagJson))
  /-- Text has one part for each tag. -/
  text : s.json = false → ∃ parts, outcome.output.toList = parts.flatten ∧
    List.Forall₂ (fun t part => outputLine zone t = .ok part) (s.shown fs) parts
  /-- The parts are the lines of the text, if no path has a line feed in it. -/
  lines : s.json = false → (∀ t ∈ s.shown fs, '\n' ∉ t.path.toString.toList) →
    ∃ lines, Text.cut '\n' outcome.output.toList = lines.map (· ++ ['\n']) ∧
      (∀ line ∈ lines, '\n' ∉ line) ∧ List.Forall₂ (IsLineOf zone) (s.shown fs) lines
  /-- In the other form the same tags are shown in the same order. -/
  forms : ∀ arguments' s' outcome', parse arguments' = .ok s' → s.Alike s' →
    run fs zone arguments' none = .ok outcome' → s'.json = true →
      Report.Json.read? outcome'.output.toList = some (.arr ((s.shown fs).map tagJson))
  /-- It does not matter how often, and in which order, the levels are given. -/
  repeats : ∀ arguments' s', parse arguments' = .ok s' → s.Alike s' → s'.json = s.json →
    s'.verbose = s.verbose → ∀ interrupt,
      run fs zone arguments' interrupt = run fs zone arguments interrupt
  /-- What is shown is made up of what is shown for each of the levels alone. -/
  merged : (∀ t ∈ s.shown fs, t.level ∈ s.wantedLevels) ∧ ∀ l ∈ s.wantedLevels,
    (s.shown fs).filter (·.level = l) = Settings.shown { s with levels := [l] } fs

theorem lines_of_textOutput (hfs : fs.root.WellFormed) (hs : parse arguments = .ok s)
    (hjson : s.json = false) (hexist : ∀ p ∈ s.roots, fs.pathExists p = true)
    (hrun : run fs zone arguments none = .ok outcome)
    (hpaths : ∀ t ∈ s.shown fs, '\n' ∉ t.path.toString.toList) :
    ∃ lines, Text.cut '\n' outcome.output.toList = lines.map (· ++ ['\n']) ∧
      (∀ line ∈ lines, '\n' ∉ line) ∧ List.Forall₂ (IsLineOf zone) (s.shown fs) lines := by
  obtain ⟨lines, hlines, hflat⟩ := lines_of_run hs hjson hrun (code_of_run hs hexist hrun)
  obtain ⟨ws, rfl, hws, hall⟩ :=
    exists_of_outputLines hlines (Settings.wellFormed_of_mem_shown hfs) hpaths
  refine ⟨ws, ?_, hws, hall⟩
  rw [hflat, cut_flatten_lines hws]

/-- A run on paths that exist, which nothing interrupts and in which nothing fails, shows all tags
that its settings ask for. -/
theorem run_shows (fs : FileSystem) (zone : Int) (arguments : List String) (s : Settings)
    (outcome : Outcome) (hfs : fs.root.WellFormed) (hs : parse arguments = .ok s)
    (hexist : ∀ p ∈ s.roots, fs.pathExists p = true)
    (hrun : run fs zone arguments none = .ok outcome) : Shows fs zone arguments s outcome where
  code := code_of_run hs hexist hrun
  document hjson := read?_of_run hs hjson hrun (code_of_run hs hexist hrun)
  text hjson := by
    obtain ⟨parts, hparts, hflat⟩ := lines_of_run hs hjson hrun (code_of_run hs hexist hrun)
    exact ⟨parts, hflat, hparts⟩
  lines hjson hpaths := lines_of_textOutput hfs hs hjson hexist hrun hpaths
  forms arguments' s' outcome' hs' halike hrun' hjson' := by
    rw [← halike.roots_eq] at hexist
    rw [← halike.shown_eq]
    exact read?_of_run hs' hjson' hrun' (code_of_run hs' hexist hrun')
  repeats arguments' s' hs' halike hjson hverbose interrupt := by
    rw [run_eq_searchAndWrite hs hexist]
    rw [← halike.roots_eq] at hexist
    rw [run_eq_searchAndWrite hs' hexist, halike.searchAndWrite_eq hjson hverbose]
  merged := by
    refine ⟨fun t ht => ?_, fun l hl => Settings.filter_level_shown hl fs⟩
    exact (of_decide_eq_true (List.mem_filter.mp ht).2).1

theorem found_smallTree (hroots : s.roots = [.ofString "."]) (hignore : s.noIgnore = true)
    (hblame : s.noBlame = true) : s.found smallTree = Search.smallTags := by
  have hrun : Search.run smallTree ⟨!true, !true⟩ ["."] = Search.smallTags.map .tag :=
    Search.run_smallTree_eq_map
  rw [Settings.found, hroots, hignore, hblame]
  have htags : (Search.Results.ofEvents (Search.smallTags.map .tag)).tags = Search.smallTags := by
    rw [Search.Results.ofEvents_tags]
  exact (congrArg (fun es => (Search.Results.ofEvents es).tags) hrun).trans htags

def todoArguments : List String :=
  ["--no-ignore", "--no-blame", "-l", "custom", "-l", "improvement", "--tag", "todo"]

def todoSettings : Settings :=
  ⟨[], [.custom, .improvement], some "todo", true, true, false, false⟩

theorem parse_todoArguments : parse todoArguments = .ok todoSettings := by
  decide +kernel

theorem run_smallTree_shows :
    smallTree.root.WellFormed ∧ parse todoArguments = .ok todoSettings ∧
    (∀ p ∈ todoSettings.roots, smallTree.pathExists p = true) ∧
    run smallTree 0 todoArguments none =
      .ok ⟨0, "TODO: a                                   a.c:1\n", ""⟩ ∧
    Shows smallTree 0 todoArguments todoSettings
      ⟨0, "TODO: a                                   a.c:1\n", ""⟩ := by
  have hwf : smallTree.root.WellFormed := by decide
  have hparse := parse_todoArguments
  have hexist : ∀ p ∈ todoSettings.roots, smallTree.pathExists p = true :=
    List.forall_mem_singleton.mpr (by cbv)
  have hline : outputLine 0 ⟨⟨.here, ["a.c"]⟩, 1, .todo, "a", none⟩ =
      .ok "TODO: a                                   a.c:1\n".toList := by
    cbv
  have hrun : run smallTree 0 todoArguments none =
      .ok ⟨0, "TODO: a                                   a.c:1\n", ""⟩ := by
    have hheard : heard smallTree todoSettings none = (Search.smallTags.map .tag, false) :=
      congrArg (·, false) Search.run_smallTree_eq_map
    have htext : textOutput 0 todoSettings.shows (Search.smallTags.map .tag) =
        .ok "TODO: a                                   a.c:1\n".toList := by
      rw [Search.smallTags, List.map_cons, textOutput, hline]
      rfl
    have hlog : logText todoSettings (Search.smallTags.map .tag) = "" := rfl
    rw [run_eq_searchAndWrite hparse hexist, searchAndWrite_eq, hheard]
    dsimp only
    rw [if_neg (by decide), htext, hlog]
    exact congrArg (fun output => Except.ok (Outcome.mk 0 output "")) String.ofList_toList
  exact ⟨hwf, hparse, hexist, hrun, run_shows _ _ _ _ _ hwf hparse hexist hrun⟩

end CommentTags.CommandLine

import CommentTags.Proofs.CommandLine.LeadingKeyword
import CommentTags.Proofs.CommandLine.OneKind
import CommentTags.Proofs.CommandLine.Shown

namespace CommentTags

open CommandLine (IsPlain)

theorem Kind.text_ofKeyword_eq_iff (a b : String) :
    (ofKeyword a).text = (ofKeyword b).text ↔ ofKeyword a = ofKeyword b := by
  constructor
  · intro h
    have htext := congrArg ofKeyword h
    rwa [ofKeyword_text, ofKeyword_text] at htext
  · exact congrArg text

theorem HasTag.kind_isPlain {p : Path} {n : Nat} {line : List Char} {g : Grammar} {t : Tag}
    (h : HasTag p n line g t) : t.kind.text ≠ "" ∧ IsPlain t.kind.text := by
  cases h with
  | call =>
    have hcall : Kind.todoCall.text ≠ "" ∧ IsPlain Kind.todoCall.text := by decide
    exact hcall
  | @comment g pre d _ hd _ =>
    refine Kind.text_ofKeyword (P := fun s => s ≠ "" ∧ IsPlain s) (by decide) ?_
    have hchars := d.keyword_chars
    have hne := d.keyword_ne_nil
    cases hkeyword : d.keyword with
    | nil => exact absurd hkeyword hne
    | cons c k =>
      rw [hkeyword] at hchars
      have hc := hchars c List.mem_cons_self
      refine ⟨by simp, ?_⟩
      unfold IsPlain
      rw [String.toList_ofList]
      rintro ⟨⟩
      revert hc
      decide

namespace Search

open Results (ofEvents)

theorem kind_isPlain_of_mem_run {fs : FileSystem} {o : Options} {roots : List String} {t : Tag}
    (hfs : fs.root.WellFormed) (ht : t ∈ (ofEvents (run fs o roots)).tags) :
    t.kind.text ≠ "" ∧ IsPlain t.kind.text := by
  obtain ⟨root, -, p, hp, ht⟩ := exists_of_mem_run hfs ht
  obtain ⟨text, ht⟩ := exists_mem_fileTags hfs hp ht
  obtain ⟨g, -, i, line, -, ht⟩ := mem_fileTags.mp ht
  exact ht.kind_isPlain

end Search

namespace CommandLine

open Report (Json tagJson)
open Search (smallTree)
open Search.Results (ofEvents)

def rowKind? (row : Json) : Option String :=
  (row.field? "kind").bind Json.text?

def rowLevel? (row : Json) : Option String :=
  (row.field? "level").bind Json.text?

variable {fs : FileSystem} {zone : Int} {interrupt : Option Nat}
  {arguments arguments' : List String} {s s' : Settings} {outcome : Outcome} {t : Tag}
  {ts : List Tag}

theorem rowKind?_tagJson (t : Tag) : rowKind? (tagJson t) = some t.kind.text := rfl

theorem rowLevel?_tagJson (t : Tag) : rowLevel? (tagJson t) = some t.level.name := rfl

theorem filter_rowKind? (ht : t.WellFormed) (hts : ∀ u ∈ ts, u.WellFormed) :
    (ts.map tagJson).filter (rowKind? · = some t.kind.text) =
      (ts.filter (·.kind = t.kind)).map tagJson := by
  rw [List.filter_map]
  congr 1
  refine List.filter_congr fun u hu => ?_
  simp only [Function.comp_apply, rowKind?_tagJson, Option.some.injEq]
  rw [decide_eq_decide]
  constructor
  · intro h
    rw [← (hts u hu).kind, h, ht.kind]
  · exact congrArg Kind.text

theorem Settings.shown_eq_found (htag : s.tag = none) (hlevels : ∀ l, l ∈ s.levels)
    (fs : FileSystem) : s.shown fs = s.found fs := by
  refine List.filter_eq_self.mpr fun t _ => decide_eq_true ⟨?_, ?_⟩
  · have hne : s.levels ≠ [] := List.ne_nil_of_mem (hlevels .fix)
    rw [wantedLevels, if_neg hne]
    exact hlevels t.level
  · simp [htag]

/-- A document can be written for other settings as well if they have the same search. -/
theorem exists_run_of_run (hs : parse arguments = .ok s) (hjson : s.json = true)
    (hrun : run fs zone arguments interrupt = .ok outcome) (hcode : outcome.code = 0)
    (hs' : parse arguments' = .ok s') (hjson' : s'.json = true) (hroots : s'.roots = s.roots)
    (hoptions : s'.searchOptions = s.searchOptions) :
    ∃ outcome', run fs zone arguments' interrupt = .ok outcome' ∧ outcome'.code = 0 := by
  have hexist := pathExists_of_run hs hrun hcode
  -- An interrupt counts all tags that are found, so that it comes at the same time in both runs.
  have hheard : heard fs s' interrupt = heard fs s interrupt := by
    rw [heard, heard, hroots, hoptions]
  obtain ⟨hwhole, hout⟩ := heard_of_run hs hrun hcode
  rw [if_pos hjson] at hout
  rw [← hroots] at hexist
  rw [run_eq_searchAndWrite hs' hexist, searchAndWrite_eq, if_pos hjson', hheard, hwhole,
    jsonOutput_of_none _ (failure_of_jsonOutput hout)]
  exact ⟨_, rfl, rfl⟩

/-- What it comes to when the kind of a row is given as a keyword to the run that has written it. -/
structure FedBack (fs : FileSystem) (zone : Int) (interrupt : Option Nat) (arguments : List String)
    (s : Settings) (rows : List Json) (keyword : String) : Prop where
  parsed : parse ("--tag" :: keyword :: arguments) = .ok { s with tag := some keyword }
  nonempty : rows.filter (rowKind? · = some keyword) ≠ []
  /-- Just the rows with that kind are written, wherever the keyword stands, and in whichever order
  the levels are given. -/
  again : ∀ arguments' s', parse arguments' = .ok s' →
    Settings.Alike { s with tag := some keyword } s' → s'.json = true →
      ∃ outcome, run fs zone arguments' interrupt = .ok outcome ∧ outcome.code = 0 ∧
        Json.read? outcome.output.toList =
          some (.arr (rows.filter (rowKind? · = some keyword)))

theorem fedBack_of_mem (hfs : fs.root.WellFormed) (hs : parse arguments = .ok s)
    (hjson : s.json = true) (htag : s.tag = none) (hlevels : ∀ l, l ∈ s.levels)
    (hrun : run fs zone arguments interrupt = .ok outcome) (hcode : outcome.code = 0)
    (ht : t ∈ s.found fs) :
    FedBack fs zone interrupt arguments s ((s.found fs).map tagJson) t.kind.text := by
  have hwf : ∀ u ∈ s.found fs, u.WellFormed := fun u hu => Search.wellFormed_of_mem_run hfs hu
  obtain ⟨hne, hplain⟩ := Search.kind_isPlain_of_mem_run hfs ht
  constructor
  case parsed =>
    rw [parse_tag_cons hplain, hs]
    simp [Except.map, Settings.orTag, htag]
  case nonempty =>
    apply List.ne_nil_of_mem
    exact List.mem_filter.mpr ⟨List.mem_map_of_mem ht, by simp [rowKind?_tagJson]⟩
  case again =>
    intro arguments' s' hs' halike hjson'
    have hoptions : s'.searchOptions = s.searchOptions := by
      rw [Settings.searchOptions, halike.noIgnore, halike.noBlame]
      rfl
    obtain ⟨outcome', hrun', hcode'⟩ :=
      exists_run_of_run hs hjson hrun hcode hs' hjson' halike.roots_eq hoptions
    have hlevel : (Kind.ofKeyword t.kind.text).level ∈
        Settings.levels { s with tag := some t.kind.text } := hlevels _
    refine ⟨outcome', hrun', hcode', ?_⟩
    rw [read?_of_run hs' hjson' hrun' hcode', halike.shown_eq,
      Settings.shown_keyword_of_level_mem rfl hne hlevel, (hwf t ht).kind,
      filter_rowKind? (hwf t ht) hwf]
    rfl

/-- A kind is told by its text. Written in a row it can be given as a keyword: then all rows of the
kind are written again, and no others. -/
theorem run_kinds_fedBack (fs : FileSystem) (zone : Int) (interrupt : Option Nat)
    (arguments : List String) (s : Settings) (outcome : Outcome) (hfs : fs.root.WellFormed)
    (hs : parse arguments = .ok s) (hjson : s.json = true) (htag : s.tag = none)
    (hlevels : ∀ l, l ∈ s.levels) (hrun : run fs zone arguments interrupt = .ok outcome)
    (hcode : outcome.code = 0) :
    (∀ token, Kind.ofKeyword (Kind.ofKeyword token).text = Kind.ofKeyword token) ∧
    (∀ a b, (Kind.ofKeyword a).text = (Kind.ofKeyword b).text ↔
      Kind.ofKeyword a = Kind.ofKeyword b) ∧
    ∃ rows, Json.read? outcome.output.toList = some (.arr rows) ∧
      ∀ row ∈ rows, ∃ keyword, rowKind? row = some keyword ∧
        rowLevel? row = some (Kind.ofKeyword keyword).level.name ∧
        FedBack fs zone interrupt arguments s rows keyword := by
  refine ⟨Kind.ofKeyword_text, Kind.text_ofKeyword_eq_iff, (s.found fs).map tagJson, ?_, ?_⟩
  · rw [← Settings.shown_eq_found htag hlevels]
    exact read?_of_run hs hjson hrun hcode
  · intro row hrow
    obtain ⟨t, ht, rfl⟩ := List.mem_map.mp hrow
    have hkind := (Search.wellFormed_of_mem_run hfs ht).kind
    refine ⟨t.kind.text, rowKind?_tagJson t, ?_, ?_⟩
    · rw [hkind]
      exact rowLevel?_tagJson t
    · exact fedBack_of_mem hfs hs hjson htag hlevels hrun hcode ht

def allLevelsArguments : List String :=
  ["--json", "-i", "-b", "-l", "fix", "-l", "improvement", "-l", "information", "-l", "custom"]

def allLevelsSettings : Settings :=
  ⟨[], Level.all, none, true, true, true, false⟩

theorem run_smallTree_fedBack :
    smallTree.root.WellFormed ∧
    parse allLevelsArguments = .ok allLevelsSettings ∧
    (∀ l, l ∈ allLevelsSettings.levels) ∧
    ∃ outcome, run smallTree 0 allLevelsArguments none = .ok outcome ∧ outcome.code = 0 ∧
      Json.read? outcome.output.toList = some (.arr (Search.smallTags.map tagJson)) ∧
      ∃ outcome', run smallTree 0 ("--tag" :: "TODO!" :: allLevelsArguments) none = .ok outcome' ∧
        outcome'.code = 0 ∧
        Json.read? outcome'.output.toList =
          some (.arr [tagJson ⟨⟨.here, ["b", "b.rs"]⟩, 1, .todoCall, "", none⟩]) := by
  have hwf : smallTree.root.WellFormed := by decide
  have hparse : parse allLevelsArguments = .ok allLevelsSettings := by decide +kernel
  have hlevels : ∀ l, l ∈ allLevelsSettings.levels := by
    intro l
    cases l <;> decide
  have hexist : ∀ p ∈ allLevelsSettings.roots, smallTree.pathExists p = true :=
    List.forall_mem_singleton.mpr (by cbv)
  have hfailure : (ofEvents (Search.run smallTree .withoutRepository ["."])).failure = none := by
    rw [Search.run_smallTree_eq_map]
    rfl
  obtain ⟨outcome, hrun, hcode⟩ := exists_run_eq_ok hparse hexist rfl hfailure 0
  have hread := read?_of_run hparse rfl hrun hcode
  rw [Settings.shown_eq_found rfl hlevels, found_smallTree rfl rfl rfl] at hread
  obtain ⟨-, -, rows, hrows, hback⟩ :=
    run_kinds_fedBack smallTree 0 none _ _ _ hwf hparse rfl rfl hlevels hrun hcode
  obtain rfl : Search.smallTags.map tagJson = rows := by
    rw [hread] at hrows
    simpa using hrows
  obtain ⟨keyword, hkeyword, -, hfed⟩ :=
    hback (tagJson ⟨⟨.here, ["b", "b.rs"]⟩, 1, .todoCall, "", none⟩) (by simp [Search.smallTags])
  obtain rfl : "TODO!" = keyword := Option.some.inj hkeyword
  obtain ⟨outcome', hrun', hcode', hread'⟩ :=
    hfed.again _ _ hfed.parsed ⟨rfl, fun _ => Iff.rfl, rfl, rfl, rfl⟩ rfl
  exact ⟨hwf, hparse, hlevels, outcome, hrun, hcode, hread, outcome', hrun', hcode', hread'⟩

end CommandLine

end CommentTags

import CommentTags.CommandLine.Run
import CommentTags.Proofs.Report.Rows

namespace CommentTags.CommandLine

open Search (Event Results)
open Search.Results (ofEvents)

namespace Settings

def wantedLevels (s : Settings) : List Level :=
  if s.levels = [] then [.fix, .improvement] else s.levels

/-- Whether the settings ask for a tag: its level is one of those that are wanted, and its kind is
the one that a keyword names, if there is a keyword. -/
def Wants (s : Settings) (t : Tag) : Prop :=
  t.level ∈ s.wantedLevels ∧
    ∀ keyword, s.tag = some keyword → keyword ≠ "" → t.kind = Kind.ofKeyword keyword

theorem shows_iff (s : Settings) (t : Tag) : s.shows t = true ↔ s.Wants t := by
  have hlevels : s.shownLevels = s.wantedLevels := rfl
  rw [shows, Bool.and_eq_true, decide_eq_true_eq, hlevels, Wants, shownKind?]
  refine and_congr_right fun _ => ?_
  cases s.tag with
  | none =>
    constructor
    · intro _ keyword h
      cases h
    · exact fun _ => rfl
  | some keyword =>
    by_cases hempty : keyword = ""
    · subst hempty
      constructor
      · exact fun _ keyword h hne => absurd (Option.some.inj h).symm hne
      · exact fun _ => rfl
    · have hfilter : (some keyword).filter (· ≠ "") = some keyword :=
        if_pos (decide_eq_true hempty)
      rw [hfilter, Option.map_some, Option.all_some, decide_eq_true_eq]
      constructor
      · exact fun h _ heq _ => Option.some.inj heq ▸ h
      · exact fun h => h keyword rfl hempty

instance (s : Settings) (t : Tag) : Decidable (s.Wants t) :=
  decidable_of_iff _ (s.shows_iff t)

def found (s : Settings) (fs : FileSystem) : List Tag :=
  (ofEvents (Search.run fs ⟨!s.noIgnore, !s.noBlame⟩ (s.roots.map Path.toString))).tags

/-- The tags to be shown, in the order in which they are found. -/
def shown (s : Settings) (fs : FileSystem) : List Tag :=
  (s.found fs).filter (s.Wants ·)

theorem wellFormed_of_mem_shown {s : Settings} {fs : FileSystem} (hfs : fs.root.WellFormed) :
    ∀ t ∈ s.shown fs, t.WellFormed := by
  intro t ht
  exact Search.wellFormed_of_mem_run hfs (List.mem_filter.mp ht).1

theorem filter_shows (s : Settings) (ts : List Tag) :
    ts.filter s.shows = ts.filter (s.Wants ·) := by
  refine List.filter_congr fun t _ => ?_
  rw [Bool.eq_iff_iff, decide_eq_true_eq, shows_iff]

end Settings

variable {es : List Event}

theorem ofEvents_eventsBefore {n : Nat} (h : (eventsBefore n es).2 = false) :
    ofEvents (eventsBefore n es).1 = ofEvents es := by
  fun_induction eventsBefore n es with
  | case1 => rfl
  | case2 => cases h
  | case3 n t es r ih => rw [ofEvents, ofEvents, ih h]
  | case4 n m es r ih => rw [ofEvents, ofEvents, ih h]
  | case5 => rfl

theorem textOutput_eq_ok {zone : Int} {shows : Tag → Bool} {output : List Char}
    (h : textOutput zone shows es = .ok output) :
    ∃ lines, List.Forall₂ (fun t line => outputLine zone t = .ok line)
      ((ofEvents es).tags.filter shows) lines ∧ output = lines.flatten := by
  induction es generalizing output with
  | nil => exact ⟨[], .nil, (Except.ok.inj h).symm⟩
  | cons e es ih =>
    cases e with
    | tag t =>
      rw [textOutput] at h
      rw [ofEvents, List.filter_cons]
      split at h
      · rename_i ht
        cases hline : outputLine zone t with
        | error e => rw [hline] at h; cases h
        | ok line =>
          cases hrest : textOutput zone shows es with
          | error e => rw [hline, hrest] at h; cases h
          | ok rest =>
            rw [hline, hrest] at h
            obtain ⟨lines, hlines, rfl⟩ := ih hrest
            refine ⟨line :: lines, ?_, (Except.ok.inj h).symm⟩
            rw [if_pos ht]
            exact .cons hline hlines
      · rename_i ht
        rw [if_neg ht]
        exact ih h
    | notice n => exact ih h
    | failed e => cases h

theorem jsonOutput_of_none (shows : Tag → Bool) (h : (ofEvents es).failure = none) :
    jsonOutput shows false es =
      .ok ((Report.tagsJson ((ofEvents es).tags.filter shows)).toList ++ ['\n']) := by
  unfold jsonOutput
  dsimp only
  rw [h]
  rfl

theorem failure_of_jsonOutput {shows : Tag → Bool} {interrupted : Bool} {output : List Char}
    (h : jsonOutput shows interrupted es = .ok output) : (ofEvents es).failure = none := by
  unfold jsonOutput at h
  dsimp only at h
  cases hfailure : (ofEvents es).failure with
  | none => rfl
  | some e =>
    rw [hfailure] at h
    cases h

theorem jsonOutput_eq_ok {shows : Tag → Bool} {output : List Char}
    (h : jsonOutput shows false es = .ok output) :
    output = (Report.tagsJson ((ofEvents es).tags.filter shows)).toList ++ ['\n'] := by
  have hdocument := jsonOutput_of_none shows (failure_of_jsonOutput h)
  exact Except.ok.inj (h.symm.trans hdocument)

variable {fs : FileSystem} {zone : Int} {arguments : List String} {interrupt : Option Nat}
  {s : Settings} {outcome : Outcome}

/-- The events that a run has to do with, and whether an interrupt has cut them off. -/
def heard (fs : FileSystem) (s : Settings) (interrupt : Option Nat) : List Event × Bool :=
  let all := Search.run fs s.searchOptions (s.roots.map Path.toString)
  (interrupt.map (eventsBefore · all)).getD (all, false)

theorem ofEvents_heard (h : (heard fs s interrupt).2 = false) :
    ofEvents (heard fs s interrupt).1 =
      ofEvents (Search.run fs s.searchOptions (s.roots.map Path.toString)) := by
  cases interrupt with
  | none => rfl
  | some n => exact ofEvents_eventsBefore h

theorem searchAndWrite_eq (fs : FileSystem) (zone : Int) (s : Settings) (interrupt : Option Nat) :
    searchAndWrite fs zone s interrupt =
      (if s.json then jsonOutput s.shows (heard fs s interrupt).2 (heard fs s interrupt).1
        else textOutput zone s.shows (heard fs s interrupt).1).map fun output =>
          ⟨if (heard fs s interrupt).2 then 130 else 0, .ofList output,
            logText s (heard fs s interrupt).1 ++
              if (heard fs s interrupt).2 then "\ntagscan: interrupted by user\n" else ""⟩ := by
  unfold searchAndWrite
  cases s.json <;> rfl

theorem run_eq_searchAndWrite (hs : parse arguments = .ok s)
    (hexist : ∀ p ∈ s.roots, fs.pathExists p = true) :
    run fs zone arguments interrupt = searchAndWrite fs zone s interrupt := by
  have hfind : s.roots.find? (fun p => !fs.pathExists p) = none := by
    refine List.find?_eq_none.mpr fun p hp => ?_
    rw [hexist p hp]
    decide
  rw [run, hs]
  dsimp only
  rw [hfind]

theorem pathExists_of_run (hs : parse arguments = .ok s)
    (h : run fs zone arguments interrupt = .ok outcome) (hcode : outcome.code = 0) :
    ∀ p ∈ s.roots, fs.pathExists p = true := by
  rw [run, hs] at h
  dsimp only at h
  split at h
  · split at h
    · cases h
    · obtain rfl := Except.ok.inj h
      cases hcode
  · rename_i hfind
    intro p hp
    have hexists := List.find?_eq_none.mp hfind p hp
    rwa [Bool.not_eq_true, Bool.not_eq_false'] at hexists

theorem exists_of_map_eq_ok {ε α β : Type} {f : α → β} {x : Except ε α} {b : β}
    (h : x.map f = .ok b) : ∃ a, x = .ok a ∧ b = f a := by
  cases x with
  | error e => cases h
  | ok a => exact ⟨a, rfl, (Except.ok.inj h).symm⟩

theorem code_of_run (hs : parse arguments = .ok s) (hexist : ∀ p ∈ s.roots, fs.pathExists p = true)
    (h : run fs zone arguments none = .ok outcome) : outcome.code = 0 := by
  rw [run_eq_searchAndWrite hs hexist, searchAndWrite_eq] at h
  obtain ⟨output, -, rfl⟩ := exists_of_map_eq_ok h
  rfl

theorem heard_of_run (hs : parse arguments = .ok s)
    (h : run fs zone arguments interrupt = .ok outcome) (hcode : outcome.code = 0) :
    (heard fs s interrupt).2 = false ∧
      (if s.json then jsonOutput s.shows false (heard fs s interrupt).1
        else textOutput zone s.shows (heard fs s interrupt).1) = .ok outcome.output.toList := by
  rw [run_eq_searchAndWrite hs (pathExists_of_run hs h hcode), searchAndWrite_eq] at h
  obtain ⟨output, hout, rfl⟩ := exists_of_map_eq_ok h
  have hwhole : (heard fs s interrupt).2 = false := by
    cases hinterrupted : (heard fs s interrupt).2 with
    | false => rfl
    | true => rw [hinterrupted] at hcode; cases hcode
  rw [hwhole] at hout
  refine ⟨hwhole, ?_⟩
  rw [String.toList_ofList]
  exact hout

theorem output_of_run (hs : parse arguments = .ok s)
    (h : run fs zone arguments interrupt = .ok outcome) (hcode : outcome.code = 0) :
    ∃ es, ofEvents es = ofEvents (Search.run fs s.searchOptions (s.roots.map Path.toString)) ∧
      (if s.json then jsonOutput s.shows false es else textOutput zone s.shows es) =
        .ok outcome.output.toList := by
  obtain ⟨hwhole, hout⟩ := heard_of_run hs h hcode
  exact ⟨_, ofEvents_heard hwhole, hout⟩

theorem shown_eq {es : List Event}
    (h : ofEvents es = ofEvents (Search.run fs s.searchOptions (s.roots.map Path.toString))) :
    (ofEvents es).tags.filter s.shows = s.shown fs := by
  rw [h, Settings.filter_shows]
  rfl

theorem read?_of_run (hs : parse arguments = .ok s) (hjson : s.json = true)
    (h : run fs zone arguments interrupt = .ok outcome) (hcode : outcome.code = 0) :
    Report.Json.read? outcome.output.toList =
      some (.arr ((s.shown fs).map Report.tagJson)) := by
  obtain ⟨es, hes, hout⟩ := output_of_run hs h hcode
  rw [if_pos hjson] at hout
  rw [jsonOutput_eq_ok hout, shown_eq hes]
  exact Report.read?_tagsJson (s.shown fs)

theorem exists_run_eq_ok (hs : parse arguments = .ok s)
    (hexist : ∀ p ∈ s.roots, fs.pathExists p = true) (hjson : s.json = true)
    (hfailure : (ofEvents (Search.run fs s.searchOptions (s.roots.map Path.toString))).failure =
      none) (zone : Int) :
    ∃ outcome, run fs zone arguments none = .ok outcome ∧ outcome.code = 0 := by
  have hout := jsonOutput_of_none s.shows hfailure
  rw [run_eq_searchAndWrite hs hexist, searchAndWrite_eq, if_pos hjson]
  dsimp only [heard, Option.map_none, Option.getD_none]
  rw [hout]
  exact ⟨_, rfl, rfl⟩

theorem lines_of_run (hs : parse arguments = .ok s) (hjson : s.json = false)
    (h : run fs zone arguments interrupt = .ok outcome) (hcode : outcome.code = 0) :
    ∃ lines, List.Forall₂ (fun t line => outputLine zone t = .ok line) (s.shown fs) lines ∧
      outcome.output.toList = lines.flatten := by
  obtain ⟨es, hes, hout⟩ := output_of_run hs h hcode
  rw [hjson, if_neg Bool.false_ne_true] at hout
  obtain ⟨lines, hlines, hflat⟩ := textOutput_eq_ok hout
  rw [shown_eq hes] at hlines
  exact ⟨lines, hlines, hflat⟩

end CommentTags.CommandLine

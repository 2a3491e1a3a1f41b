import CommentTags.Proofs.Provenance
import CommentTags.Proofs.Search.Run
import CommentTags.Proofs.Search.ScanFile

namespace CommentTags.Search

open Results (Agrees Follows ofEvents)

variable {fs : FileSystem} {p : Path} {t : Tag} {ts : List Tag}
  {es es' ending : List Event}

def Quiet (es : List Event) : Prop :=
  (ofEvents es).failure = none ∧ (ofEvents es).tags = []

theorem quiet_endEvents (p : Path) (e : Option ReadError) : Quiet (endEvents p e) := by
  cases e <;> exact ⟨rfl, rfl⟩

theorem Quiet.follows (h : Quiet es) : Follows (ofEvents es) (ofEvents es) where
  tags := by
    rw [h.2]
    exact List.Sublist.slnil
  refused e he := by cases h.1.symm.trans he
  failure := .inl rfl

theorem Quiet.agrees (h : Quiet es) : Agrees (ofEvents es) (ofEvents es) :=
  ⟨rfl, by rw [h.2]; rfl⟩

theorem quiet_notices (notices : List Notice) : Quiet (notices.map .notice) := by
  rw [Quiet, Results.ofEvents_notices]
  exact ⟨rfl, rfl⟩

theorem follows_refusalEvents (e : Option PathError) :
    Follows (ofEvents (refusalEvents e)) (ofEvents (refusalEvents e)) ∧
      Agrees (ofEvents (refusalEvents e)) (ofEvents (refusalEvents e)) := by
  cases e with
  | none => exact ⟨⟨List.Sublist.slnil, nofun, .inl rfl⟩, rfl, rfl⟩
  | some e =>
    refine ⟨⟨List.Sublist.slnil, fun e' h => ⟨e, ?_⟩, .inl rfl⟩, rfl, rfl⟩
    exact (Option.some.inj h).symm

theorem lineProvenance_ne_path {b : Git.Blame} {line : Int} {e : SearchError}
    (h : lineProvenance b line = .error e) (e' : PathError) : e ≠ .path e' := by
  unfold lineProvenance at h
  rintro rfl
  split at h
  · cases h
  · cases h
  · cases h
  · split at h <;> cases h

theorem ofEvents_failureEvent (p : Path) (e : SearchError) :
    (ofEvents [failureEvent p e]).tags = [] ∧
      ((ofEvents [failureEvent p e]).failure = none ∨
        (ofEvents [failureEvent p e]).failure = some e) := by
  unfold failureEvent
  split
  · exact ⟨rfl, .inl rfl⟩
  · exact ⟨rfl, .inl rfl⟩
  · exact ⟨rfl, .inr rfl⟩

theorem ofEvents_plain (ts : List Tag) (hend : Quiet ending) :
    (ofEvents (ts.map .tag ++ ending)).failure = none ∧
      (ofEvents (ts.map .tag ++ ending)).tags = ts := by
  rw [Results.ofEvents_append_of_none (by rw [Results.ofEvents_tags]), Results.ofEvents_tags]
  exact ⟨hend.1, by rw [hend.2, List.append_nil]⟩

theorem follows_blamedEvents (b : Git.Blame) (hend : Quiet ending)
    (hts : ∀ t ∈ ts, t.provenance = none) :
    Follows (ofEvents (blamedEvents p b ending ts)) (ofEvents (ts.map .tag ++ ending)) := by
  induction ts with
  | nil => exact hend.follows
  | cons t ts ih =>
    obtain ⟨ht, hts⟩ := List.forall_mem_cons.mp hts
    obtain ⟨hnone, hall⟩ := ofEvents_plain (t :: ts) hend
    rw [blamedEvents]
    cases hlook : lineProvenance b t.line with
    | error e =>
      obtain ⟨htags, hfailure⟩ := ofEvents_failureEvent p e
      refine ⟨?_, fun e' h => (by cases hnone.symm.trans h), hfailure.imp ?_ fun h => ?_⟩
      · rw [htags]
        exact List.nil_sublist _
      · exact fun h => h.trans hnone.symm
      · exact ⟨e, h, lineProvenance_ne_path hlook⟩
    | ok provenance =>
      obtain ⟨htags, hrefused, hfailure⟩ := ih hts
      refine ⟨?_, hrefused, hfailure⟩
      have hbare : Tag.withoutProvenance { t with provenance } = t :=
        Tag.withoutProvenance_of_none ht
      rw [List.map_cons, List.cons_append, ofEvents, ofEvents, List.map_cons, hbare]
      exact htags.cons_cons t

theorem agrees_blamedEvents_iff (b : Git.Blame) (hend : Quiet ending)
    (hts : ∀ t ∈ ts, t.provenance = none) :
    Agrees (ofEvents (blamedEvents p b ending ts)) (ofEvents (ts.map .tag ++ ending)) ↔
      ∀ t ∈ ts, ∃ r, lineProvenance b t.line = .ok r := by
  induction ts with
  | nil => exact ⟨fun _ t ht => absurd ht List.not_mem_nil, fun _ => hend.agrees⟩
  | cons t ts ih =>
    obtain ⟨ht, hts⟩ := List.forall_mem_cons.mp hts
    rw [blamedEvents, List.forall_mem_cons, ← ih hts]
    cases lineProvenance b t.line with
    | error e =>
      constructor
      · rintro ⟨-, htags⟩
        rw [(ofEvents_failureEvent p e).1] at htags
        cases htags
      · rintro ⟨⟨r, hr⟩, -⟩
        cases hr
    | ok provenance =>
      have hbare : Tag.withoutProvenance { t with provenance } = t :=
        Tag.withoutProvenance_of_none ht
      rw [List.map_cons, List.cons_append]
      constructor
      · rintro ⟨hfailure, htags⟩
        rw [ofEvents, ofEvents, List.map_cons, hbare, List.cons.injEq] at htags
        exact ⟨⟨provenance, rfl⟩, hfailure, htags.2⟩
      · rintro ⟨-, hfailure, htags⟩
        refine ⟨hfailure, ?_⟩
        rw [ofEvents, ofEvents, List.map_cons, hbare, htags]

theorem agrees_plain (hend : Quiet ending) (hts : ∀ t ∈ ts, t.provenance = none) :
    Agrees (ofEvents (ts.map .tag ++ ending)) (ofEvents (ts.map .tag ++ ending)) := by
  refine ⟨rfl, ?_⟩
  rw [(ofEvents_plain ts hend).2]
  exact (List.map_congr_left fun t ht => Tag.withoutProvenance_of_none (hts t ht)).trans
    (List.map_id ts)

theorem follows_plain (hend : Quiet ending) (hts : ∀ t ∈ ts, t.provenance = none) :
    Follows (ofEvents (ts.map .tag ++ ending)) (ofEvents (ts.map .tag ++ ending)) := by
  refine ⟨?_, fun e he => ?_, .inl rfl⟩
  · rw [(agrees_plain hend hts).tags]
  · cases (ofEvents_plain ts hend).1.symm.trans he

theorem ofEvents_notices_append (ns ms : List Notice) (es es' : List Event) :
    (Follows (ofEvents (ns.map .notice ++ es)) (ofEvents (ms.map .notice ++ es')) ↔
        Follows (ofEvents es) (ofEvents es')) ∧
      (Agrees (ofEvents (ns.map .notice ++ es)) (ofEvents (ms.map .notice ++ es')) ↔
        Agrees (ofEvents es) (ofEvents es')) := by
  rw [Results.ofEvents_append_of_none (quiet_notices ns).1, (quiet_notices ns).2,
    List.nil_append, Results.ofEvents_append_of_none (quiet_notices ms).1, (quiet_notices ms).2,
    List.nil_append]
  exact ⟨⟨fun ⟨h1, h2, h3⟩ => ⟨h1, h2, h3⟩, fun ⟨h1, h2, h3⟩ => ⟨h1, h2, h3⟩⟩,
    ⟨fun ⟨h1, h2⟩ => ⟨h1, h2⟩, fun ⟨h1, h2⟩ => ⟨h1, h2⟩⟩⟩

theorem tagEvents_connect (fs : FileSystem) (p : Path) (h : Git.Handle) (hend : Quiet ending)
    (hts : ∀ t ∈ ts, t.provenance = none) :
    Follows (ofEvents (tagEvents fs p (some (h.connect fs)) ts ending))
        (ofEvents (ts.map .tag ++ ending)) ∧
      (Agrees (ofEvents (tagEvents fs p (some (h.connect fs)) ts ending))
          (ofEvents (ts.map .tag ++ ending)) ↔
        ∀ t ∈ ts, ∀ c, commitBehind? fs h p t.line = some c → c.HasTime) := by
  match ts, hts with
  | [], _ =>
    exact ⟨hend.follows, fun _ t ht => absurd ht List.not_mem_nil, fun _ => hend.agrees⟩
  | t :: ts, hts =>
    unfold tagEvents
    dsimp only
    obtain ⟨notices, hblame, hnone⟩ | ⟨owners, hblame, hauthor, howner⟩ :=
      fileBlame_connect fs h p
    · rw [hblame]
      dsimp only
      rw [List.append_assoc]
      obtain ⟨hfollows, hagrees⟩ := ofEvents_notices_append notices []
        ((t :: ts).map .tag ++ ending) ((t :: ts).map .tag ++ ending)
      refine ⟨hfollows.mpr (follows_plain hend hts), fun _ t _ c hc => ?_,
        fun _ => hagrees.mpr (agrees_plain hend hts)⟩
      rw [hnone] at hc
      cases hc
    · rw [hblame]
      refine ⟨follows_blamedEvents _ hend hts, (agrees_blamedEvents_iff _ hend hts).trans ?_⟩
      refine forall₂_congr fun t _ => ?_
      rw [howner]
      exact exists_lineProvenance_eq_ok_iff.trans (Git.settled_blameOf_iff hauthor)

theorem leavesOut_connect (fs : FileSystem) (h : Git.Handle) (p : Path) :
    ∃ ignored, (h.connect fs).leavesOut fs p = .ok ignored := by
  unfold Git.Repository.leavesOut
  split
  · exact ⟨false, rfl⟩
  · exact ⟨_, rfl⟩

theorem exists_passesOver_eq_ok (fs : FileSystem) (ignore : Bool) (repo : Option Git.Handle)
    (p : Path) :
    ∃ ignored, ∀ blame,
      passesOver fs ⟨ignore, blame⟩ (repo.map (·.connect fs)) p = .ok ignored := by
  match ignore, repo with
  | false, none => exact ⟨false, fun _ => rfl⟩
  | false, some h => exact ⟨false, fun _ => rfl⟩
  | true, none => exact ⟨false, fun _ => rfl⟩
  | true, some h =>
    obtain ⟨ignored, hignored⟩ := leavesOut_connect fs h p
    exact ⟨ignored, fun _ => hignored⟩

theorem visit_cases (fs : FileSystem) (ignore : Bool) (repo : Option Git.Handle) (p : Path) :
    (∃ es, Quiet es ∧ ∀ blame, visit fs ⟨ignore, blame⟩ repo p = es) ∨
    ∃ g, ∀ blame, visit fs ⟨ignore, blame⟩ repo p =
      tagEvents fs p (if blame then repo.map (·.connect fs) else none) (scanFile fs g p).1
        (endEvents p (scanFile fs g p).2) := by
  obtain ⟨ignored, hignored⟩ := exists_passesOver_eq_ok fs ignore repo p
  unfold visit fileEvents
  simp only [hignored]
  cases ignored with
  | true => exact Or.inl ⟨_, ⟨rfl, rfl⟩, fun _ => rfl⟩
  | false =>
    cases Grammar.ofPath? p with
    | none => exact Or.inl ⟨[], ⟨rfl, rfl⟩, fun _ => rfl⟩
    | some g => exact Or.inr ⟨g, fun _ => rfl⟩

/-- A file gives the same tags with and without a look at the commits, if these have a time. -/
theorem visit_blame (fs : FileSystem) (ignore : Bool) (repo : Option Git.Handle) (p : Path) :
    let plain := ofEvents (visit fs ⟨ignore, false⟩ repo p)
    plain.failure = none ∧ (∀ t ∈ plain.tags, t.path = p) ∧
      Follows (ofEvents (visit fs ⟨ignore, true⟩ repo p)) plain ∧
      (Agrees (ofEvents (visit fs ⟨ignore, true⟩ repo p)) plain ↔
        ∀ h, repo = some h → ∀ t ∈ plain.tags, ∀ c, commitBehind? fs h t.path t.line = some c →
          c.HasTime) := by
  obtain ⟨es, hes, hvisit⟩ | ⟨g, hvisit⟩ := visit_cases fs ignore repo p
  · dsimp only
    rw [hvisit, hvisit, hes.2]
    exact ⟨hes.1, fun t ht => absurd ht List.not_mem_nil, hes.follows,
      fun _ _ _ t ht => absurd ht List.not_mem_nil, fun _ => hes.agrees⟩
  · have hend := quiet_endEvents p (scanFile fs g p).2
    have hplace : ∀ t ∈ (scanFile fs g p).1, t.path = p := fun t ht => (scanFile_place ht).1
    have hnone : ∀ t ∈ (scanFile fs g p).1, t.provenance = none := fun t ht => (scanFile_place ht).2
    dsimp only
    rw [hvisit, hvisit]
    generalize (scanFile fs g p).1 = ts at hplace hnone
    generalize endEvents p (scanFile fs g p).2 = ending at hend
    have hplain : tagEvents fs p none ts ending = ts.map .tag ++ ending := rfl
    obtain ⟨hfailure, htags⟩ := ofEvents_plain ts hend
    rw [if_neg Bool.false_ne_true, if_pos rfl, hplain, htags]
    refine ⟨hfailure, hplace, ?_⟩
    cases repo with
    | none =>
      exact ⟨follows_plain hend hnone, fun _ h hh => (by cases hh),
        fun _ => agrees_plain hend hnone⟩
    | some h =>
      obtain ⟨hfollows, hagrees⟩ := tagEvents_connect fs p h hend hnone
      refine ⟨hfollows, hagrees.trans ⟨fun hall h' hh t ht c hc => ?_, fun hall t ht c hc => ?_⟩⟩
      · obtain rfl := Option.some.inj hh
        rw [hplace t ht] at hc
        exact hall t ht c hc
      · rw [← hplace t ht] at hc
        exact hall h rfl t ht c hc

theorem repositoryFor_of_blame (fs : FileSystem) (ignore : Bool) (root : String) :
    Task.repositoryFor fs ⟨ignore, true⟩ root = Git.findRepository fs root := by
  cases ignore <;> rfl

theorem openedFor_eq_some_iff {ignore : Bool} {root : String} {h : Git.Handle} :
    openedFor fs ⟨ignore, true⟩ root = some h ↔
      (Git.findRepository fs root).1 = .ok (some h) := by
  rw [openedFor, repositoryFor_of_blame]
  cases (Git.findRepository fs root).1 with
  | error e => exact ⟨fun h => (by cases h), fun h => (by cases h)⟩
  | ok repo => exact ⟨congrArg _, Except.ok.inj⟩

theorem visit_openedFor (fs : FileSystem) (ignore : Bool) (root : String) (p : Path) :
    visit fs ⟨ignore, false⟩ (openedFor fs ⟨ignore, false⟩ root) p =
      visit fs ⟨ignore, false⟩ (openedFor fs ⟨ignore, true⟩ root) p := by
  cases ignore with
  | true => rfl
  | false =>
    have hnone : openedFor fs ⟨false, false⟩ root = none := rfl
    rw [hnone]
    cases openedFor fs ⟨false, true⟩ root with
    | none => rfl
    | some h => simp only [visit, fileEvents, passesOver, Bool.false_eq_true, if_false]

theorem run_plain (hfs : fs.root.WellFormed) (ignore : Bool) (root : String) :
    (ofEvents (run fs ⟨ignore, false⟩ [root])).failure =
        (walkRefusal? fs (.ofString root)).map .path ∧
      (ofEvents (run fs ⟨ignore, false⟩ [root])).tags =
        (walk fs (.ofString root)).flatMap fun p =>
          (ofEvents (visit fs ⟨ignore, false⟩ (openedFor fs ⟨ignore, true⟩ root) p)).tags := by
  have hvisit : visit fs ⟨ignore, false⟩ (openedFor fs ⟨ignore, false⟩ root) =
      visit fs ⟨ignore, false⟩ (openedFor fs ⟨ignore, true⟩ root) :=
    funext (visit_openedFor fs ignore root)
  obtain ⟨hnone, htags⟩ := Results.ofEvents_flatMap_of_none (walk fs (.ofString root))
    (visit fs ⟨ignore, false⟩ (openedFor fs ⟨ignore, true⟩ root)) fun p _ =>
      (visit_blame fs ignore _ p).1
  rw [ofEvents_run _ (rootSteps_eq _ hfs), hvisit,
    Results.ofEvents_append_of_none (quiet_notices _).1, (quiet_notices _).2,
    ofEvents_append_refusal hnone]
  exact ⟨rfl, htags⟩

theorem run_blame (hfs : fs.root.WellFormed) (ignore : Bool) (root : String) :
    let plain := ofEvents (run fs ⟨ignore, false⟩ [root])
    Follows (ofEvents (run fs ⟨ignore, true⟩ [root])) plain ∧
      (Agrees (ofEvents (run fs ⟨ignore, true⟩ [root])) plain ↔
        ∀ h, (Git.findRepository fs root).1 = .ok (some h) → ∀ t ∈ plain.tags, ∀ c,
          commitBehind? fs h t.path t.line = some c → c.HasTime) := by
  have hvisit : visit fs ⟨ignore, false⟩ (openedFor fs ⟨ignore, false⟩ root) =
      visit fs ⟨ignore, false⟩ (openedFor fs ⟨ignore, true⟩ root) :=
    funext (visit_openedFor fs ignore root)
  have hfollows := fun p (_ : p ∈ walk fs (.ofString root)) =>
    (visit_blame fs ignore (openedFor fs ⟨ignore, true⟩ root) p).2.2.1
  have hnone := fun p (_ : p ∈ walk fs (.ofString root)) =>
    (visit_blame fs ignore (openedFor fs ⟨ignore, true⟩ root) p).1
  obtain ⟨hend, hend'⟩ := follows_refusalEvents (walkRefusal? fs (.ofString root))
  have hwalk := Follows.flatMap hfollows
  dsimp only
  rw [(run_plain hfs ignore root).2, ofEvents_run _ (rootSteps_eq _ hfs),
    ofEvents_run _ (rootSteps_eq _ hfs), hvisit, (ofEvents_notices_append ..).1,
    (ofEvents_notices_append ..).2]
  refine ⟨hwalk.append hend, ?_⟩
  rw [Results.agrees_append_iff hwalk hend, Results.agrees_flatMap_iff_of_none hfollows hnone,
    and_iff_left fun _ => hend']
  constructor
  · intro hall h hh t ht
    obtain ⟨p, hp, ht⟩ := List.mem_flatMap.mp ht
    exact (visit_blame fs ignore _ p).2.2.2.mp (hall p hp) h (openedFor_eq_some_iff.mpr hh) t ht
  · intro hall p hp
    refine (visit_blame fs ignore _ p).2.2.2.mpr fun h hh t ht => ?_
    exact hall h (openedFor_eq_some_iff.mp hh) t (List.mem_flatMap.mpr ⟨p, hp, ht⟩)

/-- Looking for the provenance of a line fails exactly if the commit behind it has a time that
cannot be represented, or if a device fails, whatever else the repository answers. A search that
looks up all of its tags ends as it does without, and comes to all tags that are there then, exactly
if there is no such commit behind the line of any tag it comes to. -/
theorem provenance_never_fails_iff (fs : FileSystem) :
    (∀ (r : Git.Repository) p line, (∃ x, (provenanceOf fs r p line).1 = .ok x) ↔
      r.answer fs p line ≠ .error .device ∧
        ∀ c, r.answer fs p line = .ok (some c) → c.author ≠ "" →
          Time.Representable c.seconds c.offset) ∧
    (∀ h p line, (∃ r, (provenanceOf fs (Git.Handle.connect fs h) p line).1 = .ok r) ↔
      ∀ c, commitBehind? fs h p line = some c → Time.Representable c.seconds c.offset) ∧
    (fs.root.WellFormed → ∀ ignore roots,
      (ofEvents (run fs ⟨ignore, true⟩ roots)).failure =
          (ofEvents (run fs ⟨ignore, false⟩ roots)).failure ∧
        (ofEvents (run fs ⟨ignore, true⟩ roots)).tags.map Tag.withoutProvenance =
          (ofEvents (run fs ⟨ignore, false⟩ roots)).tags ↔
      ∀ before root after, roots = before ++ root :: after →
        (ofEvents (run fs ⟨ignore, false⟩ before)).failure = none →
        ∀ h, (Git.findRepository fs root).1 = .ok (some h) →
          ∀ t ∈ (ofEvents (run fs ⟨ignore, false⟩ [root])).tags, ∀ c,
            commitBehind? fs h t.path t.line = some c →
              Time.Representable c.seconds c.offset) := by
  refine ⟨fun _ _ _ => exists_provenanceOf_eq_ok_iff_settled.trans Git.settled_iff,
    fun _ _ _ => exists_provenanceOf_eq_ok_iff, fun hfs ignore roots => ?_⟩
  rw [run_flatMap ⟨ignore, true⟩ roots, run_flatMap ⟨ignore, false⟩ roots]
  have hagrees := Results.agrees_flatMap_iff fun root (_ : root ∈ roots) =>
    (run_blame hfs ignore root).1
  refine Iff.trans ⟨fun h => ⟨h.1, h.2⟩, fun h => ⟨h.1, h.2⟩⟩ (hagrees.trans ?_)
  refine forall₄_congr fun before root after _ => ?_
  rw [← run_flatMap]
  exact imp_congr_right fun _ => (run_blame hfs ignore root).2

def commitAt (seconds : Int) : Git.Commit where
  seconds := seconds
  offset := 0
  author := "Ada"
  files := [("a.c", Text.Utf8.encode "// TODO: a\n".toList),
    ("b.c", Text.Utf8.encode "// BUG: b\n".toList)]

def committedTree (seconds : Int) : FileSystem where
  root := .dir
    [(".git", .dir [("HEAD", .file []), ("objects", .emptyDir), ("refs", .emptyDir)]
        { history := some ⟨false, [commitAt seconds]⟩ }),
      ("a.c", .file (Text.Utf8.encode "// TODO: a\n".toList)),
      ("b.c", .file (Text.Utf8.encode "// BUG: b\n".toList))] {}
  here := []
  denied := []

def committedRepository : Git.Handle := ⟨[".git"], some []⟩

def committedTags : List Tag :=
  [⟨⟨.here, ["a.c"]⟩, 1, .todo, "a", none⟩, ⟨⟨.here, ["b.c"]⟩, 1, .bug, "b", none⟩]

theorem scanFile_committedTags (ha : fs.HasText ⟨.here, ["a.c"]⟩ "// TODO: a\n".toList)
    (hb : fs.HasText ⟨.here, ["b.c"]⟩ "// BUG: b\n".toList) :
    ∀ t ∈ committedTags, scanFile fs .cLike t.path = ([t], none) := by
  refine List.forall_mem_cons.mpr ⟨?_, List.forall_mem_singleton.mpr ?_⟩
  · rw [scanFile_of_hasText ha, Scanner.collect_ofList]
    cbv
  · rw [scanFile_of_hasText hb, Scanner.collect_ofList]
    cbv

section

variable (seconds : Int)

theorem committedTree_wellFormed : (committedTree seconds).root.WellFormed := by
  have h : (committedTree 0).root.check = true := by decide
  exact (Node.check_iff _).mp h

theorem findRepository_committedTree :
    Git.findRepository (committedTree seconds) "." = (.ok (some committedRepository), []) := by
  cbv

theorem walkSteps_committedTree :
    walkSteps (committedTree seconds) (.ofString ".") =
      (committedTags.map Tag.path).map .ok := by
  cbv

theorem scanFile_committedTree : ∀ t ∈ committedTags,
    scanFile (committedTree seconds) .cLike t.path = ([t], none) :=
  scanFile_committedTags ⟨List.not_mem_nil, by cbv⟩ ⟨List.not_mem_nil, by cbv⟩

theorem commitBehind?_committedTree : ∀ t ∈ committedTags,
    commitBehind? (committedTree seconds) committedRepository t.path t.line =
      some (commitAt seconds) := by
  refine List.forall_mem_cons.mpr ⟨?_, List.forall_mem_singleton.mpr ?_⟩ <;> cbv

theorem passesOver_committedTree (blame : Bool) : ∀ t ∈ committedTags,
    passesOver (committedTree seconds) ⟨true, blame⟩
      (some (committedRepository.connect (committedTree seconds))) t.path = .ok false := by
  refine List.forall_mem_cons.mpr ⟨?_, List.forall_mem_singleton.mpr ?_⟩ <;> cbv

theorem grammar_committedTree : ∀ t ∈ committedTags, Grammar.ofPath? t.path = some .cLike := by
  refine List.forall_mem_cons.mpr ⟨?_, List.forall_mem_singleton.mpr ?_⟩ <;> cbv

theorem run_committedTree (blame : Bool) :
    run (committedTree seconds) ⟨true, blame⟩ ["."] = committedTags.flatMap fun t =>
      tagEvents (committedTree seconds) t.path
        (if blame then some (committedRepository.connect (committedTree seconds)) else none)
        [t] [] := by
  have hrepo : Task.repositoryFor (committedTree seconds) ⟨true, blame⟩ "." =
      (.ok (some committedRepository), []) := findRepository_committedTree seconds
  rw [run_singleton, rootSteps, openedFor, hrepo]
  dsimp only
  rw [walkSteps_committedTree, List.flatMap_map, List.flatMap_map]
  refine List.flatMap_congr fun t ht => ?_
  unfold stepEvents visit fileEvents
  dsimp only
  rw [Option.map_some, passesOver_committedTree seconds blame t ht, grammar_committedTree t ht]
  dsimp only
  rw [sourceEvents, scanFile_committedTree seconds t ht]
  rfl

end

theorem committedTree_provenance_found :
    (committedTree 1700000000).root.WellFormed ∧
    (∃ r, (provenanceOf (committedTree 1700000000)
      (committedRepository.connect (committedTree 1700000000)) ⟨.here, ["a.c"]⟩ 1).1 = .ok r) ∧
    (ofEvents (run (committedTree 1700000000) ⟨true, true⟩ ["."])).failure = none ∧
    (ofEvents (run (committedTree 1700000000) ⟨true, true⟩ ["."])).tags.map
      Tag.withoutProvenance = committedTags := by
  have htime : Time.Representable (commitAt 1700000000).seconds (commitAt 1700000000).offset := by
    decide
  have hplain : (ofEvents (run (committedTree 1700000000) ⟨true, false⟩ ["."])).tags =
      committedTags := by
    rw [run_committedTree]
    rfl
  have hbehind := commitBehind?_committedTree 1700000000
  have hfailure : (ofEvents (run (committedTree 1700000000) ⟨true, false⟩ ["."])).failure =
      none := by
    rw [run_committedTree]
    rfl
  obtain ⟨-, hlook, hrun⟩ := provenance_never_fails_iff (committedTree 1700000000)
  refine ⟨committedTree_wellFormed _, ?_, ?_⟩
  · refine (hlook committedRepository ⟨.here, ["a.c"]⟩ 1).mpr fun c hc => ?_
    rw [hbehind _ List.mem_cons_self] at hc
    exact Option.some.inj hc ▸ htime
  · rw [← hplain, ← hfailure]
    refine (hrun (committedTree_wellFormed _) true ["."]).mpr
      fun before root after hroots _ h hh t ht c hc => ?_
    obtain ⟨-, hroot⟩ | ⟨-, hnil⟩ := List.append_eq_singleton_iff.mp hroots.symm
    swap
    · cases hnil
    obtain ⟨rfl, -⟩ := List.cons.inj hroot
    rw [findRepository_committedTree] at hh
    rw [hplain] at ht
    rw [← Option.some.inj (Except.ok.inj hh), hbehind t ht] at hc
    exact Option.some.inj hc ▸ htime

theorem committedTree_search_ends_early :
    (provenanceOf (committedTree 253402300800)
      (committedRepository.connect (committedTree 253402300800)) ⟨.here, ["a.c"]⟩ 1).1 =
        .error (.time (.yearOutOfRange 10000)) ∧
    ofEvents (run (committedTree 253402300800) ⟨true, false⟩ ["."]) =
      ⟨committedTags, [], none⟩ ∧
    ofEvents (run (committedTree 253402300800) ⟨true, true⟩ ["."]) =
      ⟨[], [], some (.time (.yearOutOfRange 10000))⟩ := by
  refine ⟨by cbv, ?_, ?_⟩
  · rw [run_committedTree]
    rfl
  · rw [run_committedTree]
    cbv

end CommentTags.Search

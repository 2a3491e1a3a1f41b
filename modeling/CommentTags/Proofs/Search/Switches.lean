import CommentTags.Proofs.Search.Enriched

namespace CommentTags

namespace Notice

def isSkippedIgnored : Notice → Bool
  | skippedIgnored _ => true
  | _ => false

def isUnreadable : Notice → Bool
  | unreadable .. => true
  | _ => false

end Notice

namespace Search

open Results (ofEvents)

variable {fs : FileSystem} {repo : Option Git.Handle} {p : Path} {t : Tag} {es : List Event}

def isLeftOut (fs : FileSystem) (repo : Option Git.Handle) (p : Path) : Bool :=
  match repo with
  | none => false
  | some h => ((h.connect fs).leavesOut fs p).toOption.getD false

def fileFinds (fs : FileSystem) (blame : Bool) (repo : Option Git.Handle) (p : Path) : List Tag :=
  (ofEvents (visit fs ⟨false, blame⟩ repo p)).tags

theorem passesOver_eq (ignore blame : Bool) :
    passesOver fs ⟨ignore, blame⟩ (repo.map (·.connect fs)) p =
      .ok (ignore && isLeftOut fs repo p) := by
  match ignore, repo with
  | false, _ => rfl
  | true, none => rfl
  | true, some h =>
    obtain ⟨ignored, hignored⟩ := leavesOut_connect fs h p
    have hpasses : passesOver fs ⟨true, blame⟩ (some (h.connect fs)) p = .ok ignored := hignored
    rw [Option.map_some, hpasses, isLeftOut, hignored]
    rfl

theorem visit_eq (ignore blame : Bool) :
    visit fs ⟨ignore, blame⟩ repo p =
      if ignore && isLeftOut fs repo p then [.notice (.skippedIgnored p.toString)]
      else visit fs ⟨false, blame⟩ repo p := by
  unfold visit fileEvents
  rw [passesOver_eq, passesOver_eq]
  cases ignore && isLeftOut fs repo p with
  | true => rw [if_pos rfl]
  | false => rw [if_neg Bool.false_ne_true, Bool.false_and]

theorem ofEvents_visit_plain (repo : Option Git.Handle) :
    ofEvents (visit fs ⟨false, false⟩ repo p) = ⟨scanTags fs p, readFailures fs p, none⟩ :=
  ofEvents_fileEvents_plain (passesOver_eq false false)

theorem fileFinds_plain (repo : Option Git.Handle) :
    fileFinds fs false repo p = scanTags fs p := by
  rw [fileFinds, ofEvents_visit_plain]

theorem map_withoutProvenance_scanTags :
    (scanTags fs p).map Tag.withoutProvenance = scanTags fs p :=
  (List.map_congr_left fun _ ht =>
    Tag.withoutProvenance_of_none (place_of_mem_scanTags ht).2).trans (List.map_id _)

theorem filter_readFailures (fs : FileSystem) (p : Path) :
    (readFailures fs p).filter Notice.isUnreadable = readFailures fs p ∧
      (readFailures fs p).filter Notice.isSkippedIgnored = [] := by
  constructor
  · refine List.filter_eq_self.mpr fun n hn => ?_
    obtain ⟨path, reason, rfl⟩ := unreadable_of_mem_readFailures n hn
    rfl
  · refine Results.filter_eq_nil_of_false fun n hn => ?_
    obtain ⟨path, reason, rfl⟩ := unreadable_of_mem_readFailures n hn
    rfl

theorem filter_blameNotices {r : Git.Repository} {ts : List Tag} {sort : Notice → Bool}
    (hsort : ∀ path reason, sort (.blameFailed path reason) = false) :
    (blameNotices fs r p ts).filter sort = [] := by
  refine Results.filter_eq_nil_of_false fun n hn => ?_
  obtain ⟨path, reason, rfl⟩ := blameFailed_of_mem_blameNotices n hn
  exact hsort path reason

def TagsHaveTime (fs : FileSystem) (repo : Option Git.Handle) (ts : List Tag) : Prop :=
  ∀ h, repo = some h → ∀ t ∈ ts, ∀ c, commitBehind? fs h t.path t.line = some c → c.HasTime

/-- Events that come to these tags, whatever is known of their provenance, and to these failures to
read, and that skip nothing. -/
structure Finds (es : List Event) (ts : List Tag) (failures : List Notice) : Prop where
  failure : (ofEvents es).failure = none
  tags : (ofEvents es).tags.map Tag.withoutProvenance = ts
  unreadable : (ofEvents es).notices.filter Notice.isUnreadable = failures
  skipped : (ofEvents es).notices.filter Notice.isSkippedIgnored = []

theorem Finds.enrich {r : Git.Repository} {ts us : List Tag} {failures : List Notice}
    (h : Finds es ts failures)
    (hok : ∀ t ∈ (ofEvents es).tags, ∃ x, (provenanceOf fs r t.path t.line).1 = .ok x) :
    Finds ((blameNotices fs r p us).map .notice ++ enrichEvents fs r es) ts failures := by
  obtain ⟨hfailure, hnotices, htags⟩ := ofEvents_enrichEvents_of_ok hok
  have hsplit : ofEvents ((blameNotices fs r p us).map .notice ++ enrichEvents fs r es) = _ :=
    Results.ofEvents_append_of_none (by rw [Results.ofEvents_notices])
  rw [Results.ofEvents_notices] at hsplit
  constructor
  · rw [hsplit, hfailure]
    exact h.failure
  · rw [hsplit, List.nil_append, htags]
    exact h.tags
  · rw [hsplit, hnotices, List.filter_append, filter_blameNotices fun _ _ => rfl]
    exact h.unreadable
  · rw [hsplit, hnotices, List.filter_append, filter_blameNotices fun _ _ => rfl]
    exact h.skipped

theorem finds_visit_plain (repo : Option Git.Handle) :
    Finds (visit fs ⟨false, false⟩ repo p) (scanTags fs p) (readFailures fs p) := by
  obtain ⟨hread, hskipped⟩ := filter_readFailures fs p
  constructor
  · rw [ofEvents_visit_plain]
  · rw [ofEvents_visit_plain, map_withoutProvenance_scanTags]
  · rw [ofEvents_visit_plain, hread]
  · rw [ofEvents_visit_plain, hskipped]

theorem visit_without_repository (ignore blame : Bool) :
    visit fs ⟨ignore, blame⟩ none p = visit fs ⟨false, false⟩ none p := by
  rw [visit_eq, isLeftOut, Bool.and_false, if_neg Bool.false_ne_true]
  unfold visit fileEvents
  rw [passesOver_eq, passesOver_eq, Option.map_none, ite_self, ite_self]

theorem finds_visit (blame : Bool) (htime : TagsHaveTime fs repo (scanTags fs p)) :
    Finds (visit fs ⟨false, blame⟩ repo p) (scanTags fs p) (readFailures fs p) := by
  cases blame with
  | false => exact finds_visit_plain repo
  | true =>
    cases repo with
    | none =>
      rw [visit_without_repository]
      exact finds_visit_plain none
    | some h =>
      have hvisit : visit fs ⟨false, true⟩ (some h) p = _ :=
        fileEvents_blame fs false (h.connect fs) p
      have htags : (ofEvents (visit fs ⟨false, false⟩ (some h) p)).tags = scanTags fs p :=
        fileFinds_plain (some h)
      rw [hvisit]
      refine (finds_visit_plain (some h)).enrich fun t ht => ?_
      rw [htags] at ht
      exact exists_provenanceOf_eq_ok_iff.mpr (htime h rfl t ht)

theorem path_of_mem_fileFinds {blame : Bool} (htime : TagsHaveTime fs repo (scanTags fs p))
    (h : t ∈ fileFinds fs blame repo p) : t.path = p := by
  have hbare : t.withoutProvenance ∈ scanTags fs p :=
    (finds_visit blame htime).tags ▸ List.mem_map_of_mem h
  exact (place_of_mem_scanTags hbare).1

section

variable {α β : Type} (c : α → Bool)

theorem flatMap_unless (f : α → List β) (xs : List α) :
    (xs.flatMap fun x => if c x then [] else f x) = (xs.filter (!c ·)).flatMap f := by
  induction xs with
  | nil => rfl
  | cons x xs ih =>
    rw [List.flatMap_cons, ih, List.filter_cons]
    cases c x <;> rfl

theorem flatMap_when (f : α → β) (xs : List α) :
    (xs.flatMap fun x => if c x then [f x] else []) = (xs.filter c).map f := by
  induction xs with
  | nil => rfl
  | cons x xs ih =>
    rw [List.flatMap_cons, ih, List.filter_cons]
    cases c x <;> rfl

end

section

variable {ps : List Path} {ignore blame : Bool}
  (htime : ∀ p ∈ ps, TagsHaveTime fs repo (scanTags fs p))

include htime

theorem failure_visits : ∀ p ∈ ps, (ofEvents (visit fs ⟨ignore, blame⟩ repo p)).failure = none := by
  intro p hp
  rw [visit_eq]
  split
  · rfl
  · exact (finds_visit blame (htime p hp)).failure

theorem tags_visits :
    (ofEvents (ps.flatMap (visit fs ⟨ignore, blame⟩ repo))).tags =
      (ps.filter fun p => !(ignore && isLeftOut fs repo p)).flatMap (fileFinds fs blame repo) := by
  rw [(Results.ofEvents_flatMap_of_none _ _ (failure_visits htime)).2, ← flatMap_unless]
  refine List.flatMap_congr fun p hp => ?_
  rw [visit_eq]
  split <;> rfl

theorem unreadable_visits :
    (ofEvents (ps.flatMap (visit fs ⟨ignore, blame⟩ repo))).notices.filter Notice.isUnreadable =
      (ps.filter fun p => !(ignore && isLeftOut fs repo p)).flatMap (readFailures fs) := by
  rw [Results.notices_flatMap_of_none _ _ (failure_visits htime), List.filter_flatMap,
    ← flatMap_unless]
  refine List.flatMap_congr fun p hp => ?_
  rw [visit_eq]
  split
  · rfl
  · exact (finds_visit blame (htime p hp)).unreadable

theorem skipped_visits :
    (ofEvents (ps.flatMap (visit fs ⟨ignore, blame⟩ repo))).notices.filter
        Notice.isSkippedIgnored =
      (ps.filter fun p => ignore && isLeftOut fs repo p).map fun p =>
        .skippedIgnored p.toString := by
  rw [Results.notices_flatMap_of_none _ _ (failure_visits htime), List.filter_flatMap,
    ← flatMap_when]
  refine List.flatMap_congr fun p hp => ?_
  rw [visit_eq]
  split
  · rfl
  · exact (finds_visit blame (htime p hp)).skipped

end

/-- What the switches do, `results ignore blame` being what a search of these files comes to that
ends over this path. -/
structure Switched (fs : FileSystem) (repo : Option Git.Handle) (ps : List Path)
    (refusal : Option PathError) (results : Bool → Bool → Results) : Prop where
  failure : ∀ ignore blame, (results ignore blame).failure = refusal.map .path
  annotated : ∀ ignore,
    (results ignore true).tags.map Tag.withoutProvenance = (results ignore false).tags
  plain : ∀ ignore, ∀ t ∈ (results ignore false).tags, t.provenance = none
  /-- To leave out what is ignored only drops the tags of those files, and says so of each. -/
  dropped : ∀ blame, (results true blame).tags =
    (results false blame).tags.filter fun t => !isLeftOut fs repo t.path
  skipped : ∀ ignore blame, (results ignore blame).notices.filter Notice.isSkippedIgnored =
    (ps.filter fun p => ignore && isLeftOut fs repo p).map fun p => .skippedIgnored p.toString
  alone : repo = none → ∀ ignore blame, (results ignore blame).tags = (results false false).tags
  /-- Whatever the switches, the same is said about the reading of the files that are left. -/
  unreadable : ∀ ignore blame, (results ignore blame).notices.filter Notice.isUnreadable =
    (ps.filter fun p => !(ignore && isLeftOut fs repo p)).flatMap (readFailures fs)

theorem visit_default (ignore blame : Bool) (root : String) :
    visit fs ⟨ignore, blame⟩ (openedFor fs ⟨ignore, blame⟩ root) =
      visit fs ⟨ignore, blame⟩ (openedFor fs .default root) := by
  cases blame with
  | false => cases ignore <;> exact funext (visit_openedFor fs _ root)
  | true => cases ignore <;> rfl

theorem repositoryFor_notices (o : Options) (root : String) :
    ∀ n ∈ (Task.repositoryFor fs o root).2, ∃ path, n = .noRepository path := by
  unfold Task.repositoryFor Git.findRepository
  split
  · split
    · exact List.forall_mem_nil _
    · exact List.forall_mem_nil _
    · split
      · exact List.forall_mem_nil _
      · exact List.forall_mem_singleton.mpr ⟨_, rfl⟩
  · exact List.forall_mem_nil _

theorem run_eq_visits (hfs : fs.root.WellFormed) (ignore blame : Bool) (root : String)
    (hnone : ∀ p ∈ walk fs (.ofString root),
      (ofEvents (visit fs ⟨ignore, blame⟩ (openedFor fs .default root) p)).failure = none) :
    let visits := ofEvents ((walk fs (.ofString root)).flatMap
      (visit fs ⟨ignore, blame⟩ (openedFor fs .default root)))
    let results := ofEvents (run fs ⟨ignore, blame⟩ [root])
    results.tags = visits.tags ∧
      results.failure = (walkRefusal? fs (.ofString root)).map .path ∧
      ∀ sort : Notice → Bool, (∀ path, sort (.noRepository path) = false) →
        results.notices.filter sort = visits.notices.filter sort := by
  have hvisits := (Results.ofEvents_flatMap_of_none _ _ hnone).1
  have hsplit : ofEvents (run fs ⟨ignore, blame⟩ [root]) = _ := ofEvents_run _ (rootSteps_eq _ hfs)
  rw [visit_default, Results.ofEvents_append_of_none (by rw [Results.ofEvents_notices]),
    Results.ofEvents_notices, ofEvents_append_refusal hvisits] at hsplit
  dsimp only
  rw [hsplit]
  refine ⟨rfl, rfl, fun sort hsort => ?_⟩
  have hnone : (Task.repositoryFor fs ⟨ignore, blame⟩ root).2.filter sort = [] := by
    refine Results.filter_eq_nil_of_false fun n hn => ?_
    obtain ⟨path, rfl⟩ := repositoryFor_notices _ root n hn
    exact hsort path
  rw [List.filter_append, hnone, List.nil_append]

theorem tags_run_plain (hfs : fs.root.WellFormed) (root : String) :
    (ofEvents (run fs ⟨false, false⟩ [root])).tags =
      (walk fs (.ofString root)).flatMap (scanTags fs) := by
  rw [(run_plain hfs false root).2]
  exact List.flatMap_congr fun p _ => fileFinds_plain _

theorem filter_fileFinds {blame : Bool} (htime : TagsHaveTime fs repo (scanTags fs p)) :
    (fileFinds fs blame repo p).filter (fun t => !isLeftOut fs repo t.path) =
      if isLeftOut fs repo p then [] else fileFinds fs blame repo p := by
  have hpath : ∀ t ∈ fileFinds fs blame repo p, t.path = p := fun t => path_of_mem_fileFinds htime
  split
  · rename_i hleft
    refine List.filter_eq_nil_iff.mpr fun t ht => ?_
    rw [hpath t ht, hleft]
    exact Bool.false_ne_true
  · rename_i hleft
    refine List.filter_eq_self.mpr fun t ht => ?_
    rw [hpath t ht, Bool.eq_false_iff.mpr hleft]
    rfl

/-- As long as every commit behind a tag has a time, the switches of a search do no more than they
should. -/
theorem run_switched (fs : FileSystem) (root : String) (hfs : fs.root.WellFormed)
    (htime : ∀ h, (Git.findRepository fs root).1 = .ok (some h) →
      ∀ t ∈ (ofEvents (run fs ⟨false, false⟩ [root])).tags, ∀ c,
        commitBehind? fs h t.path t.line = some c → Time.Representable c.seconds c.offset) :
    Switched fs (openedFor fs .default root) (walk fs (.ofString root))
      (walkRefusal? fs (.ofString root)) fun ignore blame =>
        ofEvents (run fs ⟨ignore, blame⟩ [root]) := by
  have hvisits := fun ignore blame => run_eq_visits hfs ignore blame root
  have hopened : ∀ h, openedFor fs .default root = some h →
      (Git.findRepository fs root).1 = .ok (some h) := fun _ => openedFor_eq_some_iff.mp
  rw [tags_run_plain hfs] at htime
  generalize openedFor fs .default root = repo at hvisits hopened ⊢
  generalize walk fs (.ofString root) = ps at hvisits htime ⊢
  have htimes : ∀ p ∈ ps, TagsHaveTime fs repo (scanTags fs p) := fun p hp h hh t ht =>
    htime h (hopened h hh) t (List.mem_flatMap.mpr ⟨p, hp, ht⟩)
  have hvisits := fun ignore blame => hvisits ignore blame (failure_visits htimes)
  have htags : ∀ ignore blame, (ofEvents (run fs ⟨ignore, blame⟩ [root])).tags =
      (ps.filter fun p => !(ignore && isLeftOut fs repo p)).flatMap (fileFinds fs blame repo) :=
    fun ignore blame => (hvisits ignore blame).1.trans (tags_visits htimes)
  constructor
  case failure => exact fun ignore blame => (hvisits ignore blame).2.1
  case annotated =>
    intro ignore
    rw [htags, htags, List.map_flatMap]
    refine List.flatMap_congr fun p hp => ?_
    rw [fileFinds_plain]
    exact (finds_visit true (htimes p (List.mem_filter.mp hp).1)).tags
  case plain =>
    intro ignore t ht
    rw [htags] at ht
    obtain ⟨p, -, ht⟩ := List.mem_flatMap.mp ht
    rw [fileFinds_plain] at ht
    exact (place_of_mem_scanTags ht).2
  case dropped =>
    intro blame
    have hall : (ps.filter fun p => !(false && isLeftOut fs repo p)) = ps :=
      List.filter_eq_self.mpr fun _ _ => rfl
    rw [htags, htags, hall, List.filter_flatMap, ← flatMap_unless]
    exact List.flatMap_congr fun p hp => (filter_fileFinds (htimes p hp)).symm
  case skipped =>
    intro ignore blame
    rw [(hvisits ignore blame).2.2 _ fun _ => rfl]
    exact skipped_visits htimes
  case alone =>
    rintro rfl ignore blame
    have hfinds : fileFinds fs blame none = fileFinds fs false none :=
      funext fun p => by rw [fileFinds, visit_without_repository, fileFinds]
    rw [htags, htags, hfinds]
    simp only [isLeftOut, Bool.and_false]
  case unreadable =>
    intro ignore blame
    rw [(hvisits ignore blame).2.2 _ fun _ => rfl]
    exact unreadable_visits htimes

def ignoringTree : FileSystem where
  root := .dir
    [(".git", .dir [("HEAD", .file []), ("objects", .emptyDir), ("refs", .emptyDir)]
        { history := some ⟨false, [commitAt 1700000000]⟩ }),
      (".gitignore", .file (Text.Utf8.encode "b.c\n".toList)),
      ("a.c", .file (Text.Utf8.encode "// TODO: a\n".toList)),
      ("b.c", .file (Text.Utf8.encode "// BUG: b\n".toList))] {}
  here := []
  denied := []

def ignoringFiles : List Path :=
  [⟨.here, [".gitignore"]⟩, ⟨.here, ["a.c"]⟩, ⟨.here, ["b.c"]⟩]

theorem openedFor_ignoringTree :
    openedFor ignoringTree .default "." = some committedRepository := by
  have h : Task.repositoryFor ignoringTree .default "." = (.ok (some committedRepository), []) := by
    cbv
  rw [openedFor, h]

theorem walkSteps_ignoringTree :
    walkSteps ignoringTree (.ofString ".") = ignoringFiles.map .ok := by
  cbv

theorem walk_ignoringTree : walk ignoringTree (.ofString ".") = ignoringFiles := by
  rw [walk, walkSteps_ignoringTree, untilError_map_ok]

theorem walkRefusal?_ignoringTree : walkRefusal? ignoringTree (.ofString ".") = none := by
  rw [walkRefusal?, walkSteps_ignoringTree, untilError_map_ok]

theorem commitBehind?_ignoringTree : ∀ t ∈ committedTags,
    commitBehind? ignoringTree committedRepository t.path t.line =
      some (commitAt 1700000000) := by
  refine List.forall_mem_cons.mpr ⟨?_, List.forall_mem_singleton.mpr ?_⟩ <;> cbv

theorem scanFile_ignoringTree : ∀ t ∈ committedTags,
    scanFile ignoringTree .cLike t.path = ([t], none) :=
  scanFile_committedTags ⟨List.not_mem_nil, by cbv⟩ ⟨List.not_mem_nil, by cbv⟩

theorem run_ignoringTree : (ofEvents (run ignoringTree ⟨false, false⟩ ["."])).tags =
    committedTags := by
  have hwf : ignoringTree.root.WellFormed := by decide
  have hother : scanTags ignoringTree ⟨.here, [".gitignore"]⟩ = [] := by
    cbv
  have hsource : ∀ t ∈ committedTags, scanTags ignoringTree t.path = [t] := by
    intro t ht
    rw [scanTags, grammar_committedTree t ht]
    dsimp only
    rw [scanFile_ignoringTree t ht]
  obtain ⟨ha, hb⟩ := List.forall_mem_cons.mp hsource
  have hb := List.forall_mem_singleton.mp hb
  rw [tags_run_plain hwf, walk_ignoringTree, ignoringFiles, List.flatMap_cons, List.flatMap_cons,
    List.flatMap_singleton, hother, ha, hb]
  rfl

theorem ignoringTree_switched :
    ignoringTree.root.WellFormed ∧
    (∀ h, (Git.findRepository ignoringTree ".").1 = .ok (some h) →
      ∀ t ∈ (ofEvents (run ignoringTree ⟨false, false⟩ ["."])).tags, ∀ c,
        commitBehind? ignoringTree h t.path t.line = some c →
          Time.Representable c.seconds c.offset) ∧
    Switched ignoringTree (some committedRepository) ignoringFiles none
      (fun ignore blame => ofEvents (run ignoringTree ⟨ignore, blame⟩ ["."])) ∧
    (ofEvents (run ignoringTree ⟨true, false⟩ ["."])).tags =
      [⟨⟨.here, ["a.c"]⟩, 1, .todo, "a", none⟩] ∧
    (ofEvents (run ignoringTree ⟨true, true⟩ ["."])).notices.filter Notice.isSkippedIgnored =
      [.skippedIgnored "b.c"] := by
  have hwf : ignoringTree.root.WellFormed := by decide
  have htime : ∀ h, (Git.findRepository ignoringTree ".").1 = .ok (some h) →
      ∀ t ∈ (ofEvents (run ignoringTree ⟨false, false⟩ ["."])).tags, ∀ c,
        commitBehind? ignoringTree h t.path t.line = some c →
          Time.Representable c.seconds c.offset := by
    intro h hh t ht c hc
    have hopened : openedFor ignoringTree .default "." = some h := openedFor_eq_some_iff.mpr hh
    rw [openedFor_ignoringTree] at hopened
    rw [run_ignoringTree] at ht
    rw [← Option.some.inj hopened, commitBehind?_ignoringTree t ht] at hc
    rw [← Option.some.inj hc]
    decide
  have hswitched := run_switched ignoringTree "." hwf htime
  rw [openedFor_ignoringTree, walk_ignoringTree, walkRefusal?_ignoringTree] at hswitched
  refine ⟨hwf, htime, hswitched, ?_, ?_⟩
  · rw [hswitched.dropped false, run_ignoringTree]
    cbv
  · rw [hswitched.skipped true true]
    cbv

end Search

end CommentTags

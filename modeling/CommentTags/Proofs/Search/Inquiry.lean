import CommentTags.Proofs.Files.WholeWalk
import CommentTags.Proofs.Search.Enriched

namespace CommentTags.Search

open Git (StoreFault Blame)
open Results (ofEvents)

/-- An answer to the question for a file's blame, with the notices that come with it. -/
abbrev Answers := Path → Except StoreFault (Option Blame) × List Notice

inductive Inquiry where
  | ended
  | gives (e : Event) (rest : Inquiry)
  | asks (p : Path) (next : Except StoreFault (Option Blame) → Inquiry)

namespace Inquiry

def events (answers : Answers) : Inquiry → List Event
  | ended => []
  | gives e rest => e :: rest.events answers
  | asks p next => (answers p).2.map .notice ++ (next (answers p).1).events answers

def asked (answers : Answers) : Inquiry → List Path
  | ended => []
  | gives _ rest => rest.asked answers
  | asks p next => p :: (next (answers p).1).asked answers

/-- One after the other. Nothing is done after a failure. -/
def andThen : Inquiry → Inquiry → Inquiry
  | ended, i => i
  | gives (.failed e) _, _ => gives (.failed e) ended
  | gives e rest, i => gives e (rest.andThen i)
  | asks p next, i => asks p fun answer => (next answer).andThen i

def giveAll : List Event → Inquiry
  | [] => ended
  | e :: es => gives e (giveAll es)

/-- Give a tag with what a blame that is at hand says of its line. -/
def giveBlamed (p : Path) (b : Option Blame) (t : Tag) (rest : Inquiry) : Inquiry :=
  match b with
  | none => gives (.tag t) rest
  | some b =>
    match lineProvenance b t.line with
    | .error e => gives (failureEvent p e) ended
    | .ok provenance => gives (.tag { t with provenance }) rest

/-- Give the tags of a file. What the first question for its blame has come to is kept, also if
that was no blame. -/
def giveTags (p : Path) (ending : List Event) : Option (Option Blame) → List Tag → Inquiry
  | _, [] => giveAll ending
  | some kept, t :: ts => giveBlamed p kept t (giveTags p ending (some kept) ts)
  | none, t :: ts =>
    asks p fun
      | .error f => gives (failureEvent p (.store f)) ended
      | .ok b => giveBlamed p b t (giveTags p ending (some b) ts)

/-- Search a file of which it is known whether it is passed over. -/
def ofFile (fs : FileSystem) (passedOver : Except StoreFault Bool) (p : Path) : Inquiry :=
  match passedOver with
  | .error f => giveAll [.failed (.store f)]
  | .ok true => giveAll [.notice (.skippedIgnored p.toString)]
  | .ok false =>
    match Grammar.ofPath? p with
    | none => ended
    | some g => giveTags p (endEvents p (scanFile fs g p).2) none (scanFile fs g p).1

def ofFiles (fs : FileSystem) (passedOver : Path → Except StoreFault Bool) : List Path → Inquiry
  | [] => ended
  | p :: ps => (ofFile fs (passedOver p) p).andThen (ofFiles fs passedOver ps)

variable {fs : FileSystem} {r : Git.Repository} {answers : Answers} {i j : Inquiry} {p : Path}
  {ts : List Tag} {ending : List Event}

theorem ofEvents_events_andThen :
    ofEvents ((i.andThen j).events answers) =
      ofEvents (i.events answers ++ j.events answers) := by
  induction i with
  | ended => rfl
  | gives e rest ih =>
    cases e with
    | tag t => exact congrArg (fun r : Results => { r with tags := t :: r.tags }) ih
    | notice n => exact congrArg (fun r : Results => { r with notices := n :: r.notices }) ih
    | failed e => rfl
  | asks p next ih =>
    rw [andThen, events, events, List.append_assoc]
    exact Results.ofEvents_append_congr (ih (answers p).1) _

theorem asked_andThen_sublist :
    ((i.andThen j).asked answers).Sublist (i.asked answers ++ j.asked answers) := by
  induction i with
  | ended => exact List.Sublist.refl _
  | gives e rest ih =>
    cases e with
    | tag t => exact ih
    | notice n => exact ih
    | failed e => exact List.nil_sublist _
  | asks p next ih => exact (ih (answers p).1).cons_cons p

theorem events_giveAll (es : List Event) : (giveAll es).events answers = es := by
  induction es with
  | nil => rfl
  | cons e es ih => rw [giveAll, events, ih]

theorem asked_giveAll (es : List Event) : (giveAll es).asked answers = [] := by
  induction es with
  | nil => rfl
  | cons e es ih => rw [giveAll, asked, ih]

theorem asked_giveTags_some (kept : Option Blame) (ts : List Tag) :
    (giveTags p ending (some kept) ts).asked answers = [] := by
  induction ts with
  | nil => exact asked_giveAll ending
  | cons t ts ih =>
    cases kept with
    | none => exact ih
    | some b =>
      rw [giveTags, giveBlamed]
      cases lineProvenance b t.line with
      | error e => rfl
      | ok provenance => exact ih

theorem events_giveTags_kept_none (ts : List Tag) :
    (giveTags p ending (some none) ts).events answers = ts.map .tag ++ ending := by
  induction ts with
  | nil => exact events_giveAll ending
  | cons t ts ih => rw [giveTags, giveBlamed, events, ih]; rfl

theorem events_giveTags_kept (b : Blame) (ts : List Tag) :
    (giveTags p ending (some (some b)) ts).events answers = blamedEvents p b ending ts := by
  induction ts with
  | nil => exact events_giveAll ending
  | cons t ts ih =>
    rw [giveTags, giveBlamed, blamedEvents]
    cases lineProvenance b t.line with
    | error e => rfl
    | ok provenance => exact congrArg _ ih

theorem giveBlamed_giveTags (b : Option Blame) (t : Tag) (ts : List Tag) :
    giveBlamed p b t (giveTags p ending (some b) ts) = giveTags p ending (some b) (t :: ts) := rfl

theorem asked_giveTags (answers : Answers) (ts : List Tag) :
    (giveTags p ending none ts).asked answers = if ts = [] then [] else [p] := by
  cases ts with
  | nil => exact asked_giveAll ending
  | cons t ts =>
    rw [giveTags, asked, if_neg (List.cons_ne_nil t ts)]
    cases (answers p).1 with
    | error f => rfl
    | ok b =>
      dsimp only
      rw [giveBlamed_giveTags, asked_giveTags_some]

theorem events_giveTags (ts : List Tag) :
    (giveTags p ending none ts).events (r.fileBlame fs) = tagEvents fs p (some r) ts ending := by
  cases ts with
  | nil => exact events_giveAll ending
  | cons t ts =>
    rw [giveTags, events, tagEvents_cons]
    match r.fileBlame fs p with
    | (.error f, notices) => rfl
    | (.ok none, notices) =>
      dsimp only
      rw [giveBlamed_giveTags, events_giveTags_kept_none]
      exact (List.append_assoc _ _ _).symm
    | (.ok (some b), notices) =>
      dsimp only
      rw [giveBlamed_giveTags, events_giveTags_kept]

theorem events_ofFile (fs : FileSystem) (ignore : Bool) (r : Git.Repository) (p : Path) :
    (ofFile fs (passesOver fs ⟨ignore, true⟩ (some r) p) p).events (r.fileBlame fs) =
      fileEvents fs ⟨ignore, true⟩ (some r) p := by
  unfold ofFile fileEvents
  match passesOver fs ⟨ignore, true⟩ (some r) p with
  | .error f => rfl
  | .ok true => rfl
  | .ok false =>
    cases Grammar.ofPath? p with
    | none => rfl
    | some g => exact events_giveTags _

theorem asked_ofFile (ignore : Bool) :
    (ofFile fs (passesOver fs ⟨ignore, true⟩ (some r) p) p).asked answers =
      if plainTags fs ignore r p = [] then [] else [p] := by
  have hpasses : passesOver fs ⟨ignore, true⟩ (some r) p =
      passesOver fs ⟨ignore, false⟩ (some r) p := rfl
  rw [plainTags_eq, hpasses]
  unfold ofFile scanTags
  match passesOver fs ⟨ignore, false⟩ (some r) p with
  | .error f => rfl
  | .ok true => rfl
  | .ok false =>
    cases Grammar.ofPath? p with
    | none => rfl
    | some g => exact asked_giveTags answers _

/-- With the blames of the repository for answers, an inquiry comes to what the search comes to. -/
theorem ofEvents_events_ofFiles (fs : FileSystem) (ignore : Bool) (r : Git.Repository)
    (ps : List Path) :
    ofEvents ((ofFiles fs (passesOver fs ⟨ignore, true⟩ (some r)) ps).events (r.fileBlame fs)) =
      ofEvents (ps.flatMap fun p => fileEvents fs ⟨ignore, true⟩ (some r) p) := by
  induction ps with
  | nil => rfl
  | cons p ps ih =>
    rw [ofFiles, ofEvents_events_andThen, events_ofFile, List.flatMap_cons]
    exact Results.ofEvents_append_congr ih _

theorem asked_ofFiles_sublist (fs : FileSystem) (ignore : Bool) (r : Git.Repository)
    (answers : Answers) (ps : List Path) :
    ((ofFiles fs (passesOver fs ⟨ignore, true⟩ (some r)) ps).asked answers).Sublist
      (ps.filter fun p => plainTags fs ignore r p ≠ []) := by
  induction ps with
  | nil => exact List.Sublist.slnil
  | cons p ps ih =>
    refine asked_andThen_sublist.trans ?_
    rw [asked_ofFile, List.filter_cons]
    by_cases h : plainTags fs ignore r p = []
    · rw [if_pos h, if_neg (by rw [decide_not, decide_eq_true h]; exact Bool.false_ne_true)]
      exact ih
    · rw [if_neg h, if_pos (decide_eq_true h)]
      exact ih.cons_cons p

end Inquiry

/-- What it means that a search of these files, which ends over this path, blames each of them
once. -/
structure BlamesOnce (fs : FileSystem) (ignore : Bool) (r : Git.Repository) (ps : List Path)
    (refusal : Option PathError) (results : Results) : Prop where
  /-- Every tag has what looking it up from scratch gives. -/
  provenance : ∀ t ∈ results.tags, (provenanceOf fs r t.path t.line).1 = .ok t.provenance
  /-- Apart from what is said about blames that have failed, the search comes to what looking up
  every tag from scratch comes to. -/
  tags : results.tags = (enrichFiles fs ignore r ps).tags
  failure : results.failure = (enrichFiles fs ignore r ps).failure.or (refusal.map .path)
  notices : results.notices.filter (!·.isBlameFailed) = (enrichFiles fs ignore r ps).notices
  /-- The search fails when it comes to the first tag whose lookup fails with more than the matter
  of one file, and not before. If there is none, it ends as the walk does. -/
  failed : ∀ e, results.failure = some e ↔
    (∃ before p after earlier t later, ps = before ++ p :: after ∧
      (enrichFiles fs ignore r before).failure = none ∧
      plainTags fs ignore r p = earlier ++ t :: later ∧
      (∀ u ∈ earlier, ∃ x, (provenanceOf fs r u.path u.line).1 = .ok x) ∧
      (provenanceOf fs r t.path t.line).1 = .error e ∧ e.isOfFile = false ∧
      results.tags.map Tag.withoutProvenance =
        (enrichFiles fs ignore r before).tags.map Tag.withoutProvenance ++ earlier) ∨
    (enrichFiles fs ignore r ps).failure = none ∧ refusal.map .path = some e
  inquiry : results = ofEvents
    ((Inquiry.ofFiles fs (passesOver fs ⟨ignore, true⟩ (some r)) ps).events (r.fileBlame fs) ++
      refusalEvents refusal)
  /-- However its questions are answered, it asks for the blame of a file once, and only if the file
  has a tag. -/
  asked : ∀ answers,
    ((Inquiry.ofFiles fs (passesOver fs ⟨ignore, true⟩ (some r)) ps).asked answers).Nodup ∧
      ∀ p ∈ (Inquiry.ofFiles fs (passesOver fs ⟨ignore, true⟩ (some r)) ps).asked answers,
        p ∈ ps ∧ plainTags fs ignore r p ≠ []
  /-- A file's blame is said to have failed once at most, and only if the file has a tag. -/
  said : (results.notices.filter Notice.isBlameFailed).Sublist
    (ps.flatMap fun p => blameNotices fs r p (plainTags fs ignore r p))
  said_once : ∀ p, (blameNotices fs r p (plainTags fs ignore r p)).length ≤ 1

theorem blamesOnce_of_nodup {fs : FileSystem} {ignore : Bool} {r : Git.Repository}
    {ps : List Path} (refusal : Option PathError) (hps : ps.Nodup)
    (hplain : ∀ p ∈ ps, (ofEvents (fileEvents fs ⟨ignore, false⟩ (some r) p)).failure = none) :
    BlamesOnce fs ignore r ps refusal (ofEvents
      (ps.flatMap (fileEvents fs ⟨ignore, true⟩ (some r)) ++ refusalEvents refusal)) := by
  have hextends := extends_enrichEvents fs ignore r ps
  have hinquiry := Inquiry.ofEvents_events_ofFiles fs ignore r ps
  rw [ofEvents_append_refusalEvents]
  constructor
  case provenance =>
    intro t ht
    rw [hextends.tags] at ht
    exact provenance_enrichFiles ht
  case tags => exact hextends.tags
  case failure => exact congrArg (·.or (refusal.map .path)) hextends.failure
  case notices => exact hextends.notices
  case failed =>
    intro e
    rw [hextends.tags, hextends.failure, Option.or_eq_some_iff]
    exact or_congr (failure_enrichFiles_iff hplain) Iff.rfl
  case inquiry => rw [ofEvents_append_refusalEvents, hinquiry]
  case asked =>
    intro answers
    have hsublist := Inquiry.asked_ofFiles_sublist fs ignore r answers ps
    refine ⟨(hps.filter _).sublist hsublist, fun p hp => ?_⟩
    obtain ⟨hp, htags⟩ := List.mem_filter.mp (hsublist.subset hp)
    exact ⟨hp, of_decide_eq_true htags⟩
  case said => exact hextends.extra
  case said_once => exact fun p => length_blameNotices_le_one

theorem findRepository_notices {fs : FileSystem} {root : String} {h : Git.Handle}
    (hrepo : (Git.findRepository fs root).1 = .ok (some h)) :
    Git.findRepository fs root = (.ok (some h), []) := by
  unfold Git.findRepository at *
  split at hrepo
  · cases hrepo
  · cases hrepo
  · split at hrepo
    · cases hrepo
      rfl
    · cases hrepo

/-- A search of a place with an open repository blames each file of the walk once, and the tags that
it looks at are those of the search that looks up none. -/
theorem run_blamesOnce (fs : FileSystem) (ignore : Bool) (root : String) (h : Git.Handle)
    (hfs : fs.root.WellFormed) (hrepo : (Git.findRepository fs root).1 = .ok (some h)) :
    BlamesOnce fs ignore (h.connect fs) (walk fs (.ofString root))
        (walkRefusal? fs (.ofString root)) (ofEvents (run fs ⟨ignore, true⟩ [root])) ∧
      (ofEvents (run fs ⟨ignore, false⟩ [root])).tags =
        (walk fs (.ofString root)).flatMap (plainTags fs ignore (h.connect fs)) := by
  have hrun := (run_eq_searchIn (o := ⟨ignore, true⟩) (Bool.or_true ignore)
    (findRepository_notices hrepo)).1
  constructor
  · rw [hrun, searchIn]
    exact blamesOnce_of_nodup _ (walk_nodup hfs _) fun p _ => (visit_blame fs ignore (some h) p).1
  · rw [(run_plain hfs ignore root).2, openedFor_eq_some_iff.mpr hrepo]
    rfl

theorem committedTree_blamesOnce :
    (committedTree 1700000000).root.WellFormed ∧
    (Git.findRepository (committedTree 1700000000) ".").1 = .ok (some committedRepository) ∧
    BlamesOnce (committedTree 1700000000) true
      (committedRepository.connect (committedTree 1700000000)) (committedTags.map Tag.path) none
      (ofEvents (run (committedTree 1700000000) ⟨true, true⟩ ["."])) ∧
    (committedTags.map Tag.path).flatMap (plainTags (committedTree 1700000000) true
      (committedRepository.connect (committedTree 1700000000))) = committedTags ∧
    (ofEvents (run (committedTree 1700000000) ⟨true, true⟩ ["."])).tags.map
        (fun t => (t.path, t.provenance.map (·.author))) =
      [(⟨.here, ["a.c"]⟩, some "Ada"), (⟨.here, ["b.c"]⟩, some "Ada")] := by
  have hrepo : (Git.findRepository (committedTree 1700000000) ".").1 =
      .ok (some committedRepository) := by
    rw [findRepository_committedTree]
  obtain ⟨honce, hplain⟩ := run_blamesOnce (committedTree 1700000000) true "." committedRepository
    (committedTree_wellFormed _) hrepo
  rw [walk, walkRefusal?, walkSteps_committedTree, untilError_map_ok] at honce
  rw [walk, walkSteps_committedTree, untilError_map_ok] at hplain
  refine ⟨committedTree_wellFormed _, hrepo, honce, ?_, ?_⟩
  · rw [← hplain, run_committedTree]
    rfl
  · rw [run_committedTree]
    cbv

end CommentTags.Search

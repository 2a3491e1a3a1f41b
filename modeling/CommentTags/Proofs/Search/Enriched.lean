import CommentTags.Proofs.Search.Blamed

namespace CommentTags

def Notice.isBlameFailed : Notice → Bool
  | blameFailed .. => true
  | _ => false

/-- Whether a failed lookup is the matter of one file. Every other one ends a search. -/
def SearchError.isOfFile : SearchError → Bool
  | store .device | time .yearTooLarge => true
  | _ => false

namespace Search

open Results (ofEvents Extends)

variable {fs : FileSystem} {r : Git.Repository} {p : Path} {t : Tag} {ts : List Tag}
  {es : List Event} {ending : List Event}

/-- Look up every tag from scratch, as it comes. A lookup that fails ends the file. -/
def enrichEvents (fs : FileSystem) (r : Git.Repository) : List Event → List Event
  | [] => []
  | .tag t :: es =>
    match (provenanceOf fs r t.path t.line).1 with
    | .error e => [failureEvent t.path e]
    | .ok provenance => .tag { t with provenance } :: enrichEvents fs r es
  | e :: es => e :: enrichEvents fs r es

/-- What is said about the blame of a file that has these tags. -/
def blameNotices (fs : FileSystem) (r : Git.Repository) (p : Path) (ts : List Tag) : List Notice :=
  if ts = [] then [] else (r.fileBlame fs p).2

theorem enrichEvents_endEvents (p : Path) (e : Option ReadError) :
    enrichEvents fs r (endEvents p e) = endEvents p e := by
  cases e <;> rfl

theorem enrichEvents_tag_cons (t : Tag) (es : List Event) :
    enrichEvents fs r (.tag t :: es) =
      match (provenanceOf fs r t.path t.line).1 with
      | .error e => [failureEvent t.path e]
      | .ok provenance => .tag { t with provenance } :: enrichEvents fs r es := rfl

theorem tagEvents_cons (fs : FileSystem) (r : Git.Repository) (t : Tag) (ts : List Tag) :
    tagEvents fs p (some r) (t :: ts) ending =
      match r.fileBlame fs p with
      | (.error f, notices) => notices.map .notice ++ [failureEvent p (.store f)]
      | (.ok none, notices) => notices.map .notice ++ (t :: ts).map .tag ++ ending
      | (.ok (some b), notices) => notices.map .notice ++ blamedEvents p b ending (t :: ts) := rfl

theorem enrichEvents_of_no_blame {notices : List Notice}
    (hblame : r.fileBlame fs p = (.ok none, notices))
    (hts : ∀ t ∈ ts, t.path = p ∧ t.provenance = none) :
    enrichEvents fs r (ts.map .tag ++ es) = ts.map .tag ++ enrichEvents fs r es := by
  induction ts with
  | nil => rfl
  | cons t ts ih =>
    obtain ⟨⟨hpath, hnone⟩, hts⟩ := List.forall_mem_cons.mp hts
    have hlook : (provenanceOf fs r t.path t.line).1 = .ok none := by
      rw [provenanceOf, hpath, hblame]
    have htag : { t with provenance := none } = t := Tag.withoutProvenance_of_none hnone
    rw [List.map_cons, List.cons_append, enrichEvents_tag_cons, hlook, ih hts]
    dsimp only
    rw [htag, List.cons_append]

theorem enrichEvents_of_blame {b : Git.Blame} {notices : List Notice}
    (hblame : r.fileBlame fs p = (.ok (some b), notices)) (hts : ∀ t ∈ ts, t.path = p) :
    enrichEvents fs r (ts.map .tag ++ es) = blamedEvents p b (enrichEvents fs r es) ts := by
  induction ts with
  | nil => rfl
  | cons t ts ih =>
    obtain ⟨rfl, hts⟩ := List.forall_mem_cons.mp hts
    have hlook : (provenanceOf fs r t.path t.line).1 = lineProvenance b t.line := by
      rw [provenanceOf, hblame]
    rw [List.map_cons, List.cons_append, enrichEvents_tag_cons, hlook, blamedEvents]
    cases lineProvenance b t.line with
    | error e => rfl
    | ok provenance => exact congrArg _ (ih hts)

theorem tagEvents_eq (fs : FileSystem) (r : Git.Repository)
    (hts : ∀ t ∈ ts, t.path = p ∧ t.provenance = none) (hend : enrichEvents fs r ending = ending) :
    tagEvents fs p (some r) ts ending =
      (blameNotices fs r p ts).map .notice ++
        enrichEvents fs r (tagEvents fs p none ts ending) := by
  have hplain : tagEvents fs p none ts ending = ts.map .tag ++ ending := rfl
  match ts, hts with
  | [], _ => exact (congrArg _ hend).symm
  | t :: ts, hts =>
    have hpath : ∀ u ∈ t :: ts, u.path = p := fun u hu => (hts u hu).1
    have hnotices : blameNotices fs r p (t :: ts) = (r.fileBlame fs p).2 :=
      if_neg (List.cons_ne_nil t ts)
    rw [hplain, hnotices, tagEvents_cons]
    match hblame : r.fileBlame fs p with
    | (.error f, notices) =>
      have hlook : (provenanceOf fs r t.path t.line).1 = .error (.store f) := by
        rw [provenanceOf, hpath t List.mem_cons_self, hblame]
      rw [List.map_cons, List.cons_append, enrichEvents_tag_cons, hlook,
        hpath t List.mem_cons_self]
    | (.ok none, notices) =>
      rw [enrichEvents_of_no_blame hblame hts, hend]
      exact List.append_assoc _ _ _
    | (.ok (some b), notices) => rw [enrichEvents_of_blame hblame hpath, hend]

def plainTags (fs : FileSystem) (ignore : Bool) (r : Git.Repository) (p : Path) : List Tag :=
  (ofEvents (fileEvents fs ⟨ignore, false⟩ (some r) p)).tags

theorem ofEvents_fileEvents_plain {ignore : Bool} {repo : Option Git.Repository}
    (h : passesOver fs ⟨ignore, false⟩ repo p = .ok false) :
    ofEvents (fileEvents fs ⟨ignore, false⟩ repo p) = ⟨scanTags fs p, readFailures fs p, none⟩ := by
  unfold fileEvents scanTags readFailures
  rw [h]
  cases Grammar.ofPath? p with
  | none => rfl
  | some g =>
    have hplain : sourceEvents fs g p none =
        (scanFile fs g p).1.map .tag ++ endEvents p (scanFile fs g p).2 := rfl
    dsimp only
    rw [if_neg Bool.false_ne_true, hplain,
      Results.ofEvents_append_of_none (by rw [Results.ofEvents_tags]), Results.ofEvents_tags]
    cases (scanFile fs g p).2 with
    | none => exact congrArg (Results.mk · [] none) (List.append_nil _)
    | some e =>
      exact congrArg (Results.mk · [.unreadable p.toString e.message] none) (List.append_nil _)

theorem fileEvents_cases (fs : FileSystem) (ignore : Bool) (r : Git.Repository) (p : Path) :
    passesOver fs ⟨ignore, false⟩ (some r) p = .ok false ∨
      fileEvents fs ⟨ignore, false⟩ (some r) p = [.notice (.skippedIgnored p.toString)] ∨
      ∃ f, fileEvents fs ⟨ignore, false⟩ (some r) p = [.failed (.store f)] := by
  match h : passesOver fs ⟨ignore, false⟩ (some r) p with
  | .error f => exact Or.inr (Or.inr ⟨f, by rw [fileEvents, h]⟩)
  | .ok true => exact Or.inr (Or.inl (by rw [fileEvents, h]))
  | .ok false => exact Or.inl rfl

theorem plainTags_eq (fs : FileSystem) (ignore : Bool) (r : Git.Repository) (p : Path) :
    plainTags fs ignore r p =
      match passesOver fs ⟨ignore, false⟩ (some r) p with
      | .ok false => scanTags fs p
      | _ => [] := by
  unfold plainTags
  match h : passesOver fs ⟨ignore, false⟩ (some r) p with
  | .error f => rw [fileEvents, h]; rfl
  | .ok true => rw [fileEvents, h]; rfl
  | .ok false => rw [ofEvents_fileEvents_plain h]

theorem place_of_mem_plainTags {ignore : Bool} (h : t ∈ plainTags fs ignore r p) :
    t.path = p ∧ t.provenance = none := by
  rw [plainTags_eq] at h
  split at h
  · exact place_of_mem_scanTags h
  · cases h

theorem fileEvents_blame (fs : FileSystem) (ignore : Bool) (r : Git.Repository) (p : Path) :
    fileEvents fs ⟨ignore, true⟩ (some r) p =
      (blameNotices fs r p (plainTags fs ignore r p)).map .notice ++
        enrichEvents fs r (fileEvents fs ⟨ignore, false⟩ (some r) p) := by
  have hpasses : passesOver fs ⟨ignore, true⟩ (some r) p =
      passesOver fs ⟨ignore, false⟩ (some r) p := rfl
  rw [plainTags_eq]
  unfold fileEvents scanTags
  rw [hpasses]
  match passesOver fs ⟨ignore, false⟩ (some r) p with
  | .error f => rfl
  | .ok true => rfl
  | .ok false =>
    cases Grammar.ofPath? p with
    | none => rfl
    | some g => exact tagEvents_eq fs r (fun t => scanFile_place) (enrichEvents_endEvents p _)

theorem failureEvent_of_isOfFile {e : SearchError} (h : e.isOfFile = true) :
    ∃ reason, failureEvent p e = .notice (.unreadable p.toString reason) := by
  unfold SearchError.isOfFile at h
  split at h
  · exact ⟨_, rfl⟩
  · exact ⟨_, rfl⟩
  · cases h

theorem failureEvent_of_not_isOfFile {e : SearchError} (h : e.isOfFile = false) :
    failureEvent p e = .failed e := by
  unfold failureEvent
  split
  · cases h
  · cases h
  · rfl

theorem provenance_enrichEvents (h : t ∈ (ofEvents (enrichEvents fs r es)).tags) :
    (provenanceOf fs r t.path t.line).1 = .ok t.provenance := by
  induction es with
  | nil => cases h
  | cons e es ih =>
    cases e with
    | tag u =>
      rw [enrichEvents_tag_cons] at h
      cases hlook : (provenanceOf fs r u.path u.line).1 with
      | error e =>
        rw [hlook] at h
        dsimp only at h
        rw [(ofEvents_failureEvent _ _).1] at h
        cases h
      | ok provenance =>
        rw [hlook] at h
        obtain rfl | h := List.mem_cons.mp h
        · exact hlook
        · exact ih h
    | notice n => exact ih h
    | failed e => cases h

theorem exists_of_mem_enrichEvents (h : t ∈ (ofEvents (enrichEvents fs r es)).tags) :
    ∃ u ∈ (ofEvents es).tags, t.withoutProvenance = u.withoutProvenance := by
  induction es with
  | nil => cases h
  | cons e es ih =>
    cases e with
    | tag u =>
      rw [enrichEvents_tag_cons] at h
      cases hlook : (provenanceOf fs r u.path u.line).1 with
      | error e =>
        rw [hlook] at h
        dsimp only at h
        rw [(ofEvents_failureEvent _ _).1] at h
        cases h
      | ok provenance =>
        rw [hlook] at h
        obtain rfl | h := List.mem_cons.mp h
        · exact ⟨u, List.mem_cons_self, rfl⟩
        · obtain ⟨v, hv, heq⟩ := ih h
          exact ⟨v, List.mem_cons_of_mem u hv, heq⟩
    | notice n => exact ih h
    | failed e => cases h

theorem notices_enrichEvents {sort : Notice → Bool}
    (hsort : ∀ path reason, sort (.unreadable path reason) = false)
    (hes : ∀ n ∈ (ofEvents es).notices, sort n = false) :
    ∀ n ∈ (ofEvents (enrichEvents fs r es)).notices, sort n = false := by
  induction es with
  | nil => exact hes
  | cons e es ih =>
    cases e with
    | tag u =>
      rw [enrichEvents_tag_cons]
      cases (provenanceOf fs r u.path u.line).1 with
      | error e =>
        dsimp only
        cases hown : e.isOfFile with
        | true =>
          obtain ⟨reason, hevent⟩ := failureEvent_of_isOfFile (p := u.path) hown
          rw [hevent]
          exact List.forall_mem_singleton.mpr (hsort _ _)
        | false =>
          rw [failureEvent_of_not_isOfFile hown]
          exact List.forall_mem_nil _
      | ok provenance => exact ih hes
    | notice n =>
      obtain ⟨hn, hes⟩ := List.forall_mem_cons.mp hes
      exact List.forall_mem_cons.mpr ⟨hn, ih hes⟩
    | failed e => exact hes

theorem ofEvents_enrichEvents_of_ok
    (hok : ∀ t ∈ (ofEvents es).tags, ∃ x, (provenanceOf fs r t.path t.line).1 = .ok x) :
    (ofEvents (enrichEvents fs r es)).failure = (ofEvents es).failure ∧
      (ofEvents (enrichEvents fs r es)).notices = (ofEvents es).notices ∧
      (ofEvents (enrichEvents fs r es)).tags.map Tag.withoutProvenance =
        (ofEvents es).tags.map Tag.withoutProvenance := by
  induction es with
  | nil => exact ⟨rfl, rfl, rfl⟩
  | cons event es ih =>
    cases event with
    | tag u =>
      obtain ⟨⟨provenance, hlook⟩, hok⟩ := List.forall_mem_cons.mp hok
      obtain ⟨hfailure, hnotices, htags⟩ := ih hok
      rw [enrichEvents_tag_cons, hlook]
      exact ⟨hfailure, hnotices, congrArg (u.withoutProvenance :: ·) htags⟩
    | notice n =>
      obtain ⟨hfailure, hnotices, htags⟩ := ih hok
      exact ⟨hfailure, congrArg (n :: ·) hnotices, htags⟩
    | failed f => exact ⟨rfl, rfl, rfl⟩

theorem ofEvents_enrichEvents_of_error {e : SearchError} {earlier later : List Tag}
    (hsplit : (ofEvents es).tags = earlier ++ t :: later)
    (hnone : ∀ u ∈ earlier, u.provenance = none)
    (hok : ∀ u ∈ earlier, ∃ x, (provenanceOf fs r u.path u.line).1 = .ok x)
    (herror : (provenanceOf fs r t.path t.line).1 = .error e) (hown : e.isOfFile = false) :
    (ofEvents (enrichEvents fs r es)).failure = some e ∧
      (ofEvents (enrichEvents fs r es)).tags.map Tag.withoutProvenance = earlier := by
  induction es generalizing earlier with
  | nil => exact absurd hsplit.symm (List.append_ne_nil_of_right_ne_nil _ (List.cons_ne_nil _ _))
  | cons event es ih =>
    cases event with
    | tag u =>
      have hsplit : u :: (ofEvents es).tags = earlier ++ t :: later := hsplit
      rw [enrichEvents_tag_cons]
      cases earlier with
      | nil =>
        obtain ⟨rfl, -⟩ := List.cons.inj hsplit
        rw [herror]
        dsimp only
        rw [failureEvent_of_not_isOfFile hown]
        exact ⟨rfl, rfl⟩
      | cons v earlier =>
        obtain ⟨rfl, htail⟩ := List.cons.inj hsplit
        obtain ⟨hbare, hnone⟩ := List.forall_mem_cons.mp hnone
        obtain ⟨⟨provenance, hlook⟩, hok⟩ := List.forall_mem_cons.mp hok
        obtain ⟨hfailure, htags⟩ := ih htail hnone hok
        have hbare : Tag.withoutProvenance { u with provenance } = u :=
          Tag.withoutProvenance_of_none hbare
        rw [hlook]
        dsimp only
        rw [ofEvents, List.map_cons, hbare, htags]
        exact ⟨hfailure, rfl⟩
    | notice n => exact ih hsplit hnone hok
    | failed f =>
      exact absurd hsplit.symm (List.append_ne_nil_of_right_ne_nil _ (List.cons_ne_nil _ _))

theorem exists_of_failure_enrichEvents {e : SearchError} (hes : (ofEvents es).failure = none)
    (h : (ofEvents (enrichEvents fs r es)).failure = some e) :
    ∃ earlier t later, (ofEvents es).tags = earlier ++ t :: later ∧
      (∀ u ∈ earlier, ∃ x, (provenanceOf fs r u.path u.line).1 = .ok x) ∧
      (provenanceOf fs r t.path t.line).1 = .error e ∧ e.isOfFile = false := by
  induction es with
  | nil => cases h
  | cons event es ih =>
    cases event with
    | tag u =>
      rw [enrichEvents_tag_cons] at h
      cases hlook : (provenanceOf fs r u.path u.line).1 with
      | error f =>
        rw [hlook] at h
        dsimp only at h
        cases hown : f.isOfFile with
        | true =>
          obtain ⟨reason, hevent⟩ := failureEvent_of_isOfFile (p := u.path) hown
          rw [hevent] at h
          cases h
        | false =>
          rw [failureEvent_of_not_isOfFile hown] at h
          obtain rfl : f = e := Option.some.inj h
          exact ⟨[], u, _, rfl, fun _ hv => absurd hv List.not_mem_nil, hlook, hown⟩
      | ok provenance =>
        rw [hlook] at h
        obtain ⟨earlier, t, later, hsplit, hok, herror, hown⟩ := ih hes h
        exact ⟨u :: earlier, t, later, congrArg (u :: ·) hsplit,
          List.forall_mem_cons.mpr ⟨⟨provenance, hlook⟩, hok⟩, herror, hown⟩
    | notice n => exact ih hes h
    | failed f => cases hes

theorem blameFailed_of_mem_fileBlame :
    ∀ n ∈ (r.fileBlame fs p).2, ∃ path reason, n = .blameFailed path reason := by
  unfold Git.Repository.fileBlame
  split
  · exact List.forall_mem_nil _
  · split
    · exact List.forall_mem_nil _
    · exact List.forall_mem_nil _
    · exact List.forall_mem_singleton.mpr ⟨_, _, rfl⟩

theorem length_fileBlame_le_one : (r.fileBlame fs p).2.length ≤ 1 := by
  unfold Git.Repository.fileBlame
  split
  · exact Nat.zero_le 1
  · split
    · exact Nat.zero_le 1
    · exact Nat.zero_le 1
    · exact Nat.le_refl 1

theorem blameFailed_of_mem_blameNotices :
    ∀ n ∈ blameNotices fs r p ts, ∃ path reason, n = .blameFailed path reason := by
  unfold blameNotices
  split
  · exact List.forall_mem_nil _
  · exact blameFailed_of_mem_fileBlame

theorem length_blameNotices_le_one : (blameNotices fs r p ts).length ≤ 1 := by
  unfold blameNotices
  split
  · exact Nat.zero_le 1
  · exact length_fileBlame_le_one

theorem isBlameFailed_plain (ignore : Bool) :
    ∀ n ∈ (ofEvents (fileEvents fs ⟨ignore, false⟩ (some r) p)).notices,
      n.isBlameFailed = false := by
  obtain h | h | ⟨f, h⟩ := fileEvents_cases fs ignore r p
  · have hnotices : (ofEvents (fileEvents fs ⟨ignore, false⟩ (some r) p)).notices =
        readFailures fs p := by
      rw [ofEvents_fileEvents_plain h]
    rw [hnotices]
    intro n hn
    obtain ⟨path, reason, rfl⟩ := unreadable_of_mem_readFailures n hn
    rfl
  · rw [h]
    exact List.forall_mem_singleton.mpr rfl
  · rw [h]
    exact List.forall_mem_nil _

def enrichFiles (fs : FileSystem) (ignore : Bool) (r : Git.Repository) (ps : List Path) : Results :=
  ofEvents (ps.flatMap fun p => enrichEvents fs r (fileEvents fs ⟨ignore, false⟩ (some r) p))

/-- Blaming each file once comes to what looking up each tag from scratch comes to. -/
theorem extends_enrichEvents (fs : FileSystem) (ignore : Bool) (r : Git.Repository)
    (ps : List Path) :
    Extends Notice.isBlameFailed
      (ps.flatMap fun p => blameNotices fs r p (plainTags fs ignore r p))
      (ps.flatMap fun p => fileEvents fs ⟨ignore, true⟩ (some r) p)
      (ps.flatMap fun p => enrichEvents fs r (fileEvents fs ⟨ignore, false⟩ (some r) p)) := by
  refine Extends.flatMap fun p _ => ?_
  rw [fileEvents_blame]
  refine Results.extends_notices_append (fun n hn => ?_)
    (notices_enrichEvents (fun _ _ => rfl) (isBlameFailed_plain ignore))
  obtain ⟨path, reason, rfl⟩ := blameFailed_of_mem_blameNotices n hn
  rfl

theorem mem_searchIn {ignore : Bool} {root : String}
    (h : t ∈ (ofEvents (searchIn fs ⟨ignore, true⟩ r root)).tags) :
    (provenanceOf fs r t.path t.line).1 = .ok t.provenance ∧
      t.withoutProvenance ∈ scanTags fs t.path := by
  rw [searchIn, ofEvents_append_refusalEvents] at h
  obtain ⟨p, -, hp⟩ := Results.mem_tags_flatMap h
  have hextends := extends_enrichEvents fs ignore r [p]
  simp only [List.flatMap_singleton] at hextends
  rw [hextends.tags] at hp
  obtain ⟨u, hu, heq⟩ := exists_of_mem_enrichEvents hp
  obtain ⟨hpath, hnone⟩ := place_of_mem_plainTags hu
  rw [Tag.withoutProvenance_of_none hnone] at heq
  refine ⟨provenance_enrichEvents hp, ?_⟩
  have hplain : u ∈ plainTags fs ignore r p := hu
  rw [plainTags_eq] at hplain
  have hplace : t.path = p := (congrArg Tag.path heq).trans hpath
  rw [heq, hplace]
  split at hplain
  · exact hplain
  · cases hplain

theorem provenance_enrichFiles {ignore : Bool} {ps : List Path}
    (h : t ∈ (enrichFiles fs ignore r ps).tags) :
    (provenanceOf fs r t.path t.line).1 = .ok t.provenance := by
  obtain ⟨p, -, h⟩ := Results.mem_tags_flatMap h
  exact provenance_enrichEvents h

theorem ofEvents_enrichEvents_plain_of_error {ignore : Bool} {e : SearchError}
    {earlier later : List Tag} (hsplit : plainTags fs ignore r p = earlier ++ t :: later)
    (hok : ∀ u ∈ earlier, ∃ x, (provenanceOf fs r u.path u.line).1 = .ok x)
    (herror : (provenanceOf fs r t.path t.line).1 = .error e) (hown : e.isOfFile = false) :
    (ofEvents (enrichEvents fs r (fileEvents fs ⟨ignore, false⟩ (some r) p))).failure = some e ∧
      (ofEvents (enrichEvents fs r (fileEvents fs ⟨ignore, false⟩ (some r) p))).tags.map
        Tag.withoutProvenance = earlier :=
  ofEvents_enrichEvents_of_error hsplit
    (fun _ hu => (place_of_mem_plainTags (hsplit ▸ List.mem_append_left _ hu)).2) hok herror hown

theorem failure_enrichFiles_iff {ignore : Bool} {ps : List Path} {e : SearchError}
    (hplain : ∀ p ∈ ps, (ofEvents (fileEvents fs ⟨ignore, false⟩ (some r) p)).failure = none) :
    (enrichFiles fs ignore r ps).failure = some e ↔
      ∃ before p after earlier t later, ps = before ++ p :: after ∧
        (enrichFiles fs ignore r before).failure = none ∧
        plainTags fs ignore r p = earlier ++ t :: later ∧
        (∀ u ∈ earlier, ∃ x, (provenanceOf fs r u.path u.line).1 = .ok x) ∧
        (provenanceOf fs r t.path t.line).1 = .error e ∧ e.isOfFile = false ∧
        (enrichFiles fs ignore r ps).tags.map Tag.withoutProvenance =
          (enrichFiles fs ignore r before).tags.map Tag.withoutProvenance ++ earlier := by
  constructor
  · intro h
    obtain ⟨before, p, after, rfl, hbefore, hp, htags⟩ := Results.failure_flatMap_eq_some_iff.mp h
    have hmem : p ∈ before ++ p :: after := List.mem_append_right _ List.mem_cons_self
    obtain ⟨earlier, t, later, hsplit, hok, hlook, hown⟩ :=
      exists_of_failure_enrichEvents (hplain p hmem) hp
    refine ⟨before, p, after, earlier, t, later, rfl, hbefore, hsplit, hok, hlook, hown, ?_⟩
    rw [enrichFiles, htags, List.map_append,
      (ofEvents_enrichEvents_plain_of_error hsplit hok hlook hown).2]
    rfl
  · rintro ⟨before, p, after, earlier, t, later, rfl, hbefore, hsplit, hok, hlook, hown, -⟩
    have hp := (ofEvents_enrichEvents_plain_of_error hsplit hok hlook hown).1
    rw [enrichFiles, List.flatMap_append, List.flatMap_cons,
      Results.ofEvents_append_of_none hbefore,
      Results.ofEvents_append_of_ne_none (by rw [hp]; exact Option.some_ne_none e)]
    exact hp

end Search

end CommentTags

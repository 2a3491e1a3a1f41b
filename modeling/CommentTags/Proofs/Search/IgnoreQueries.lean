import CommentTags.Proofs.Search.Complete
import CommentTags.Proofs.Search.Enriched

namespace CommentTags

def Git.StoreFault.IsForeign (f : Git.StoreFault) : Prop :=
  ∀ text, f ≠ .store text

namespace Git.Repository

variable {fs : FileSystem} {r : Git.Repository} {p : Path} {f : StoreFault}

def FailsAt (fs : FileSystem) (r : Git.Repository) (p : Path) (f : StoreFault) : Prop :=
  ∃ names, r.relativeNames? fs p = some names ∧ r.ignores names = .error f

def PassesOn (fs : FileSystem) (r : Git.Repository) (p : Path) (f : StoreFault) : Prop :=
  r.FailsAt fs p f ∧ f.IsForeign

/-- The same repository, except that it says no where it would fail to answer. -/
def lenient (r : Git.Repository) : Git.Repository :=
  { r with ignores := fun names => .ok ((r.ignores names).toOption.getD false) }

theorem relativeNames?_lenient : r.lenient.relativeNames? fs p = r.relativeNames? fs p := rfl

theorem fileBlame_lenient : r.lenient.fileBlame fs p = r.fileBlame fs p := rfl

theorem leavesOut_outside (h : r.relativeNames? fs p = none) : r.leavesOut fs p = .ok false := by
  simp only [leavesOut, h]

theorem leavesOut_of_answer {names : List String} {b : Bool}
    (hnames : r.relativeNames? fs p = some names) (h : r.ignores names = .ok b) :
    r.leavesOut fs p = .ok b := by
  simp only [leavesOut, hnames, h]

theorem leavesOut_of_ownFault {text : String} (h : r.FailsAt fs p (.store text)) :
    r.leavesOut fs p = .ok false := by
  obtain ⟨names, hnames, hfails⟩ := h
  simp only [leavesOut, hnames, hfails]

theorem leavesOut_of_passesOn (h : r.PassesOn fs p f) : r.leavesOut fs p = .error f := by
  obtain ⟨⟨names, hnames, hfails⟩, hforeign⟩ := h
  cases f with
  | store text => exact absurd rfl (hforeign text)
  | key | value | index | device => simp only [leavesOut, hnames, hfails]

theorem query_cases (fs : FileSystem) (r : Git.Repository) (p : Path) :
    r.relativeNames? fs p = none ∨
      (∃ names b, r.relativeNames? fs p = some names ∧ r.ignores names = .ok b) ∨
      (∃ text, r.FailsAt fs p (.store text)) ∨ ∃ f, r.PassesOn fs p f := by
  cases hnames : r.relativeNames? fs p with
  | none => exact Or.inl rfl
  | some names =>
    right
    cases hanswer : r.ignores names with
    | ok b => exact Or.inl ⟨names, b, rfl, hanswer⟩
    | error f =>
      right
      have hfails : r.FailsAt fs p f := ⟨names, hnames, hanswer⟩
      by_cases hforeign : f.IsForeign
      · exact Or.inr ⟨f, hfails, hforeign⟩
      · obtain ⟨text, htext⟩ := not_forall.mp hforeign
        exact Or.inl ⟨text, not_not.mp htext ▸ hfails⟩

theorem leavesOut_lenient (h : ∀ f, ¬ r.PassesOn fs p f) :
    r.lenient.leavesOut fs p = r.leavesOut fs p := by
  obtain hout | ⟨names, b, hnames, hanswer⟩ | ⟨text, hfails⟩ | ⟨f, hf⟩ := query_cases fs r p
  · rw [leavesOut_outside hout, leavesOut_outside (relativeNames?_lenient.trans hout)]
  · rw [leavesOut_of_answer hnames hanswer]
    apply leavesOut_of_answer (relativeNames?_lenient.trans hnames)
    simp [lenient, hanswer, Except.toOption]
  · rw [leavesOut_of_ownFault hfails]
    obtain ⟨names, hnames, hanswer⟩ := hfails
    apply leavesOut_of_answer (relativeNames?_lenient.trans hnames)
    simp [lenient, hanswer, Except.toOption]
  · exact absurd hf (h f)

theorem leavesOut_eq_error_iff : r.leavesOut fs p = .error f ↔ r.PassesOn fs p f := by
  constructor
  · intro h
    obtain hout | ⟨names, b, hnames, hanswer⟩ | ⟨text, hfails⟩ | ⟨f', hf'⟩ := query_cases fs r p
    · cases (leavesOut_outside hout).symm.trans h
    · cases (leavesOut_of_answer hnames hanswer).symm.trans h
    · cases (leavesOut_of_ownFault hfails).symm.trans h
    · obtain rfl := Except.error.inj ((leavesOut_of_passesOn hf').symm.trans h)
      exact hf'
  · exact leavesOut_of_passesOn

theorem leavesOut_eq_false_iff (h : r.FailsAt fs p f) :
    r.leavesOut fs p = .ok false ↔ ¬ f.IsForeign := by
  constructor
  · intro hno hforeign
    cases (leavesOut_of_passesOn ⟨h, hforeign⟩).symm.trans hno
  · intro hown
    obtain ⟨text, htext⟩ := not_forall.mp hown
    exact leavesOut_of_ownFault (not_not.mp htext ▸ h)

end Git.Repository

namespace Search

open Git (Repository)
open Results (ofEvents)

variable {fs : FileSystem} {r : Git.Repository} {p : Path} {f : Git.StoreFault} {ps : List Path}

theorem fileEvents_lenient (blame : Bool) (h : ∀ f, ¬ r.PassesOn fs p f) :
    fileEvents fs ⟨true, blame⟩ (some r) p = fileEvents fs ⟨true, blame⟩ (some r.lenient) p := by
  have hpasses : passesOver fs ⟨true, blame⟩ (some r.lenient) p =
      passesOver fs ⟨true, blame⟩ (some r) p := Repository.leavesOut_lenient h
  have htags (ts : List Tag) (ending : List Event) :
      tagEvents fs p (some r.lenient) ts ending = tagEvents fs p (some r) ts ending := by
    cases ts with
    | nil => rfl
    | cons t ts => simp only [tagEvents, Repository.fileBlame_lenient]
  unfold fileEvents
  rw [hpasses]
  cases blame <;> simp [sourceEvents, htags]

theorem fileEvents_of_passesOn (blame : Bool) (h : r.PassesOn fs p f) :
    fileEvents fs ⟨true, blame⟩ (some r) p = [.failed (.store f)] := by
  have hpasses : passesOver fs ⟨true, blame⟩ (some r) p = .error f :=
    Repository.leavesOut_of_passesOn h
  simp only [fileEvents, hpasses]

theorem fileEvents_of_not_leftOut (h : r.leavesOut fs p = .ok false) :
    fileEvents fs ⟨true, false⟩ (some r) p = fileEvents fs .withoutRepository none p := by
  have hpasses : passesOver fs ⟨true, false⟩ (some r) p = .ok false := h
  have hplain : passesOver fs ⟨false, false⟩ none p = .ok false := rfl
  simp [fileEvents, hpasses, hplain, Options.withoutRepository]

theorem failure_fileEvents (h : ∀ f, ¬ r.PassesOn fs p f) :
    (ofEvents (fileEvents fs ⟨true, false⟩ (some r) p)).failure = none := by
  match hpasses : passesOver fs ⟨true, false⟩ (some r) p with
  | .error f => exact absurd (Repository.leavesOut_eq_error_iff.mp hpasses) (h f)
  | .ok true => simp only [fileEvents, hpasses, ofEvents]
  | .ok false => rw [ofEvents_fileEvents_plain hpasses]

theorem flatMap_fileEvents_lenient (blame : Bool) (h : ∀ p ∈ ps, ∀ f, ¬ r.PassesOn fs p f) :
    ps.flatMap (fileEvents fs ⟨true, blame⟩ (some r)) =
      ps.flatMap (fileEvents fs ⟨true, blame⟩ (some r.lenient)) := by
  apply List.flatMap_congr
  exact fun p hp => fileEvents_lenient blame (h p hp)

/-- The first failure that is passed on ends a search, and what it has come to by then is left. -/
theorem ofEvents_of_passesOn (blame : Bool) {before after : List Path} (behind : List Event)
    (hbefore : ∀ q ∈ before, ∀ f, ¬ r.PassesOn fs q f) (hp : r.PassesOn fs p f) :
    let sofar := ofEvents (before.flatMap (fileEvents fs ⟨true, blame⟩ (some r.lenient)))
    ofEvents ((before ++ p :: after).flatMap (fileEvents fs ⟨true, blame⟩ (some r)) ++ behind) =
      if sofar.failure = none then { sofar with failure := some (.store f) } else sofar := by
  rw [List.flatMap_append, List.flatMap_cons, flatMap_fileEvents_lenient blame hbefore,
    fileEvents_of_passesOn blame hp, List.append_assoc]
  dsimp only
  split
  · rename_i hnone
    simp [Results.ofEvents_append_of_none hnone, ofEvents]
  · rename_i hsome
    exact Results.ofEvents_append_of_ne_none hsome

theorem failure_searchIn_iff {root : String} :
    (ofEvents (searchIn fs ⟨true, false⟩ r root)).failure = none ↔
      (∀ p ∈ walk fs (.ofString root), ∀ f, ¬ r.PassesOn fs p f) ∧
        walkRefusal? fs (.ofString root) = none := by
  rw [searchIn, Results.failure_append, failure_refusalEvents]
  refine and_congr_left fun _ => ⟨fun hnone p hp f hf => ?_, fun h => ?_⟩
  · obtain ⟨before, after, hwalk⟩ := List.append_of_mem hp
    rw [hwalk, List.flatMap_append, List.flatMap_cons, fileEvents_of_passesOn false hf,
      Results.failure_append, Results.failure_append] at hnone
    cases hnone.2.1
  · apply (Results.ofEvents_flatMap_of_none _ _ _).1
    exact fun p hp => failure_fileEvents (h p hp)

/-- What becomes of a question that fails, for the path it is asked about and for the search that
asks it. -/
structure QueriesFail (fs : FileSystem) (r : Git.Repository) (root : String) : Prop where
  outside : ∀ p, r.relativeNames? fs p = none → r.leavesOut fs p = .ok false
  no_iff : ∀ p f, r.FailsAt fs p f → (r.leavesOut fs p = .ok false ↔ ¬ f.IsForeign)
  error_iff : ∀ p f, r.leavesOut fs p = .error f ↔ r.FailsAt fs p f ∧ f.IsForeign
  /-- As long as no failure is passed on, failing comes to the same as saying no. -/
  unhindered : ∀ blame, (∀ p ∈ walk fs (.ofString root), ∀ f, ¬ r.PassesOn fs p f) →
    searchIn fs ⟨true, blame⟩ r root = searchIn fs ⟨true, blame⟩ r.lenient root
  /-- The files behind the first failure that is passed on are lost. -/
  ended : ∀ blame before p after f, walk fs (.ofString root) = before ++ p :: after →
    (∀ q ∈ before, ∀ f, ¬ r.PassesOn fs q f) → r.PassesOn fs p f →
      let sofar := ofEvents (before.flatMap (fileEvents fs ⟨true, blame⟩ (some r.lenient)))
      ofEvents (searchIn fs ⟨true, blame⟩ r root) =
        if sofar.failure = none then { sofar with failure := some (.store f) } else sofar
  completes_iff : (ofEvents (searchIn fs ⟨true, false⟩ r root)).failure = none ↔
    (∀ p ∈ walk fs (.ofString root), ∀ f, ¬ r.PassesOn fs p f) ∧
      walkRefusal? fs (.ofString root) = none
  /-- The search is the one that is run with the repository that has been opened. -/
  opened : ∀ blame h, Git.findRepository fs root = (.ok (some h), []) → r = h.connect fs →
    ofEvents (run fs ⟨true, blame⟩ [root]) = ofEvents (searchIn fs ⟨true, blame⟩ r root) ∧
      (walkRefusal? fs (.ofString root) = none →
        run fs ⟨true, blame⟩ [root] = searchIn fs ⟨true, blame⟩ r root)

/-- A repository that fails to say whether a path is ignored is taken to say no if the fault is its
own. Every other failure is an error, and the first one ends a search. -/
theorem queries_fail (fs : FileSystem) (r : Git.Repository) (root : String) :
    QueriesFail fs r root where
  outside _ := Repository.leavesOut_outside
  no_iff _ _ := Repository.leavesOut_eq_false_iff
  error_iff _ _ := Repository.leavesOut_eq_error_iff
  unhindered blame h := by
    rw [searchIn, searchIn, flatMap_fileEvents_lenient blame h]
  ended blame before p after f hwalk hbefore hp := by
    rw [searchIn, hwalk]
    exact ofEvents_of_passesOn blame _ hbefore hp
  completes_iff := failure_searchIn_iff
  opened blame h hopen hr := by
    rw [hr]
    exact run_eq_searchIn rfl hopen

def failingRepository (f : Git.StoreFault) : Git.Repository where
  workTree := some []
  ignores _ := .error f
  blame _ := .error f

theorem failsAt_smallTree (f : Git.StoreFault) :
    ∀ p ∈ walk smallTree (.ofString "."), (failingRepository f).FailsAt smallTree p f := by
  have hnames : ∀ p ∈ walk smallTree (.ofString "."),
      (failingRepository f).relativeNames? smallTree p = some p.names := by
    rw [walk_smallTree]
    simp only [List.forall_mem_cons]
    exact ⟨by cbv, by cbv, by cbv, List.forall_mem_nil _⟩
  exact fun p hp => ⟨p.names, hnames p hp, rfl⟩

/-- Of five ways to fail four are passed on, so that a search ends before its first tag although
there are two to be found. They are found if the fault is the repository's own. -/
theorem smallTree_ended_by_query :
    (∀ f ∈ [Git.StoreFault.key "k", .value "v", .index "i", .device],
      (failingRepository f).leavesOut smallTree ⟨.here, ["a.c"]⟩ = .error f ∧
      ofEvents (searchIn smallTree ⟨true, false⟩ (failingRepository f) ".") =
        ⟨[], [], some (.store f)⟩) ∧
    ofEvents (searchIn smallTree ⟨true, false⟩ (failingRepository (.store "g")) ".") =
      ⟨smallTags, [], none⟩ := by
  constructor
  · intro f hf
    have hforeign : f.IsForeign := by
      rintro text rfl
      simp at hf
    have hpasses : (failingRepository f).PassesOn smallTree ⟨.here, ["a.c"]⟩ f := by
      refine ⟨failsAt_smallTree f _ ?_, hforeign⟩
      rw [walk_smallTree]
      exact List.mem_cons_self
    refine ⟨Repository.leavesOut_of_passesOn hpasses, ?_⟩
    rw [searchIn, walk_smallTree]
    exact ofEvents_of_passesOn false _ (List.forall_mem_nil _) hpasses
  · have hplain : searchIn smallTree ⟨true, false⟩ (failingRepository (.store "g")) "." =
        smallTags.map .tag := by
      rw [searchIn, walkRefusal?_smallTree, refusalEvents, List.append_nil, ← visits_smallTree]
      apply List.flatMap_congr
      intro p hp
      apply fileEvents_of_not_leftOut
      exact Repository.leavesOut_of_ownFault (failsAt_smallTree _ p hp)
    rw [hplain, Results.ofEvents_tags]

end Search

end CommentTags

import CommentTags.Search.Cursor

namespace CommentTags

/-- The tag as the scanner gave it. -/
def Tag.withoutProvenance (t : Tag) : Tag :=
  { t with provenance := none }

theorem Tag.withoutProvenance_of_none {t : Tag} (h : t.provenance = none) :
    t.withoutProvenance = t := by
  rw [withoutProvenance, ← h]

namespace Search.Results

variable {α : Type} {es es' : List Event} {ts ts' : List Tag}

theorem ofEvents_append_of_none (h : (ofEvents es).failure = none) :
    ofEvents (es ++ es') = ⟨(ofEvents es).tags ++ (ofEvents es').tags,
      (ofEvents es).notices ++ (ofEvents es').notices, (ofEvents es').failure⟩ := by
  induction es with
  | nil => rfl
  | cons e es ih =>
    cases e with
    | tag t => rw [List.cons_append, ofEvents, ih h, ofEvents]; rfl
    | notice n => rw [List.cons_append, ofEvents, ih h, ofEvents]; rfl
    | failed e => cases h

theorem ofEvents_append_of_ne_none (h : (ofEvents es).failure ≠ none) :
    ofEvents (es ++ es') = ofEvents es := by
  induction es with
  | nil => exact absurd rfl h
  | cons e es ih =>
    cases e with
    | tag t => rw [List.cons_append, ofEvents, ih h, ofEvents]
    | notice n => rw [List.cons_append, ofEvents, ih h, ofEvents]
    | failed e => rfl

theorem ofEvents_append_congr (h : ofEvents es = ofEvents es') (before : List Event) :
    ofEvents (before ++ es) = ofEvents (before ++ es') := by
  by_cases hn : (ofEvents before).failure = none
  · rw [ofEvents_append_of_none hn, ofEvents_append_of_none hn, h]
  · rw [ofEvents_append_of_ne_none hn, ofEvents_append_of_ne_none hn]

theorem ofEvents_tags (ts : List Tag) : ofEvents (ts.map .tag) = ⟨ts, [], none⟩ := by
  induction ts with
  | nil => rfl
  | cons t ts ih => rw [List.map_cons, ofEvents, ih]

theorem ofEvents_notices (ns : List Notice) : ofEvents (ns.map .notice) = ⟨[], ns, none⟩ := by
  induction ns with
  | nil => rfl
  | cons n ns ih => rw [List.map_cons, ofEvents, ih]

theorem failure_append :
    (ofEvents (es ++ es')).failure = none ↔
      (ofEvents es).failure = none ∧ (ofEvents es').failure = none := by
  by_cases h : (ofEvents es).failure = none
  · rw [ofEvents_append_of_none h]
    exact ⟨fun h' => ⟨h, h'⟩, fun h' => h'.2⟩
  · rw [ofEvents_append_of_ne_none h]
    exact ⟨fun h' => absurd h' h, fun h' => h'.1⟩

theorem ofEvents_flatMap_of_none (xs : List α) (f : α → List Event)
    (h : ∀ x ∈ xs, (ofEvents (f x)).failure = none) :
    (ofEvents (xs.flatMap f)).failure = none ∧
      (ofEvents (xs.flatMap f)).tags = xs.flatMap fun x => (ofEvents (f x)).tags := by
  induction xs with
  | nil => exact ⟨rfl, rfl⟩
  | cons x xs ih =>
    obtain ⟨hx, hxs⟩ := List.forall_mem_cons.mp h
    obtain ⟨hfailure, htags⟩ := ih hxs
    rw [List.flatMap_cons, ofEvents_append_of_none hx, List.flatMap_cons]
    exact ⟨hfailure, by rw [htags]⟩

theorem notices_flatMap_of_none (xs : List α) (f : α → List Event)
    (h : ∀ x ∈ xs, (ofEvents (f x)).failure = none) :
    (ofEvents (xs.flatMap f)).notices = xs.flatMap fun x => (ofEvents (f x)).notices := by
  induction xs with
  | nil => rfl
  | cons x xs ih =>
    obtain ⟨hx, hxs⟩ := List.forall_mem_cons.mp h
    rw [List.flatMap_cons, ofEvents_append_of_none hx, List.flatMap_cons, ih hxs]

theorem mem_tags_append {t : Tag} (h : t ∈ (ofEvents (es ++ es')).tags) :
    t ∈ (ofEvents es).tags ∨ t ∈ (ofEvents es').tags := by
  by_cases hn : (ofEvents es).failure = none
  · rw [ofEvents_append_of_none hn] at h
    exact List.mem_append.mp h
  · rw [ofEvents_append_of_ne_none hn] at h
    exact .inl h

theorem mem_tags_flatMap {xs : List α} {f : α → List Event} {t : Tag}
    (h : t ∈ (ofEvents (xs.flatMap f)).tags) : ∃ x ∈ xs, t ∈ (ofEvents (f x)).tags := by
  induction xs with
  | nil => cases h
  | cons x xs ih =>
    rw [List.flatMap_cons] at h
    obtain h | h := mem_tags_append h
    · exact ⟨x, List.mem_cons_self, h⟩
    · obtain ⟨y, hy, h⟩ := ih h
      exact ⟨y, List.mem_cons_of_mem x hy, h⟩

/-- Where a failure comes from, and what has come before it. -/
theorem failure_flatMap_eq_some_iff {xs : List α} {f : α → List Event} {e : SearchError} :
    (ofEvents (xs.flatMap f)).failure = some e ↔
      ∃ before x after, xs = before ++ x :: after ∧
        (ofEvents (before.flatMap f)).failure = none ∧ (ofEvents (f x)).failure = some e ∧
        (ofEvents (xs.flatMap f)).tags =
          (ofEvents (before.flatMap f)).tags ++ (ofEvents (f x)).tags := by
  constructor
  · intro h
    induction xs with
    | nil => cases h
    | cons x xs ih =>
      rw [List.flatMap_cons] at h ⊢
      by_cases hx : (ofEvents (f x)).failure = none
      · rw [ofEvents_append_of_none hx] at h ⊢
        obtain ⟨before, y, after, rfl, hnone, hy, htags⟩ := ih h
        refine ⟨x :: before, y, after, rfl, ?_, hy, ?_⟩
        · rw [List.flatMap_cons, failure_append]
          exact ⟨hx, hnone⟩
        · rw [List.flatMap_cons, ofEvents_append_of_none hx, htags, List.append_assoc]
      · rw [ofEvents_append_of_ne_none hx] at h ⊢
        exact ⟨[], x, xs, rfl, rfl, h, rfl⟩
  · rintro ⟨before, x, after, rfl, hnone, hx, -⟩
    have hne : (ofEvents (f x)).failure ≠ none := by rw [hx]; exact Option.some_ne_none e
    rw [List.flatMap_append, List.flatMap_cons, ofEvents_append_of_none hnone,
      ofEvents_append_of_ne_none hne]
    exact hx

/-- The events come to the same, but for notices of one sort: the second have none of them, and the
first at most these. -/
structure Extends (sort : Notice → Bool) (extra : List Notice) (es es' : List Event) : Prop where
  tags : (ofEvents es).tags = (ofEvents es').tags
  failure : (ofEvents es).failure = (ofEvents es').failure
  notices : (ofEvents es).notices.filter (!sort ·) = (ofEvents es').notices
  extra : ((ofEvents es).notices.filter sort).Sublist extra

variable {sort : Notice → Bool} {ns ms : List Notice}

theorem filter_eq_nil_of_false (h : ∀ n ∈ ns, sort n = false) : ns.filter sort = [] := by
  refine List.filter_eq_nil_iff.mpr fun n hn => ?_
  rw [h n hn]
  exact Bool.false_ne_true

theorem Extends.append {fs fs' : List Event} (h : Extends sort ns es es')
    (h' : Extends sort ms fs fs') : Extends sort (ns ++ ms) (es ++ fs) (es' ++ fs') := by
  by_cases hn : (ofEvents es).failure = none
  · have heq : ofEvents (es ++ fs) = _ := ofEvents_append_of_none hn
    have heq' : ofEvents (es' ++ fs') = _ := ofEvents_append_of_none (h.failure ▸ hn)
    constructor
    · rw [heq, heq', h.tags, h'.tags]
    · rw [heq, heq', h'.failure]
    · rw [heq, heq', List.filter_append, h.notices, h'.notices]
    · rw [heq, List.filter_append]
      exact h.extra.append h'.extra
  · have heq : ofEvents (es ++ fs) = ofEvents es := ofEvents_append_of_ne_none hn
    have heq' : ofEvents (es' ++ fs') = ofEvents es' :=
      ofEvents_append_of_ne_none (h.failure ▸ hn)
    constructor
    · rw [heq, heq', h.tags]
    · rw [heq, heq', h.failure]
    · rw [heq, heq', h.notices]
    · rw [heq]
      exact h.extra.trans (List.sublist_append_left ns ms)

theorem Extends.flatMap {xs : List α} {extra : α → List Notice} {f g : α → List Event}
    (h : ∀ x ∈ xs, Extends sort (extra x) (f x) (g x)) :
    Extends sort (xs.flatMap extra) (xs.flatMap f) (xs.flatMap g) := by
  induction xs with
  | nil => exact ⟨rfl, rfl, rfl, List.Sublist.slnil⟩
  | cons x xs ih =>
    obtain ⟨hx, hxs⟩ := List.forall_mem_cons.mp h
    exact hx.append (ih hxs)

theorem extends_notices_append (hns : ∀ n ∈ ns, sort n = true)
    (hes : ∀ n ∈ (ofEvents es).notices, sort n = false) :
    Extends sort ns (ns.map .notice ++ es) es := by
  have hsplit : ofEvents (ns.map .notice ++ es) = _ :=
    ofEvents_append_of_none (by rw [ofEvents_notices])
  rw [ofEvents_notices] at hsplit
  have hnone : ns.filter (!sort ·) = [] :=
    filter_eq_nil_of_false fun n hn => by rw [hns n hn]; rfl
  have hall : (ofEvents es).notices.filter (!sort ·) = (ofEvents es).notices :=
    List.filter_eq_self.mpr fun n hn => by rw [hes n hn]; rfl
  constructor
  · rw [hsplit, List.nil_append]
  · rw [hsplit]
  · rw [hsplit, List.filter_append, hnone, hall, List.nil_append]
  · rw [hsplit, List.filter_append, filter_eq_nil_of_false hes, List.append_nil]
    exact List.filter_sublist

/-- The same tags and the same failure, whatever is known of the provenance of the tags. -/
structure Agrees (r r' : Results) : Prop where
  failure : r.failure = r'.failure
  tags : r.tags.map Tag.withoutProvenance = r'.tags

/-- Results have none but the tags of others, in their order. These fail over paths only, and the
first ones in the same way or over something else. -/
structure Follows (r r' : Results) : Prop where
  tags : (r.tags.map Tag.withoutProvenance).Sublist r'.tags
  refused : ∀ e, r'.failure = some e → ∃ e', e = .path e'
  failure : r.failure = r'.failure ∨ ∃ e, r.failure = some e ∧ ∀ e', e ≠ .path e'

variable {fs fs' : List Event}

theorem Follows.append (h : Follows (ofEvents es) (ofEvents es'))
    (h' : Follows (ofEvents fs) (ofEvents fs')) :
    Follows (ofEvents (es ++ fs)) (ofEvents (es' ++ fs')) := by
  by_cases hn' : (ofEvents es').failure = none
  · by_cases hn : (ofEvents es).failure = none
    · rw [ofEvents_append_of_none hn, ofEvents_append_of_none hn']
      refine ⟨?_, h'.refused, h'.failure⟩
      rw [List.map_append]
      exact h.tags.append h'.tags
    · rw [ofEvents_append_of_ne_none hn, ofEvents_append_of_none hn']
      refine ⟨h.tags.trans (List.sublist_append_left _ _), h'.refused, .inr ?_⟩
      exact h.failure.resolve_left fun heq => hn (heq.trans hn')
  · have hn : (ofEvents es).failure ≠ none := by
      obtain heq | ⟨e, he, -⟩ := h.failure
      · rwa [heq]
      · rw [he]
        exact Option.some_ne_none e
    rw [ofEvents_append_of_ne_none hn, ofEvents_append_of_ne_none hn']
    exact h

theorem agrees_append_iff (h : Follows (ofEvents es) (ofEvents es'))
    (h' : Follows (ofEvents fs) (ofEvents fs')) :
    Agrees (ofEvents (es ++ fs)) (ofEvents (es' ++ fs')) ↔ Agrees (ofEvents es) (ofEvents es') ∧
      ((ofEvents es').failure = none → Agrees (ofEvents fs) (ofEvents fs')) := by
  by_cases hn' : (ofEvents es').failure = none
  · rw [ofEvents_append_of_none hn']
    by_cases hn : (ofEvents es).failure = none
    · rw [ofEvents_append_of_none hn]
      constructor
      · rintro ⟨hfailure, htags⟩
        rw [List.map_append] at htags
        have hle := h.tags.length_le
        have hle' := h'.tags.length_le
        have hlen := congrArg List.length htags
        rw [List.length_append, List.length_append] at hlen
        exact ⟨⟨hn.trans hn'.symm, h.tags.eq_of_length (by omega)⟩,
          fun _ => ⟨hfailure, h'.tags.eq_of_length (by omega)⟩⟩
      · rintro ⟨⟨-, htags⟩, hafter⟩
        obtain ⟨hfailure, htags'⟩ := hafter hn'
        refine ⟨hfailure, ?_⟩
        rw [List.map_append, htags, htags']
    · rw [ofEvents_append_of_ne_none hn]
      constructor
      · rintro ⟨hfailure, -⟩
        obtain heq | ⟨e, he, hne⟩ := h.failure
        · exact absurd (heq.trans hn') hn
        · obtain ⟨e', rfl⟩ := h'.refused e (hfailure.symm.trans he)
          exact absurd rfl (hne e')
      · rintro ⟨⟨hfailure, -⟩, -⟩
        exact absurd (hfailure.trans hn') hn
  · have hn : (ofEvents es).failure ≠ none := by
      obtain heq | ⟨e, he, -⟩ := h.failure
      · rwa [heq]
      · rw [he]
        exact Option.some_ne_none e
    rw [ofEvents_append_of_ne_none hn, ofEvents_append_of_ne_none hn']
    exact ⟨fun h => ⟨h, fun heq => absurd heq hn'⟩, fun h => h.1⟩

theorem Follows.flatMap {xs : List α} {f g : α → List Event}
    (h : ∀ x ∈ xs, Follows (ofEvents (f x)) (ofEvents (g x))) :
    Follows (ofEvents (xs.flatMap f)) (ofEvents (xs.flatMap g)) := by
  induction xs with
  | nil => exact ⟨List.Sublist.slnil, nofun, .inl rfl⟩
  | cons x xs ih =>
    obtain ⟨hx, hxs⟩ := List.forall_mem_cons.mp h
    exact hx.append (ih hxs)

theorem agrees_flatMap_iff {xs : List α} {f g : α → List Event}
    (h : ∀ x ∈ xs, Follows (ofEvents (f x)) (ofEvents (g x))) :
    Agrees (ofEvents (xs.flatMap f)) (ofEvents (xs.flatMap g)) ↔
      ∀ before x after, xs = before ++ x :: after →
        (ofEvents (before.flatMap g)).failure = none →
          Agrees (ofEvents (f x)) (ofEvents (g x)) := by
  induction xs with
  | nil => exact ⟨fun _ before x after h => by simp at h, fun _ => ⟨rfl, rfl⟩⟩
  | cons x xs ih =>
    obtain ⟨hx, hxs⟩ := List.forall_mem_cons.mp h
    rw [List.flatMap_cons, List.flatMap_cons, agrees_append_iff hx (Follows.flatMap hxs), ih hxs]
    constructor
    · rintro ⟨hfirst, hrest⟩ before y after heq hnone
      cases before with
      | nil => exact (List.cons.inj heq).1 ▸ hfirst
      | cons z before =>
        obtain ⟨rfl, htail⟩ := List.cons.inj heq
        obtain ⟨hz, hnone⟩ := failure_append.mp (List.flatMap_cons ▸ hnone)
        exact hrest hz before y after htail hnone
    · intro hall
      refine ⟨hall [] x xs rfl rfl, fun hnone before y after heq hbefore => ?_⟩
      refine hall (x :: before) y after (congrArg (x :: ·) heq) ?_
      rw [List.flatMap_cons]
      exact failure_append.mpr ⟨hnone, hbefore⟩

theorem agrees_flatMap_iff_of_none {xs : List α} {f g : α → List Event}
    (h : ∀ x ∈ xs, Follows (ofEvents (f x)) (ofEvents (g x)))
    (hnone : ∀ x ∈ xs, (ofEvents (g x)).failure = none) :
    Agrees (ofEvents (xs.flatMap f)) (ofEvents (xs.flatMap g)) ↔
      ∀ x ∈ xs, Agrees (ofEvents (f x)) (ofEvents (g x)) := by
  rw [agrees_flatMap_iff h]
  constructor
  · intro hall x hx
    obtain ⟨before, after, rfl⟩ := List.append_of_mem hx
    refine hall before x after rfl (ofEvents_flatMap_of_none before g fun y hy => ?_).1
    exact hnone y (List.mem_append_left _ hy)
  · rintro hall before x after rfl -
    exact hall x (List.mem_append_right _ List.mem_cons_self)

end Search.Results

end CommentTags

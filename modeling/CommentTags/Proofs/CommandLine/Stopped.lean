import CommentTags.Proofs.CommandLine.Shown

namespace CommentTags.CommandLine

open Search (Event smallTree)
open Search.Results (ofEvents)

structure Page where
  output : List Char
  kept : List Tag

namespace Page

def empty : Page := ⟨[], []⟩

def add (zone : Int) (s : Settings) (page : Page) (t : Tag) : Except SearchError Page :=
  if s.shows t then
    if s.json then .ok { page with kept := page.kept ++ [t] }
    else (outputLine zone t).map fun line => { page with output := page.output ++ line }
  else .ok page

/-- Work off events, up to the first failure. What has been written before it stays. -/
def addAll (zone : Int) (s : Settings) (page : Page) :
    List Event → Page × Option SearchError
  | [] => (page, none)
  | .tag t :: es =>
    match page.add zone s t with
    | .ok page => page.addAll zone s es
    | .error e => (page, some e)
  | .notice _ :: es => page.addAll zone s es
  | .failed e :: _ => (page, some e)

end Page

variable {fs : FileSystem} {zone : Int} {arguments : List String} {s : Settings} {page page' : Page}
  {t : Tag} {ts : List Tag} {es : List Event} {e : SearchError}

namespace Page

end Page

/-- A text is made up of the lines of those tags that are wanted. -/
def AreLinesOf (zone : Int) (s : Settings) (ts : List Tag) (output : List Char) : Prop :=
  ∃ lines, List.Forall₂ (fun t line => outputLine zone t = .ok line) (ts.filter (s.Wants ·))
    lines ∧ output = lines.flatten

namespace Page

/-- The page after some tags: of those that are wanted it has the lines, or else it keeps them and
nothing has been written. -/
structure Holds (zone : Int) (s : Settings) (page : Page) (ts : List Tag) : Prop where
  document : s.json = true → page.output = [] ∧ page.kept = ts.filter (s.Wants ·)
  text : s.json = false → AreLinesOf zone s ts page.output

theorem Holds.add (h : Holds zone s page ts) (hadd : page.add zone s t = .ok page') :
    Holds zone s page' (ts ++ [t]) := by
  unfold Page.add at hadd
  by_cases hwants : s.Wants t
  · rw [if_pos ((s.shows_iff t).mpr hwants)] at hadd
    have hfilter : (ts ++ [t]).filter (s.Wants ·) = ts.filter (s.Wants ·) ++ [t] := by
      rw [List.filter_append, List.filter_cons, if_pos (decide_eq_true hwants), List.filter_nil]
    constructor
    · intro hjson
      obtain ⟨houtput, hkept⟩ := h.document hjson
      rw [if_pos hjson] at hadd
      obtain rfl := Except.ok.inj hadd
      exact ⟨houtput, by rw [hfilter, hkept]⟩
    · intro hjson
      obtain ⟨lines, hlines, houtput⟩ := h.text hjson
      rw [hjson, if_neg Bool.false_ne_true] at hadd
      obtain ⟨line, hline, rfl⟩ := exists_of_map_eq_ok hadd
      refine ⟨lines ++ [line], ?_, ?_⟩
      · rw [hfilter]
        exact List.rel_append hlines (.cons hline .nil)
      · rw [List.flatten_append, List.flatten_singleton, houtput]
  · rw [if_neg ((s.shows_iff t).not.mpr hwants)] at hadd
    have hfilter : (ts ++ [t]).filter (s.Wants ·) = ts.filter (s.Wants ·) := by
      rw [List.filter_append, List.filter_cons, if_neg (mt of_decide_eq_true hwants),
        List.filter_nil, List.append_nil]
    obtain rfl := Except.ok.inj hadd
    refine ⟨hfilter ▸ h.document, fun hjson => ?_⟩
    rw [AreLinesOf, hfilter]
    exact h.text hjson

theorem error_of_add (h : page.add zone s t = .error e) :
    s.Wants t ∧ s.json = false ∧ outputLine zone t = .error e := by
  unfold Page.add at h
  split at h
  · rename_i hshows
    split at h
    · cases h
    · rename_i hjson
      refine ⟨(s.shows_iff t).mp hshows, Bool.not_eq_true _ ▸ hjson, ?_⟩
      cases hline : outputLine zone t with
      | error e' =>
        rw [hline] at h
        exact congrArg _ (Except.error.inj h)
      | ok line =>
        rw [hline] at h
        cases h
  · cases h

/-- How far events have been worked off when writing them has ended: to the end, or up to a failure
among them, or up to a tag that cannot be shown. -/
inductive Reached (zone : Int) (s : Settings) (es : List Event) :
    List Tag → Option SearchError → Prop where
  | all : Reached zone s es (ofEvents es).tags (ofEvents es).failure
  | unshown {ts : List Tag} {t : Tag} {e : SearchError}
      (before : ts ++ [t] <+: (ofEvents es).tags) (wants : s.Wants t) (text : s.json = false)
      (error : outputLine zone t = .error e) : Reached zone s es ts (some e)

theorem Reached.tag {failure : Option SearchError} (h : Reached zone s es ts failure)
    (t : Tag) : Reached zone s (.tag t :: es) (t :: ts) failure := by
  cases h with
  | all => exact .all
  | unshown hbefore hwants hjson hline =>
    exact .unshown (List.cons_prefix_cons.mpr ⟨rfl, hbefore⟩) hwants hjson hline

theorem Reached.notice {failure : Option SearchError} (h : Reached zone s es ts failure)
    (n : Notice) : Reached zone s (.notice n :: es) ts failure := by
  cases h with
  | all => exact .all
  | unshown hbefore hwants hjson hline => exact .unshown hbefore hwants hjson hline

/-- Events add to a page the tags that have been reached. -/
theorem Holds.addAll (h : Holds zone s page ts) (es : List Event) :
    ∃ done, Reached zone s es done (page.addAll zone s es).2 ∧
      Holds zone s (page.addAll zone s es).1 (ts ++ done) := by
  have hnothing : Holds zone s page (ts ++ []) := (List.append_nil ts).symm ▸ h
  induction es generalizing page ts with
  | nil => exact ⟨[], .all, hnothing⟩
  | cons event es ih =>
    cases event with
    | tag t =>
      rw [Page.addAll]
      cases hadd : page.add zone s t with
      | error e =>
        obtain ⟨hwants, hjson, hline⟩ := error_of_add hadd
        exact ⟨[], .unshown (List.prefix_append [t] _) hwants hjson hline, hnothing⟩
      | ok page' =>
        have hadded := h.add hadd
        obtain ⟨done, hreached, hholds⟩ := ih hadded ((List.append_nil _).symm ▸ hadded)
        rw [List.append_assoc, List.singleton_append] at hholds
        exact ⟨t :: done, hreached.tag t, hholds⟩
    | notice n =>
      obtain ⟨done, hreached, hholds⟩ := ih h hnothing
      exact ⟨done, hreached.notice n, hholds⟩
    | failed e => exact ⟨[], .all, hnothing⟩

end Page

end CommentTags.CommandLine

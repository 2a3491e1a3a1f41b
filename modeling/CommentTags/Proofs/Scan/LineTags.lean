import CommentTags.Proofs.Marker.CallGrammar
import CommentTags.Proofs.Marker.CommentGrammar
import CommentTags.Scan.LineTag

namespace CommentTags

open Marker (CommentParts FirstCall IsLeftmost)

variable {g : Grammar} {p : Path} {n : Nat} {line : List Char} {t : Tag}

/-- The tag of a line: that of its first call where the grammar has calls, or else that of its
leftmost comment marker, unless a URL stands there. -/
inductive HasTag (p : Path) (n : Nat) (line : List Char) : Grammar → Tag → Prop
  | call {s : List Char} (h : FirstCall line s) :
    HasTag p n line .rust ⟨p, n, .todoCall, .ofList s, none⟩
  | comment {g : Grammar} {pre : List Char} {d : CommentParts}
    (hcall : g = .rust → ∀ s, ¬ FirstCall line s) (h : IsLeftmost line pre d)
    (hurl : Text.caselessKey (.ofList d.keyword) ∉ ["http", "https"]) :
    HasTag p n line g
      ⟨p, n, .ofKeyword (.ofList d.keyword), .ofList (Marker.tidyMessage d.message), none⟩

theorem callTag?_eq_some_iff :
    callTag? p n line = some t ↔
      ∃ s, FirstCall line s ∧ t = ⟨p, n, .todoCall, .ofList s, none⟩ := by
  unfold callTag?
  rw [Option.map_eq_some_iff]
  constructor
  · rintro ⟨s, hs, rfl⟩
    exact ⟨s, Marker.findTodoCall?_eq_some_iff.mp hs, rfl⟩
  · rintro ⟨s, hs, rfl⟩
    exact ⟨s, Marker.findTodoCall?_eq_some_iff.mpr hs, rfl⟩

theorem callTag?_eq_none_iff : callTag? p n line = none ↔ ∀ s, ¬ FirstCall line s := by
  rw [Option.eq_none_iff_forall_ne_some]
  constructor
  · exact fun h s hs => h _ (callTag?_eq_some_iff.mpr ⟨s, hs, rfl⟩)
  · rintro h t ht
    obtain ⟨s, hs, -⟩ := callTag?_eq_some_iff.mp ht
    exact h s hs

theorem commentTag?_eq_some_iff :
    commentTag? p n line = some t ↔ ∃ m, Marker.findComment? line = some m ∧
      Text.caselessKey (.ofList m.keyword) ∉ ["http", "https"] ∧
      t = ⟨p, n, .ofKeyword (.ofList m.keyword), .ofList (Marker.tidyMessage m.message), none⟩ := by
  cases hm : Marker.findComment? line with
  | none => simp [commentTag?, hm]
  | some m =>
    have heq : commentTag? p n line =
        if Text.caselessKey (.ofList m.keyword) ∈ ["http", "https"] then none
        else some ⟨p, n, .ofKeyword (.ofList m.keyword), .ofList (Marker.tidyMessage m.message),
          none⟩ := by
      rw [commentTag?, hm]
      rfl
    rw [heq]
    constructor
    · intro h
      split at h
      · cases h
      · rename_i hurl
        exact ⟨m, rfl, hurl, (Option.some.inj h).symm⟩
    · rintro ⟨m', hm', hurl, rfl⟩
      obtain rfl := Option.some.inj hm'
      rw [if_neg hurl]

theorem lineTag?_eq_some_iff (hline : '\n' ∉ line.dropLast) :
    lineTag? g p n line = some t ↔ HasTag p n line g t := by
  cases g with
  | rust =>
    rw [lineTag?, Option.or_eq_some_iff, callTag?_eq_some_iff, callTag?_eq_none_iff,
      commentTag?_eq_some_iff]
    constructor
    · rintro (⟨s, hs, rfl⟩ | ⟨hcall, m, hm, hurl, rfl⟩)
      · exact .call hs
      · obtain ⟨pre, d, hd, rfl⟩ := (Marker.findComment?_eq_some_iff hline).mp hm
        exact .comment (fun _ => hcall) hd hurl
    · intro h
      cases h with
      | call hs => exact Or.inl ⟨_, hs, rfl⟩
      | comment hcall hd hurl =>
        have hm := (Marker.findComment?_eq_some_iff hline).mpr ⟨_, _, hd, rfl⟩
        exact Or.inr ⟨hcall rfl, _, hm, hurl, rfl⟩
  | cLike =>
    rw [lineTag?, commentTag?_eq_some_iff]
    constructor
    · rintro ⟨m, hm, hurl, rfl⟩
      obtain ⟨pre, d, hd, rfl⟩ := (Marker.findComment?_eq_some_iff hline).mp hm
      exact .comment (fun h => by cases h) hd hurl
    · intro h
      cases h with
      | comment _ hd hurl =>
        exact ⟨_, (Marker.findComment?_eq_some_iff hline).mpr ⟨_, _, hd, rfl⟩, hurl, rfl⟩

theorem lineTag?_place (h : lineTag? g p n line = some t) :
    t.path = p ∧ t.line = n ∧ t.provenance = none := by
  have hcomment : ∀ t, commentTag? p n line = some t →
      t.path = p ∧ t.line = n ∧ t.provenance = none := by
    intro t ht
    obtain ⟨m, -, -, rfl⟩ := commentTag?_eq_some_iff.mp ht
    exact ⟨rfl, rfl, rfl⟩
  cases g with
  | rust =>
    obtain hc | ⟨-, hc⟩ := Option.or_eq_some_iff.mp h
    · obtain ⟨s, -, rfl⟩ := callTag?_eq_some_iff.mp hc
      exact ⟨rfl, rfl, rfl⟩
    · exact hcomment t hc
  | cLike => exact hcomment t h

/-- The tags of lines that are numbered from `n` on, at most one for each line. -/
def tagsFrom (g : Grammar) (p : Path) (n : Nat) (lines : List (List Char)) : List Tag :=
  (lines.zipIdx n).filterMap fun e => lineTag? g p e.2 e.1

theorem tagsFrom_cons (line : List Char) (lines : List (List Char)) :
    tagsFrom g p n (line :: lines) =
      (lineTag? g p n line).toList ++ tagsFrom g p (n + 1) lines := by
  unfold tagsFrom
  rw [List.zipIdx_cons, List.filterMap_cons]
  cases lineTag? g p n line <;> rfl

theorem tagsFrom_append (g : Grammar) (p : Path) (n : Nat) (lines more : List (List Char)) :
    tagsFrom g p n (lines ++ more) =
      tagsFrom g p n lines ++ tagsFrom g p (n + lines.length) more := by
  unfold tagsFrom
  rw [List.zipIdx_append, List.filterMap_append]

theorem mem_tagsFrom {lines : List (List Char)} :
    t ∈ tagsFrom g p n lines ↔ ∃ i l, lines[i]? = some l ∧ lineTag? g p (n + i) l = some t := by
  unfold tagsFrom
  rw [List.mem_filterMap]
  constructor
  · rintro ⟨⟨l, k⟩, hmem, ht⟩
    obtain ⟨hle, hl⟩ := List.mem_zipIdx_iff_le_and_getElem?_sub.mp hmem
    refine ⟨k - n, l, hl, ?_⟩
    rwa [Nat.add_sub_cancel' hle]
  · rintro ⟨i, l, hl, ht⟩
    refine ⟨(l, n + i), ?_, ht⟩
    rw [List.mem_zipIdx_iff_le_and_getElem?_sub, Nat.add_sub_cancel_left]
    exact ⟨Nat.le_add_right n i, hl⟩

theorem tagsFrom_pairwise (lines : List (List Char)) :
    (tagsFrom g p n lines).Pairwise fun a b => a.line < b.line := by
  induction lines generalizing n with
  | nil => exact .nil
  | cons l lines ih =>
    rw [tagsFrom_cons, List.pairwise_append]
    refine ⟨?_, ih, ?_⟩
    · cases lineTag? g p n l <;> simp
    · intro a ha b hb
      have hline := (lineTag?_place (Option.mem_toList.mp ha)).2.1
      obtain ⟨i, l', -, hb⟩ := mem_tagsFrom.mp hb
      have hline' := (lineTag?_place hb).2.1
      omega

end CommentTags

import CommentTags.Proofs.Report.JsonReader
import CommentTags.Proofs.Text.Cells.Measure
import CommentTags.Proofs.Text.Cut
import CommentTags.Report.Columns
import CommentTags.Report.Tabs

namespace CommentTags

namespace Report

open Text.Cells (cells blanks)

/-- What a text looks like that begins at some cell, once its tabs have been expanded. In the place
of a tab there is at least one blank, and there are as many as it takes to come to the next tab
stop. -/
inductive Expands : Nat → List Char → List Char → Prop
  | plain {cell : Nat} {s : List Char} (h : '\t' ∉ s) : Expands cell s s
  | tab {cell n : Nat} {part s expanded : List Char} (hpart : '\t' ∉ part)
    (hn : 1 ≤ n ∧ n ≤ 8) (hstop : 8 ∣ cell + cells (part ++ blanks n))
    (h : Expands (cell + cells (part ++ blanks n)) s expanded) :
    Expands cell (part ++ '\t' :: s) (part ++ blanks n ++ expanded)

theorem expands_expandFrom {part : List Char} (hpart : '\t' ∉ part) (cell : Nat) (s : List Char) :
    Expands cell (part.reverse ++ s) (expandFrom part cell s) := by
  induction s generalizing part cell with
  | nil =>
    rw [List.append_nil]
    exact .plain fun h => hpart (List.mem_reverse.mp h)
  | cons c s ih =>
    rw [expandFrom]
    split
    · rename_i htab
      subst htab
      have hpart' : '\t' ∉ part.reverse := fun h => hpart (List.mem_reverse.mp h)
      generalize hstop : cell + cells (part.reverse ++ [' ']) = stop
      have hblanks : part.reverse ++ [' '] ++ blanks (toTabStop stop) =
          part.reverse ++ blanks (toTabStop stop + 1) := by
        rw [List.append_assoc]
        rfl
      have hcells : cell + cells (part.reverse ++ blanks (toTabStop stop + 1)) =
          stop + toTabStop stop := by
        have hone : [' '] = blanks 1 := rfl
        rw [hone, Text.Cells.cells_append_blanks] at hstop
        rw [Text.Cells.cells_append_blanks, ← hstop]
        split <;> omega
      dsimp only
      rw [hstop, hblanks]
      refine .tab hpart' ?_ ?_ ?_
      · rw [toTabStop]
        omega
      · rw [hcells, toTabStop]
        omega
      · rw [hcells]
        exact ih List.not_mem_nil _
    · rename_i htab
      have hpart' : '\t' ∉ c :: part := by
        rw [List.mem_cons, not_or]
        exact ⟨Ne.symm htab, hpart⟩
      have hih := ih hpart' cell
      rwa [List.reverse_cons, List.append_assoc, List.singleton_append] at hih

theorem Expands.mem {cell : Nat} {s expanded : List Char} (h : Expands cell s expanded) {c : Char}
    (hc : c ∈ expanded) : c = ' ' ∨ c ∈ s ∧ c ≠ '\t' := by
  induction h with
  | plain h => exact Or.inr ⟨hc, fun heq => h (heq ▸ hc)⟩
  | @tab cell n part s expanded hpart hn hstop h ih =>
    obtain hc | hc := List.mem_append.mp hc
    · obtain hc | hc := List.mem_append.mp hc
      · exact Or.inr ⟨List.mem_append_left _ hc, fun heq => hpart (heq ▸ hc)⟩
      · exact Or.inl (List.eq_of_mem_replicate hc)
    · obtain hblank | ⟨hmem, htab⟩ := ih hc
      · exact Or.inl hblank
      · exact Or.inr ⟨List.mem_append_right _ (List.mem_cons_of_mem _ hmem), htab⟩

theorem expandTabs_of_not_mem {s : List Char} (h : '\n' ∉ s) :
    Expands 0 s (expandTabs s) ∧ '\n' ∉ expandTabs s := by
  have hexpand : expandTabs s = expandFrom [] 0 s := by
    by_cases hs : s = []
    · rw [hs, expandTabs, Text.cut_nil]
      rfl
    · rw [expandTabs, Text.cut_of_not_mem hs h, List.flatMap_singleton]
  have hexpands : Expands 0 s (expandTabs s) := hexpand ▸ expands_expandFrom List.not_mem_nil 0 s
  refine ⟨hexpands, fun hmem => ?_⟩
  obtain hblank | ⟨hmem, -⟩ := hexpands.mem hmem
  · cases hblank
  · exact h hmem

example : expandTabs "TODO:\tcafé\t\tx".toList = "TODO:   café            x".toList := by
  decide +kernel

theorem mem_fit {room : Nat} {us : List Text.Cells.TextUnit} {c : Char}
    (h : c ∈ Text.Cells.fit room us) : c ∈ Text.Cells.flatten us ∨ c = ' ' := by
  fun_induction Text.Cells.fit room us with
  | case1 => cases h
  | case2 => cases h
  | case3 room u us hfits ih =>
    obtain h | h := List.mem_append.mp h
    · exact Or.inl (List.mem_append_left _ h)
    · obtain h | h := ih h
      · exact Or.inl (List.mem_append_right _ h)
      · exact Or.inr h
  | case4 => exact Or.inr (List.mem_singleton.mp h)

theorem fitWidth_cases {s r : List Char} {width : Int}
    (h : Text.Cells.fitWidth s width = .ok r) :
    (∃ n, r = s ++ blanks n) ∨ s.all Text.Cells.isPlain ∧ (∃ n, r = s.take n) ∨ r = [] ∨
      0 < width ∧ r = Text.Cells.fit width.toNat (Text.Cells.units s) := by
  unfold Text.Cells.fitWidth at h
  split at h
  · rename_i hplain
    obtain rfl := Except.ok.inj h
    split
    · exact Or.inl ⟨_, rfl⟩
    · unfold Text.Cells.takeInt
      split <;> exact Or.inr (Or.inl ⟨hplain, _, rfl⟩)
  · split at h
    · exact Or.inr (Or.inr (Or.inl (Except.ok.inj h).symm))
    · split at h
      · exact Or.inl ⟨_, (Except.ok.inj h).symm⟩
      · unfold Text.Cells.cutUnits at h
        split at h
        · exact Or.inr (Or.inr (Or.inr ⟨by omega, (Except.ok.inj h).symm⟩))
        · split at h <;> cases h

theorem mem_of_fitWidth {s r : List Char} {width : Int} {c : Char}
    (h : Text.Cells.fitWidth s width = .ok r) (hc : c ∈ r) : c ∈ s ∨ c = ' ' := by
  obtain ⟨n, rfl⟩ | ⟨-, n, rfl⟩ | rfl | ⟨-, rfl⟩ := fitWidth_cases h
  · exact (List.mem_append.mp hc).imp_right List.eq_of_mem_replicate
  · exact Or.inl (List.mem_of_mem_take hc)
  · cases hc
  · have hmem := mem_fit hc
    rwa [Text.Cells.flatten_units] at hmem

theorem fitWidth_of_headingColumn {width : Int} {t : Tag} {heading : String}
    (h : headingColumn width t = .ok heading) :
    Text.Cells.fitWidth t.heading.toList width = .ok heading.toList := by
  unfold headingColumn at h
  cases hfit : Text.Cells.fitWidth t.heading.toList width with
  | error e => rw [hfit] at h; cases h
  | ok r =>
    rw [hfit] at h
    rw [← Except.ok.inj h, String.toList_ofList]

theorem columns_of_ok {zone width : Int} {t : Tag} {heading time : String}
    (hheading : headingColumn width t = .ok heading) (htime : changedColumn zone t = .ok time) :
    columns zone width t = .ok (heading, time) := by
  rw [columns, hheading, htime]
  rfl

theorem columns_map_eq_ok {α : Type} {f : String × String → α} {zone width : Int} {t : Tag}
    {line : α} (h : (columns zone width t).map f = .ok line) :
    ∃ heading time, headingColumn width t = .ok heading ∧ changedColumn zone t = .ok time ∧
      line = f (heading, time) := by
  unfold columns at h
  cases hheading : headingColumn width t with
  | error e => rw [hheading] at h; cases h
  | ok heading =>
    cases htime : changedColumn zone t with
    | error e => rw [hheading, htime] at h; cases h
    | ok time =>
      rw [hheading, htime] at h
      exact ⟨heading, time, rfl, rfl, (Except.ok.inj h).symm⟩

theorem newline_not_mem_append {s w : String} :
    '\n' ∉ (s ++ w).toList ↔ '\n' ∉ s.toList ∧ '\n' ∉ w.toList := by
  rw [String.toList_append, List.mem_append, not_or]

/-- A text without any of the control characters in front of the blank. -/
def Graphic (s : String) : Prop :=
  ∀ c ∈ s.toList, ' '.toNat ≤ c.toNat

instance (s : String) : Decidable (Graphic s) :=
  List.decidableBAll _ s.toList

theorem Graphic.newline_not_mem {s : String} (h : Graphic s) : '\n' ∉ s.toList :=
  fun hmem => absurd (h _ hmem) (by decide)

theorem graphic_append {s w : String} : Graphic (s ++ w) ↔ Graphic s ∧ Graphic w := by
  rw [Graphic, String.toList_append, List.forall_mem_append]
  rfl

theorem graphic_of_toDigits {s : String} {n : Nat} (h : s.toList = Nat.toDigits 10 n) :
    Graphic s := by
  intro c hc
  rw [h] at hc
  have hdigit : c.isDigit = true := Nat.isDigit_of_mem_toDigits (by decide) (by decide) hc
  rw [Char.isDigit_iff_toNat] at hdigit
  exact (by decide : ' '.toNat ≤ '0'.toNat).trans hdigit.1

theorem graphic_toString (n : Int) : Graphic (toString n) := by
  cases n with
  | ofNat m => exact graphic_of_toDigits (Json.toList_toString_ofNat m)
  | negSucc m =>
    intro c hc
    rw [Json.toList_toString_negSucc, ← String.toList_ofList (l := Nat.toDigits _ _)] at hc
    obtain rfl | hc := List.mem_cons.mp hc
    · decide
    · exact graphic_of_toDigits String.toList_ofList c hc

theorem graphic_padded (width n : Nat) : Graphic (Time.padded width n) := by
  rw [Time.padded, graphic_append]
  refine ⟨fun c hc => ?_, graphic_of_toDigits Nat.toList_repr⟩
  rw [String.toList_ofList] at hc
  obtain rfl := List.eq_of_mem_replicate hc
  decide

theorem graphic_localText {zone : Int} {m : Time.Moment} {text : String}
    (h : m.localText zone = .ok text) : Graphic text := by
  unfold Time.Moment.localText at h
  dsimp only at h
  split at h
  · obtain rfl := Except.ok.inj h
    have hmarks : Graphic "-" ∧ Graphic " " ∧ Graphic ":" := by decide
    simp only [graphic_append, graphic_toString, Time.dayText, Time.clockText, graphic_padded,
      hmarks, and_self]
  · cases h

theorem graphic_changedColumn {zone : Int} {t : Tag} {time : String}
    (h : changedColumn zone t = .ok time) : Graphic time := by
  unfold changedColumn at h
  split at h
  · obtain rfl := Except.ok.inj h
    exact fun _ hc => absurd hc List.not_mem_nil
  · exact graphic_localText h

theorem StyledText.mem_plain_append {s : StyledText} {piece : String} {style : Option String}
    {c : Char} (h : c ∈ (s.append piece style).plain) : c ∈ s.plain ∨ c ∈ piece.toList :=
  (List.mem_append.mp h).imp_right fun h => (List.mem_filter.mp h).1

theorem newline_not_mem_styledLine {zone width : Int} {t : Tag} {styled : StyledText}
    (hheading : '\n' ∉ t.heading.toList) (hpath : '\n' ∉ t.path.toString.toList)
    (h : styledLine zone width t = .ok styled) : '\n' ∉ styled.plain := by
  obtain ⟨heading, time, hcut, htime, rfl⟩ := columns_map_eq_ok h
  have hcolumn : '\n' ∉ heading.toList := by
    intro hmem
    obtain hmem | hblank := mem_of_fitWidth (fitWidth_of_headingColumn hcut) hmem
    · exact hheading hmem
    · cases hblank
  have hchanged : '\n' ∉ (" " ++ time ++ " ").toList := by
    have hspace : '\n' ∉ " ".toList := by decide
    rw [newline_not_mem_append, newline_not_mem_append]
    exact ⟨⟨hspace, (graphic_changedColumn htime).newline_not_mem⟩, hspace⟩
  have hplace : '\n' ∉ t.place.toList := by
    rw [Tag.place, newline_not_mem_append, newline_not_mem_append]
    exact ⟨⟨hpath, by decide⟩, (graphic_toString t.line).newline_not_mem⟩
  intro hmem
  obtain hmem | hmem := StyledText.mem_plain_append hmem
  · obtain hmem | hmem := StyledText.mem_plain_append hmem
    · obtain hmem | hmem := StyledText.mem_plain_append hmem
      · cases hmem
      · exact hcolumn hmem
    · exact hchanged hmem
  · exact hplace hmem

end Report

end CommentTags

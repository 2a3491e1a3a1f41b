import CommentTags.Proofs.Report.Lines
import CommentTags.Proofs.Text.Cells.FitWidth

namespace CommentTags.Report

open Text.Cells

variable {s : List Char} {c : Char} {u v : TextUnit} {last : Option Char}

/-- A text without bells, backspaces, vertical tabs, form feeds and carriage returns. -/
def withoutControls (s : List Char) : List Char :=
  s.filter fun c => c.toNat ∉ [7, 8, 11, 12, 13]

theorem filter_not_isDropped (s : List Char) : s.filter (!isDropped ·) = withoutControls s := by
  refine List.filter_congr fun c _ => ?_
  simp [isDropped, Bool.and_assoc]

theorem withoutControls_append (s w : String) :
    withoutControls (s ++ w).toList = withoutControls s.toList ++ withoutControls w.toList := by
  rw [String.toList_append, withoutControls, List.filter_append]
  rfl

theorem withoutControls_eq_self (h : ∀ c ∈ s, c.toNat ∉ [7, 8, 11, 12, 13]) :
    withoutControls s = s :=
  List.filter_eq_self.mpr fun c hc => decide_eq_true (h c hc)

theorem Graphic.withoutControls_eq {w : String} (h : Graphic w) :
    withoutControls w.toList = w.toList := by
  refine withoutControls_eq_self fun c hc hmem => ?_
  have hle : 32 ≤ c.toNat := h c hc
  simp only [List.mem_cons, List.not_mem_nil, or_false] at hmem
  omega

def Lasting (s : List Char) : Prop :=
  ∃ c ∈ s, isDropped c = false

theorem lasting_iff : Lasting s ↔ withoutControls s ≠ [] := by
  rw [← filter_not_isDropped, ne_eq, List.filter_eq_nil_iff]
  simp [Lasting]

theorem Lasting.mono {w : List Char} (h : Lasting s) (hsub : s ⊆ w) : Lasting w := by
  obtain ⟨c, hc, hkept⟩ := h
  exact ⟨c, hsub hc, hkept⟩

theorem isDropped_of_width (h : charWidth c ≠ 0) : isDropped c = false := by
  by_contra hdropped
  apply h
  have hzero : inRanges zeroRanges c = true := by
    refine List.any_eq_true.mpr ⟨(0x0, 0x1F), List.mem_cons_self, ?_⟩
    simp only [isDropped, Bool.not_eq_false, Bool.or_eq_true, decide_eq_true_eq] at hdropped
    simp only [Bool.and_eq_true, decide_eq_true_eq]
    omega
  rw [charWidth, hzero]
  rfl

def ShowsCells (u : TextUnit) : Prop :=
  u.cells ≠ 0 → Lasting u.chars

theorem ShowsCells.extend (h : ShowsCells u) (w : List Char) : ShowsCells (u.extend w 0) :=
  fun hcells => (h hcells).mono (List.subset_append_left _ _)

theorem showsCells_singleton (c : Char) : ShowsCells ⟨[c], charWidth c⟩ :=
  fun hcells => ⟨c, List.mem_singleton_self c, isDropped_of_width hcells⟩

theorem showsCells_of_mem_unitsAfter (hu : ShowsCells u) (hv : v ∈ unitsAfter u last s) :
    ShowsCells v := by
  fun_induction unitsAfter u last s with
  | case1 u last => exact List.mem_singleton.mp hv ▸ hu
  | case2 u last => exact List.mem_singleton.mp hv ▸ hu.extend _
  | case3 u last d s ih => exact ih (hu.extend _) hv
  | case4 u last s hbonus hjoiner ih => exact ih (hu.extend _) hv
  | case5 u last s hbonus hjoiner ih =>
    have hselector : selector ∈ (u.extend [selector] 1).chars :=
      List.mem_append_right _ (List.mem_singleton_self _)
    exact ih (fun _ => ⟨selector, hselector, by decide⟩) hv
  | case6 u last c s hjoiner hselector hzero ih => exact ih (hu.extend _) hv
  | case7 u last c s hjoiner hselector hzero ih =>
    obtain rfl | hv := List.mem_cons.mp hv
    · exact hu
    · exact ih (showsCells_singleton c) hv

theorem showsCells_of_mem_units (hv : v ∈ units s) : ShowsCells v := by
  cases s with
  | nil => cases hv
  | cons c s => exact showsCells_of_mem_unitsAfter (showsCells_singleton c) hv

theorem lasting_flatten {us : List TextUnit} (hus : ∀ u ∈ us, ShowsCells u)
    (h : totalCells us ≠ 0) : Lasting (flatten us) := by
  induction us with
  | nil => exact absurd rfl h
  | cons u us ih =>
    obtain ⟨hu, hus⟩ := List.forall_mem_cons.mp hus
    rw [flatten_cons]
    by_cases hcells : u.cells = 0
    · rw [totalCells_cons, hcells, Nat.zero_add] at h
      exact (ih hus h).mono (List.subset_append_right _ _)
    · exact (hu hcells).mono (List.subset_append_left _ _)

theorem lasting_blank {s : List Char} (h : ' ' ∈ s) : Lasting s :=
  ⟨' ', h, by decide⟩

theorem lasting_fit {room : Nat} (hs : Lasting s) (hroom : room ≠ 0) :
    Lasting (fit room (units s)) := by
  obtain ⟨hfit, hfull⟩ | ⟨hfit, -⟩ := fit_cases room (units s)
  · rw [hfit]
    obtain hfull | hall := hfull
    · have hfitting := fitting_prefix room (units s)
      refine lasting_flatten (fun u hu => ?_) (hfull.trans_ne hroom)
      exact showsCells_of_mem_units (hfitting.subset hu)
    · rwa [hall, flatten_units]
  · rw [hfit]
    exact lasting_blank (List.mem_append_right _ (List.mem_singleton_self _))

theorem lasting_of_fitWidth {r : List Char} {width : Int} (hs : Lasting s)
    (hr : fitWidth s width = .ok r) (hnil : r ≠ []) : Lasting r := by
  obtain ⟨n, rfl⟩ | ⟨hplain, n, rfl⟩ | rfl | ⟨hpos, rfl⟩ := fitWidth_cases hr
  · exact hs.mono (List.subset_append_left _ _)
  · obtain ⟨c, hc⟩ := List.exists_mem_of_ne_nil _ hnil
    refine ⟨c, hc, isDropped_of_width ?_⟩
    rw [charWidth_of_isPlain (List.all_eq_true.mp hplain c (List.mem_of_mem_take hc))]
    decide
  · exact absurd rfl hnil
  · exact lasting_fit hs (by omega)

theorem lasting_headingColumn {width : Int} {t : Tag} {heading : String}
    (h : headingColumn width t = .ok heading) (hne : heading ≠ "") : Lasting heading.toList := by
  refine lasting_of_fitWidth (lasting_blank ?_) (fitWidth_of_headingColumn h) fun hnil => hne ?_
  · simp [Tag.heading]
  · exact String.toList_injective hnil

theorem exists_headingColumn {t : Tag} (h : ¬ [joiner, joiner] <+: t.heading.toList)
    (width : Int) : ∃ heading, headingColumn width t = .ok heading := by
  have hfit : ∃ r, fitWidth t.heading.toList width = .ok r := by
    cases width with
    | ofNat n => exact exists_fitWidth fun hjoiners => absurd hjoiners h
    | negSucc n =>
      unfold fitWidth
      split
      · exact ⟨_, rfl⟩
      · exact ⟨[], if_pos (by omega)⟩
  obtain ⟨r, hr⟩ := hfit
  exact ⟨String.ofList r, by rw [headingColumn, hr]; rfl⟩

theorem lasting_place (t : Tag) : Lasting t.place.toList := by
  refine ⟨':', ?_, by decide⟩
  simp [Tag.place]

theorem StyledText.plain_append (s : StyledText) (piece : String) (style : Option String) :
    (s.append piece style).plain = s.plain ++ withoutControls piece.toList := by
  rw [append, filter_not_isDropped]

theorem StyledText.spans_append_none (s : StyledText) (piece : String) :
    (s.append piece none).spans = s.spans := by
  rw [append, Option.toList_none, List.map_nil, ite_self, List.append_nil]

theorem StyledText.spans_append_some (s : StyledText) (piece style : String) :
    (s.append piece (some style)).spans = s.spans ++
      if piece = "" then []
      else [⟨s.plain.length, s.plain.length + (withoutControls piece.toList).length, style⟩] := by
  rw [append, filter_not_isDropped]
  rfl

theorem eq_empty_iff_of_lasting {piece : String} (h : piece ≠ "" → Lasting piece.toList) :
    piece = "" ↔ withoutControls piece.toList = [] := by
  constructor
  · rintro rfl
    rfl
  · intro hnil
    by_contra hne
    exact lasting_iff.mp (h hne) hnil

/-- What a styled line makes of a plain one with these columns. -/
structure StyledAs (t : Tag) (heading time line : String) (s : StyledText) : Prop where
  plain_eq : s.plain = withoutControls line.toList
  plain_same : (∀ c ∈ line.toList, c.toNat ∉ [7, 8, 11, 12, 13]) → s.plain = line.toList
  columns : s.plain = withoutControls heading.toList ++ (" " ++ time ++ " ").toList ++
    withoutControls t.place.toList
  /-- The time and the blanks around it are all that has no style. -/
  spans :
    let shown := withoutControls heading.toList
    s.spans = (if shown = [] then [] else [⟨0, shown.length, styleOf t.kind⟩]) ++
      [⟨shown.length + (" " ++ time ++ " ").length, s.plain.length, "dim"⟩]
  inBounds : ∀ span ∈ s.spans, span.first < span.last ∧ span.last ≤ s.plain.length
  inOrder : s.spans.Pairwise fun a b => a.last ≤ b.first

theorem styledAs_of_columns {t : Tag} {heading time line : String} {s : StyledText}
    (hline : s.plain = withoutControls line.toList)
    (hcolumns : s.plain = withoutControls heading.toList ++ (" " ++ time ++ " ").toList ++
      withoutControls t.place.toList)
    (hspans : let shown := withoutControls heading.toList
      s.spans = (if shown = [] then [] else [⟨0, shown.length, styleOf t.kind⟩]) ++
        [⟨shown.length + (" " ++ time ++ " ").length, s.plain.length, "dim"⟩]) :
    StyledAs t heading time line s := by
  have hplace := List.length_pos_iff.mpr (lasting_iff.mp (lasting_place t))
  have hlength := congrArg List.length hcolumns
  rw [List.length_append, List.length_append, String.length_toList] at hlength
  refine ⟨hline, fun h => hline.trans (withoutControls_eq_self h), hcolumns, hspans, ?_, ?_⟩
  · rw [hspans]
    intro span hspan
    obtain hspan | hspan := List.mem_append.mp hspan
    · split at hspan
      · cases hspan
      · rename_i hheading
        have hpos := List.length_pos_iff.mpr hheading
        rw [List.mem_singleton.mp hspan]
        dsimp only
        omega
    · rw [List.mem_singleton.mp hspan]
      dsimp only
      omega
  · rw [hspans]
    split
    · exact List.pairwise_singleton _ _
    · rw [List.singleton_append, List.pairwise_pair]
      dsimp only
      omega

theorem graphic_gap {zone : Int} {t : Tag} {time : String} (h : changedColumn zone t = .ok time) :
    Graphic (" " ++ time ++ " ") := by
  have hblank : Graphic " " := by decide
  simp only [graphic_append, hblank, graphic_changedColumn h, and_self]

theorem exists_styledLine {zone width : Int} {t : Tag} {heading time : String}
    (hheading : headingColumn width t = .ok heading) (htime : changedColumn zone t = .ok time) :
    let shown := withoutControls heading.toList
    let gap := " " ++ time ++ " "
    ∃ s, styledLine zone width t = .ok s ∧
      s.plain = shown ++ gap.toList ++ withoutControls t.place.toList ∧
      s.spans = (if shown = [] then [] else [⟨0, shown.length, styleOf t.kind⟩]) ++
        [⟨shown.length + gap.length, s.plain.length, "dim"⟩] := by
  intro shown gap
  have hgap : withoutControls gap.toList = gap.toList := (graphic_gap htime).withoutControls_eq
  have hshown := eq_empty_iff_of_lasting (lasting_headingColumn hheading)
  have hplace : t.place ≠ "" := by
    intro hnil
    obtain ⟨c, hc, -⟩ := lasting_place t
    rw [hnil] at hc
    cases hc
  refine ⟨_, by rw [styledLine, columns_of_ok hheading htime]; rfl, ?_, ?_⟩
  · simp only [StyledText.plain_append, hgap, List.nil_append, shown, gap]
  · simp only [StyledText.spans_append_some, StyledText.spans_append_none, StyledText.plain_append,
      hgap, hshown, if_neg hplace, List.nil_append, List.length_append, List.length_nil,
      Nat.zero_add, String.length_toList, shown, gap]

/-- A line with styles shows what the plain line does, without the control characters in it. The
heading has the style of its kind, unless nothing is left of it, the place is dim up to the end of
the line, and the time with the blanks around it is exactly what lies between them. Neither line can
be had of a heading that cannot be cut, and such a heading begins with two joiners. -/
theorem styledLine_agrees_with_plainLine (zone width : Int) (t : Tag) (time : String)
    (h : changedColumn zone t = .ok time) :
    (∀ heading, headingColumn width t = .ok heading →
      ∃ line s, plainLine zone width t = .ok line ∧ styledLine zone width t = .ok s ∧
        StyledAs t heading time line s) ∧
    (∀ e, headingColumn width t = .error e →
      plainLine zone width t = .error (.heading e) ∧
        styledLine zone width t = .error (.heading e) ∧ [joiner, joiner] <+: t.heading.toList) := by
  refine ⟨fun heading hheading => ?_, fun e he => ⟨?_, ?_, ?_⟩⟩
  · obtain ⟨s, hs, hplain, hspans⟩ := exists_styledLine hheading h
    have hline : plainLine zone width t = .ok (heading ++ (" " ++ time ++ " ") ++ t.place) := by
      rw [plainLine, columns_of_ok hheading h]
      simp only [String.append_assoc]
      rfl
    refine ⟨_, s, hline, hs, styledAs_of_columns ?_ hplain hspans⟩
    rw [hplain, withoutControls_append, withoutControls_append, (graphic_gap h).withoutControls_eq]
  · rw [plainLine, columns, he]
    rfl
  · rw [styledLine, columns, he]
    rfl
  · by_contra hjoiners
    obtain ⟨heading, hheading⟩ := exists_headingColumn hjoiners width
    rw [he] at hheading
    cases hheading

def bellTag : Tag :=
  ⟨⟨.here, ["a\u0007.c"]⟩, 3, .hack, "b\u000bc",
    some ⟨⟨1600000000, 60, by decide, by decide, by decide⟩, "Ada"⟩⟩

theorem bellTag_styled :
    changedColumn 0 bellTag = .ok "2020-09-13 12:26:40" ∧
      plainLine 0 9 bellTag = .ok "HACK: b\u000bc  2020-09-13 12:26:40 a\u0007.c:3" ∧
      styledLine 0 9 bellTag = .ok ⟨"HACK: bc  2020-09-13 12:26:40 a.c:3".toList,
        [⟨0, 9, "grey70"⟩, ⟨30, 35, "dim"⟩]⟩ ∧
      "HACK: bc  2020-09-13 12:26:40 a.c:3".toList =
        withoutControls "HACK: b\u000bc  2020-09-13 12:26:40 a\u0007.c:3".toList := by
  have htime : changedColumn 0 bellTag = .ok "2020-09-13 12:26:40" := by decide +kernel
  have hplain : plainLine 0 9 bellTag =
      .ok "HACK: b\u000bc  2020-09-13 12:26:40 a\u0007.c:3" := by decide +kernel
  have hstyled : styledLine 0 9 bellTag = .ok ⟨"HACK: bc  2020-09-13 12:26:40 a.c:3".toList,
      [⟨0, 9, "grey70"⟩, ⟨30, 35, "dim"⟩]⟩ := by decide +kernel
  have hheading : headingColumn 9 bellTag = .ok "HACK: b\u000bc " := by decide +kernel
  obtain ⟨line, s, hline, hs, h⟩ :=
    (styledLine_agrees_with_plainLine 0 9 bellTag _ htime).1 _ hheading
  obtain rfl := Except.ok.inj (hplain.symm.trans hline)
  obtain rfl := Except.ok.inj (hstyled.symm.trans hs)
  exact ⟨htime, hplain, hstyled, h.plain_eq⟩

end CommentTags.Report

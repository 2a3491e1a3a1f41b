import CommentTags.Proofs.Report.Lines
import CommentTags.Proofs.Text.Cells.FitWidth

namespace CommentTags

namespace Text.Cells

variable {c : Char} {s r : List Char} {width : Nat}

theorem cells_padded_append_blanks (s : List Char) (width n : Nat) :
    cells (s ++ blanks (width - cells s) ++ blanks n) =
      cells s + (width - cells s + n - if Dangling s then 1 else 0) := by
  rw [List.append_assoc, blanks, blanks, List.replicate_append_replicate, ← blanks,
    cells_append_blanks]

theorem cells_fit_append_blanks (hlt : width < cells s) (hfront : ¬ JoinsAtFront s) (n : Nat) :
    cells (fit width (units s) ++ blanks n) = width + n := by
  obtain ⟨vs, hunits⟩ := fitting_prefix width (units s)
  have hcells := cells_flatten hunits.symm hfront
  have htotal := congrArg totalCells hunits
  rw [totalCells_append, totalCells_units hfront] at htotal
  have hle := totalCells_fitting_le width (units s)
  have hvs : vs ≠ [] := by
    rintro rfl
    have hnil : totalCells [] = 0 := rfl
    omega
  have hdangling := not_dangling_flatten hunits.symm hfront hvs
  obtain ⟨hfit, hfull | hall⟩ | ⟨hfit, ⟨u, ws, hus, hless, hcross⟩⟩ := fit_cases width (units s)
  · rw [hfit, cells_append_blanks, if_neg hdangling, hcells, hfull, Nat.sub_zero]
  · rw [hall] at hunits
    exact absurd (List.append_right_eq_self.mp hunits) hvs
  · have htwo := cells_le_two_of_mem_units
      (hus ▸ List.mem_append_right _ List.mem_cons_self : u ∈ units s)
    have hblanks : [' '] ++ blanks n = blanks (n + 1) := rfl
    rw [hfit, List.append_assoc, hblanks, cells_append_blanks, if_neg hdangling, hcells]
    omega

theorem fit_joiner_cons (hpos : 0 < width) (hc : charWidth c ≠ 0) (s : List Char) :
    fit width (units (joiner :: c :: s)) = joiner :: fit width (units (c :: s)) := by
  obtain ⟨room, rfl⟩ := Nat.exists_eq_add_one_of_ne_zero hpos.ne'
  rw [units_joiner_cons_of_width hc, fit, if_pos (Nat.zero_le _)]
  rfl

theorem exists_fit_cons (hpos : 0 < width) (hc : charWidth c ≠ 0)
    (hlt : width < cells (c :: s)) :
    ∃ d t, fit width (units (c :: s)) = d :: t ∧ charWidth d ≠ 0 := by
  have hfront := not_joinsAtFront_cons (ne_of_charWidth_ne_zero hc).1 s
  have hresult : fitWidth (c :: s) width = .ok (fit width (units (c :: s))) := by
    rw [fitWidth_of_lt hlt, cutUnits_of_le]
    rw [totalCells_units hfront]
    exact hlt.le
  obtain ⟨n, hn⟩ := exists_eq_kept_append_blanks hresult
  obtain ⟨t, ht⟩ := kept_prefix (c :: s) (fit width (units (c :: s)))
  have hcells := cells_fit_append_blanks hlt hfront 0
  generalize fit width (units (c :: s)) = result at *
  rw [hn]
  cases hkept : kept (c :: s) result with
  | cons d r =>
    rw [hkept] at ht
    obtain ⟨rfl, -⟩ := List.cons.inj ht
    exact ⟨d, r ++ blanks n, rfl, hc⟩
  | nil =>
    rw [hn, hkept] at hcells
    cases n with
    | zero => exact absurd hcells hpos.ne
    | succ n => exact ⟨' ', blanks n, rfl, by rw [charWidth_space]; decide⟩

theorem cells_fit_append_blanks_lt (hpos : 0 < width) (hlt : width < cells s)
    (hfront : JoinsAtFront s) (hjoiners : ¬ [joiner, joiner] <+: s) (n : Nat) :
    cells (fit width (units s) ++ blanks n) < width + n := by
  obtain ⟨c, s, rfl, hc⟩ := hfront.exists_cons hjoiners
  have hlt' := hlt.trans (cells_joiner_cons_lt hc s)
  have hcells := cells_fit_append_blanks hlt'
    (not_joinsAtFront_cons (ne_of_charWidth_ne_zero hc).1 s) n
  obtain ⟨d, t, ht, hd⟩ := exists_fit_cons hpos hc hlt'
  rw [fit_joiner_cons hpos hc, ht]
  rw [ht] at hcells
  exact (cells_joiner_cons_lt hd (t ++ blanks n)).trans_eq hcells

/-- A joiner gets in the way: at the end of a text that fits, if blanks come after it, or at the
beginning of one that is cut. `more` blanks come after the result. -/
def Disturbed (s : List Char) (width more : Nat) : Prop :=
  0 < width ∧ (cells s ≤ width ∧ cells s < width + more ∧ Dangling s ∨
    width < cells s ∧ JoinsAtFront s)

instance (s : List Char) (width more : Nat) : Decidable (Disturbed s width more) :=
  inferInstanceAs (Decidable (_ ∧ _))

theorem disturbed_of_le (hpos : 0 < width) (h : cells s ≤ width) (more : Nat) :
    Disturbed s width more ↔ cells s < width + more ∧ Dangling s := by
  simp only [Disturbed, hpos, h, Nat.not_lt.mpr h, true_and, false_and, or_false]

theorem disturbed_of_lt (hpos : 0 < width) (h : width < cells s) (more : Nat) :
    Disturbed s width more ↔ JoinsAtFront s := by
  simp only [Disturbed, hpos, h, Nat.not_le.mpr h, true_and, false_and, false_or]

/-- Undisturbed, a text is as wide as it should be, and otherwise it is narrower. -/
theorem cells_fitWidth_append_blanks (h : [joiner, joiner] <+: s → cells s ≤ width)
    (hr : fitWidth s width = .ok r) (n : Nat) :
    cells (r ++ blanks n) ≤ width + n ∧
      (cells (r ++ blanks n) = width + n ↔ ¬ Disturbed s width n) := by
  obtain ⟨hpos, hle, rfl⟩ | ⟨hcut, -, rfl⟩ := fitWidth_eq_ok hr
  · rw [cells_padded_append_blanks, disturbed_of_le hpos hle]
    split
    · rename_i hdangling
      simp only [hdangling, and_true]
      omega
    · rename_i hdangling
      simp only [hdangling, and_false, not_false_eq_true, iff_true]
      omega
  obtain rfl | hpos := Nat.eq_zero_or_pos width
  · rw [fit, List.nil_append, cells, cellsAfter_blanks, Nat.zero_add]
    exact ⟨Nat.le_refl n, fun _ hdisturbed => Nat.lt_irrefl 0 hdisturbed.1, fun _ => rfl⟩
  · have hlt : width < cells s := by omega
    rw [disturbed_of_lt hpos hlt]
    by_cases hfront : JoinsAtFront s
    · have hless := cells_fit_append_blanks_lt hpos hlt hfront
        (fun hjoiners => absurd (h hjoiners) (Nat.not_le.mpr hlt)) n
      exact ⟨hless.le, fun heq => absurd heq hless.ne, fun hnot => absurd hfront hnot⟩
    · rw [cells_fit_append_blanks hlt hfront]
      exact ⟨Nat.le_refl _, fun _ => hfront, fun _ => rfl⟩

theorem fitWidth_eq_self_iff (h : cells s ≤ width) :
    fitWidth s width = .ok s ↔ cells s = width ∧ (width = 0 → s = []) := by
  obtain rfl | hpos := Nat.eq_zero_or_pos width
  · rw [fitWidth_zero]
    constructor
    · intro heq
      exact ⟨Nat.le_zero.mp h, fun _ => (Except.ok.inj heq).symm⟩
    · intro heq
      rw [heq.2 rfl]
  · rw [fitWidth_of_le hpos h, Except.ok.injEq, List.append_right_eq_self, blanks,
      List.replicate_eq_nil_iff]
    omega

end Text.Cells

namespace Report

open Text.Cells

/-- A text that has been cut or padded to a width is no wider. It has this width, and is left as it
is by doing so once more, unless a joiner gets in the way; and so it is with the cell at which the
time begins in a line that shows a tag. -/
theorem fitWidth_meets_width (s : List Char) (width : Nat)
    (h : [joiner, joiner] <+: s → cells s ≤ width) :
    ∃ r, fitWidth s width = .ok r ∧ cells r ≤ width ∧
      (cells r = width ↔ ¬ Disturbed s width 0) ∧
      (fitWidth r width = .ok r ↔ ¬ Disturbed s width 0) ∧
      ∀ (zone : Int) (t : Tag) (line : String), t.heading.toList = s →
        plainLine zone width t = .ok line →
        ∃ heading time, headingColumn width t = .ok heading ∧ changedColumn zone t = .ok time ∧
          line = heading ++ " " ++ time ++ " " ++ t.place ∧
          (cells (heading ++ " ").toList = width + 1 ↔ ¬ Disturbed s width 1) := by
  obtain ⟨r, hr⟩ := exists_fitWidth h
  obtain ⟨hle, hiff⟩ := cells_fitWidth_append_blanks h hr 0
  have hnil : blanks 0 = [] := rfl
  rw [hnil, List.append_nil, Nat.add_zero] at hle hiff
  refine ⟨r, hr, hle, hiff, ?_, fun zone t line hs hline => ?_⟩
  · have hzero : width = 0 → r = [] := by
      rintro rfl
      exact Except.ok.inj (hr.symm.trans (fitWidth_zero s))
    rw [fitWidth_eq_self_iff hle, hiff]
    exact and_iff_left hzero
  · obtain ⟨heading, time, hheading, htime, rfl⟩ := columns_map_eq_ok hline
    refine ⟨heading, time, hheading, htime, rfl, ?_⟩
    rw [headingColumn, hs, hr] at hheading
    have hcolumn : (heading ++ " ").toList = r ++ blanks 1 := by
      rw [← Except.ok.inj hheading, String.toList_append, String.toList_ofList]
      rfl
    rw [hcolumn]
    exact (cells_fitWidth_append_blanks h hr 1).2

def wideTag : Tag := ⟨⟨.here, ["a.c"]⟩, 1, .todo, "日本語", none⟩

theorem wideTag_meets_width :
    plainLine 0 9 wideTag = .ok "TODO: 日   a.c:1" ∧
      ∃ heading, headingColumn 9 wideTag = .ok heading ∧ cells (heading ++ " ").toList = 10 := by
  have hline : plainLine 0 9 wideTag = .ok "TODO: 日   a.c:1" := by decide +kernel
  obtain ⟨-, -, -, -, -, hlines⟩ :=
    fitWidth_meets_width wideTag.heading.toList 9 (by decide +kernel)
  obtain ⟨heading, -, hheading, -, -, hcolumn⟩ := hlines 0 wideTag _ rfl hline
  exact ⟨hline, heading, hheading, hcolumn.mpr (by decide +kernel)⟩

/-- With a joiner at its end a text is padded by one cell too few, and by one more the next time;
and of a text that begins with one no more may be left than takes no cell at all. -/
theorem fitWidth_joiner_misses_width :
    (fitWidth ['a', joiner] 2 = .ok ['a', joiner, ' '] ∧ cells ['a', joiner, ' '] = 1 ∧
      fitWidth ['a', joiner, ' '] 2 = .ok ['a', joiner, ' ', ' ']) ∧
    fitWidth [joiner, 'a', 'b', 'c'] 1 = .ok [joiner, 'a'] ∧ cells [joiner, 'a'] = 0 := by
  decide +kernel

end Report

end CommentTags

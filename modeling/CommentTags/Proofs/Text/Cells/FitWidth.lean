import CommentTags.Proofs.Text.Cells.Units

namespace CommentTags.Text.Cells

variable {s : List Char} {width : Nat}

theorem cellsAfter_plain (h : ∀ c ∈ s, isPlain c = true) (last : Option Char) :
    cellsAfter last s = s.length := by
  induction s generalizing last with
  | nil => rfl
  | cons c s ih =>
    obtain ⟨hc, hs⟩ := List.forall_mem_cons.mp h
    have hwidth := charWidth_of_isPlain hc
    rw [cellsAfter_width (by rw [hwidth]; decide), hwidth, ih hs, List.length_cons, Nat.add_comm]

theorem fit_unitsAfter_plain (h : ∀ c ∈ s, isPlain c = true) (c : Char) (last : Option Char)
    (room : Nat) : fit room (unitsAfter ⟨[c], 1⟩ last s) = (c :: s).take room := by
  induction s generalizing c last room with
  | nil =>
    cases room with
    | zero => rw [fit, List.take_zero]
    | succ room =>
      have hend : fit room [] = [] := by cases room <;> rw [fit]
      rw [unitsAfter, fit, if_pos (Nat.le_add_left 1 room), Nat.add_sub_cancel, hend,
        List.take_succ_cons, List.take_nil]
      rfl
  | cons d s ih =>
    obtain ⟨hd, hs⟩ := List.forall_mem_cons.mp h
    have hwidth := charWidth_of_isPlain hd
    rw [unitsAfter_width (by rw [hwidth]; decide), hwidth]
    cases room with
    | zero => rw [fit, List.take_zero]
    | succ room =>
      rw [fit, if_pos (Nat.le_add_left 1 room), Nat.add_sub_cancel, ih hs, List.take_succ_cons]
      rfl

theorem fit_units_plain (h : ∀ c ∈ s, isPlain c = true) (room : Nat) :
    fit room (units s) = s.take room := by
  cases s with
  | nil => cases room <;> rw [units, fit, List.take_nil]
  | cons c s =>
    obtain ⟨hc, hs⟩ := List.forall_mem_cons.mp h
    rw [units, charWidth_of_isPlain hc, fit_unitsAfter_plain hs]

theorem totalCells_units_plain (h : ∀ c ∈ s, isPlain c = true) :
    totalCells (units s) = s.length := by
  rw [totalCells_units, cells, cellsAfter_plain h]
  cases s with
  | nil => exact id
  | cons c s =>
    refine not_joinsAtFront_cons (ne_of_charWidth_ne_zero ?_).1 s
    rw [charWidth_of_isPlain (h c List.mem_cons_self)]
    decide

theorem cutUnits_of_le {room : Nat} {us : List TextUnit} (h : room ≤ totalCells us) :
    cutUnits room us = .ok (fit room us) :=
  if_pos h

theorem cutUnits_of_lt {room : Nat} {us : List TextUnit} (h : totalCells us < room) :
    cutUnits room us = .error (if totalCells us = 0 then .noCells else .noUnit) := by
  rw [cutUnits, if_neg (Nat.not_le.mpr h)]
  split <;> rfl

/-- The way in which plain text is measured is no exception. -/
theorem fitWidth_eq (s : List Char) (width : Nat) :
    fitWidth s width =
      if 0 < width ∧ cells s ≤ width then .ok (s ++ blanks (width - cells s))
      else cutUnits width (units s) := by
  unfold fitWidth
  rw [Int.toNat_natCast]
  by_cases hplain : s.all isPlain = true
  · have hall := List.all_eq_true.mp hplain
    have hcells : cells s = s.length := cellsAfter_plain hall none
    rw [if_pos hplain, hcells]
    split
    · rename_i h
      rw [if_pos (by omega)]
    · rename_i h
      have htake : takeInt (width : Int) s = s.take width := rfl
      have hroom : width ≤ totalCells (units s) := by
        rw [totalCells_units_plain hall]
        omega
      rw [htake, cutUnits_of_le hroom, fit_units_plain hall]
      split
      · rename_i hfits
        have hlength : width = s.length := by omega
        rw [hlength, List.take_length, Nat.sub_self]
        exact congrArg Except.ok (List.append_nil s).symm
      · rfl
  · rw [if_neg hplain]
    cases width with
    | zero => rw [if_pos (by omega), if_neg (by omega), cutUnits_of_le (Nat.zero_le _), fit]
    | succ width =>
      rw [if_neg (by omega)]
      exact if_congr (by omega) rfl rfl

theorem fitWidth_of_le (hpos : 0 < width) (h : cells s ≤ width) :
    fitWidth s width = .ok (s ++ blanks (width - cells s)) := by
  rw [fitWidth_eq, if_pos ⟨hpos, h⟩]

theorem fitWidth_of_lt (h : width < cells s) : fitWidth s width = cutUnits width (units s) := by
  rw [fitWidth_eq, if_neg (by omega)]

theorem fitWidth_zero (s : List Char) : fitWidth s (0 : Nat) = .ok [] := by
  rw [fitWidth_eq, if_neg (by omega), cutUnits_of_le (Nat.zero_le _), fit]

theorem fitWidth_eq_error_iff {e : CutError} :
    fitWidth s width = .error e ↔ totalCells (units s) < width ∧ width < cells s ∧
      e = if totalCells (units s) = 0 then .noCells else .noUnit := by
  rw [fitWidth_eq]
  split
  · rename_i hfits
    exact ⟨fun h => (by cases h), fun h => absurd h.2.1 (Nat.not_lt.mpr hfits.2)⟩
  · rename_i hfits
    by_cases hroom : width ≤ totalCells (units s)
    · rw [cutUnits_of_le hroom]
      exact ⟨fun h => (by cases h), fun h => absurd h.1 (Nat.not_lt.mpr hroom)⟩
    · have hlt := Nat.lt_of_not_le hroom
      rw [cutUnits_of_lt hlt]
      constructor
      · intro h
        exact ⟨hlt, by omega, (Except.error.inj h).symm⟩
      · rintro ⟨-, -, rfl⟩
        rfl

theorem exists_fitWidth (h : [joiner, joiner] <+: s → cells s ≤ width) :
    ∃ r, fitWidth s width = .ok r := by
  cases hresult : fitWidth s width with
  | ok r => exact ⟨r, rfl⟩
  | error e =>
    obtain ⟨htotal, hcells, -⟩ := fitWidth_eq_error_iff.mp hresult
    have hle := cells_le_totalCells_units fun hjoiners => Nat.not_le.mpr hcells (h hjoiners)
    omega

theorem fitWidth_eq_ok {r : List Char} (h : fitWidth s width = .ok r) :
    (0 < width ∧ cells s ≤ width ∧ r = s ++ blanks (width - cells s)) ∨
      (¬ (0 < width ∧ cells s ≤ width) ∧ width ≤ totalCells (units s) ∧
        r = fit width (units s)) := by
  rw [fitWidth_eq] at h
  split at h
  · rename_i hfits
    exact Or.inl ⟨hfits.1, hfits.2, (Except.ok.inj h).symm⟩
  · rename_i hfits
    by_cases hroom : width ≤ totalCells (units s)
    · rw [cutUnits_of_le hroom] at h
      exact Or.inr ⟨hfits, hroom, (Except.ok.inj h).symm⟩
    · rw [cutUnits_of_lt (Nat.lt_of_not_le hroom)] at h
      cases h

/-- The longest beginning that two texts have in common. -/
def commonPrefix : List Char → List Char → List Char
  | c :: s, d :: t => if c = d then c :: commonPrefix s t else []
  | _, _ => []

theorem commonPrefix_append (r s t : List Char) :
    commonPrefix (r ++ s) (r ++ t) = r ++ commonPrefix s t := by
  induction r with
  | nil => rfl
  | cons c r ih => rw [List.cons_append, List.cons_append, commonPrefix, if_pos rfl, ih]; rfl

theorem commonPrefix_nil_right (s : List Char) : commonPrefix s [] = [] := by
  cases s <;> rfl

theorem commonPrefix_common (s t : List Char) :
    commonPrefix s t <+: s ∧ commonPrefix s t <+: t := by
  fun_induction commonPrefix s t with
  | case1 c s t ih =>
    exact ⟨List.cons_prefix_cons.mpr ⟨rfl, ih.1⟩, List.cons_prefix_cons.mpr ⟨rfl, ih.2⟩⟩
  | case2 => exact ⟨List.nil_prefix, List.nil_prefix⟩
  | case3 => exact ⟨List.nil_prefix, List.nil_prefix⟩

theorem prefix_commonPrefix {r s t : List Char} (hs : r <+: s) (ht : r <+: t) :
    r <+: commonPrefix s t := by
  obtain ⟨s, rfl⟩ := hs
  obtain ⟨t, rfl⟩ := ht
  exact ⟨_, (commonPrefix_append r s t).symm⟩

/-- What a result leaves of a text. -/
def kept (s r : List Char) : List Char :=
  commonPrefix r s

/-- The blank that stands in for a unit is none of the unit's own. -/
theorem commonPrefix_of_crosses (h : Crosses width (units s)) :
    commonPrefix (flatten (fitting width (units s)) ++ [' ']) s =
      flatten (fitting width (units s)) := by
  obtain ⟨u, vs, hunits, hlt, hcross⟩ := h.next
  have hs : s = flatten (fitting width (units s)) ++ (u.chars ++ flatten vs) := by
    rw [← flatten_cons, ← flatten_append, ← hunits, flatten_units]
  obtain ⟨c, r, hchars, hcells⟩ := bounded_of_mem_units
    (hunits ▸ List.mem_append_right _ List.mem_cons_self : u ∈ units s)
  have hspace : ' ' ≠ c := by
    rintro rfl
    rw [if_pos rfl] at hcells
    omega
  generalize fitting width (units s) = us at *
  rw [hs, commonPrefix_append, hchars, List.cons_append, commonPrefix, if_neg hspace,
    List.append_nil]

theorem kept_prefix (s r : List Char) : kept s r <+: s :=
  (commonPrefix_common _ _).2

theorem kept_append_blanks (s : List Char) (n : Nat) : kept s (s ++ blanks n) = s := by
  have happend := commonPrefix_append s (blanks n) []
  rwa [List.append_nil, commonPrefix_nil_right, List.append_nil] at happend

theorem kept_fit (s : List Char) (width : Nat) :
    kept s (fit width (units s)) = flatten (fitting width (units s)) := by
  have hprefix : flatten (fitting width (units s)) <+: s := by
    obtain ⟨vs, hvs⟩ := fitting_prefix width (units s)
    exact ⟨flatten vs, by rw [← flatten_append, hvs, flatten_units]⟩
  obtain ⟨hfit, -⟩ | ⟨hfit, hcrosses⟩ := fit_cases width (units s)
  · rw [hfit]
    exact (commonPrefix_common _ _).1.eq_of_length_le
      (prefix_commonPrefix List.prefix_rfl hprefix).length_le
  · rw [hfit]
    exact commonPrefix_of_crosses hcrosses

variable {r r' : List Char}

theorem kept_of_le (hr : fitWidth s width = .ok r) (hpos : 0 < width) (h : cells s ≤ width) :
    kept s r = s := by
  obtain ⟨-, -, rfl⟩ | ⟨hcut, -⟩ := fitWidth_eq_ok hr
  · exact kept_append_blanks s _
  · exact absurd ⟨hpos, h⟩ hcut

theorem kept_of_not_le (hr : fitWidth s width = .ok r) (h : ¬ (0 < width ∧ cells s ≤ width)) :
    kept s r = flatten (fitting width (units s)) := by
  obtain ⟨hpos, hle, -⟩ | ⟨-, -, rfl⟩ := fitWidth_eq_ok hr
  · exact absurd ⟨hpos, hle⟩ h
  · exact kept_fit s width

theorem exists_eq_kept_append_blanks (hr : fitWidth s width = .ok r) :
    ∃ n, r = kept s r ++ blanks n := by
  obtain ⟨-, -, rfl⟩ | ⟨-, -, rfl⟩ := fitWidth_eq_ok hr
  · exact ⟨_, by rw [kept_append_blanks]⟩
  · rw [kept_fit]
    obtain ⟨hfit, -⟩ | ⟨hfit, -⟩ := fit_cases width (units s)
    · exact ⟨0, hfit.trans (List.append_nil _).symm⟩
    · exact ⟨1, hfit⟩

theorem kept_mono {narrow wide : Nat} (h : narrow ≤ wide) (hr : fitWidth s narrow = .ok r)
    (hr' : fitWidth s wide = .ok r') : kept s r <+: kept s r' := by
  by_cases hwide : 0 < wide ∧ cells s ≤ wide
  · rw [kept_of_le hr' hwide.1 hwide.2]
    exact kept_prefix s r
  · rw [kept_of_not_le hr (by omega), kept_of_not_le hr' hwide]
    obtain ⟨vs, hvs⟩ := fitting_mono h (units s)
    exact ⟨flatten vs, by rw [← flatten_append, hvs]⟩

/-- Where a text is cut: between two units, or in the middle of a unit of two cells, of which the
first is then a blank. -/
structure CutAt (s : List Char) (width : Nat) (r : List Char) (us vs : List TextUnit) : Prop where
  units : units s = us ++ vs
  kept : kept s r = flatten us
  whole_or_blank : totalCells us = width ∧ r = Cells.kept s r ∨
    (∃ u, vs.head? = some u ∧ u.cells = 2) ∧ totalCells us + 1 = width ∧
      r = Cells.kept s r ++ [' ']

structure Fitted (s : List Char) (width : Nat) (r : List Char) : Prop where
  kept_prefix : kept s r <+: s
  longest : ∀ t, t <+: r → t <+: s → t <+: kept s r
  blanks : ∃ n, r = kept s r ++ blanks n
  padded : 0 < width → cells s ≤ width → r = s ++ Cells.blanks (width - cells s)
  zero : width = 0 → r = []
  cut : width < cells s → ∃ us vs, CutAt s width r us vs

theorem exists_cutAt (hr : fitWidth s width = .ok r) (h : width < cells s) :
    ∃ us vs, CutAt s width r us vs := by
  have hkept := kept_of_not_le hr (by omega)
  obtain ⟨-, hle, -⟩ | ⟨-, hroom, rfl⟩ := fitWidth_eq_ok hr
  · exact absurd h (Nat.not_lt.mpr hle)
  obtain ⟨hfit, hfull⟩ | ⟨hfit, ⟨u, vs, hus, hless, hcross⟩⟩ := fit_cases width (units s)
  · have hwhole : fit width (units s) = kept s (fit width (units s)) := by rw [hkept, hfit]
    obtain ⟨vs, hunits⟩ := fitting_prefix width (units s)
    refine ⟨_, vs, hunits.symm, hkept, Or.inl ⟨?_, hwhole⟩⟩
    obtain hfull | hall := hfull
    · exact hfull
    · have hle := totalCells_fitting_le width (units s)
      rw [hall] at hle ⊢
      exact hle.antisymm hroom
  · have htwo := cells_le_two_of_mem_units
      (hus ▸ List.mem_append_right _ List.mem_cons_self : u ∈ units s)
    refine ⟨_, u :: vs, hus, hkept, Or.inr ⟨⟨u, rfl, by omega⟩, by omega, ?_⟩⟩
    rw [hkept, hfit]

theorem fitted_of_fitWidth (hr : fitWidth s width = .ok r) : Fitted s width r := by
  constructor
  case kept_prefix => exact kept_prefix s r
  case longest => exact fun t hresult hs => prefix_commonPrefix hresult hs
  case blanks => exact exists_eq_kept_append_blanks hr
  case padded =>
    intro hpos hle
    exact Except.ok.inj (hr.symm.trans (fitWidth_of_le hpos hle))
  case zero =>
    rintro rfl
    exact Except.ok.inj (hr.symm.trans (fitWidth_zero s))
  case cut => exact exists_cutAt hr

theorem cells_kept_le (h : ¬ [joiner, joiner] <+: s) (hr : fitWidth s width = .ok r) :
    cells (kept s r) ≤ width := by
  by_cases hfits : 0 < width ∧ cells s ≤ width
  · rw [kept_of_le hr hfits.1 hfits.2]
    exact hfits.2
  · obtain ⟨vs, hunits⟩ := fitting_prefix width (units s)
    obtain ⟨hkept, hprefix⟩ := units_flatten hunits.symm
    rw [kept_of_not_le hr hfits]
    calc cells (flatten (fitting width (units s)))
        ≤ totalCells (units (flatten (fitting width (units s)))) :=
          cells_le_totalCells_units fun hjoiners => h (hjoiners.trans hprefix)
      _ = totalCells (fitting width (units s)) := by rw [hkept]
      _ ≤ width := totalCells_fitting_le width (units s)

/-- Cutting and padding neither alter nor reorder a text. They keep a beginning of it, of which more
is left the more room there is, and put blanks after it: as many as are missing, or one for half of
a unit. This fails exactly for a text that is to be cut behind the last of its units. It works, and
what is kept takes no more than the room, unless the text begins with two joiners. -/
theorem fitWidth_keeps_beginning (s : List Char) :
    (∀ (width : Nat) r, fitWidth s width = .ok r → Fitted s width r) ∧
    (∀ (narrow wide : Nat) r r', narrow ≤ wide → fitWidth s narrow = .ok r →
      fitWidth s wide = .ok r' → kept s r <+: kept s r') ∧
    (∀ (width : Nat) e, fitWidth s width = .error e ↔
      totalCells (units s) < width ∧ width < cells s ∧
        e = if totalCells (units s) = 0 then .noCells else .noUnit) ∧
    (¬ [joiner, joiner] <+: s → cells s ≤ totalCells (units s) ∧
      ∀ width : Nat, ∃ r, fitWidth s width = .ok r ∧ cells (kept s r) ≤ width) := by
  refine ⟨fun width r hr => fitted_of_fitWidth hr, fun narrow wide r r' h hr hr' => ?_,
    fun width e => fitWidth_eq_error_iff, fun hjoiners => ⟨?_, fun width => ?_⟩⟩
  · exact kept_mono h hr hr'
  · exact cells_le_totalCells_units hjoiners
  · obtain ⟨r, hr⟩ := exists_fitWidth fun hj => absurd hj hjoiners
    exact ⟨r, hr, cells_kept_le hjoiners hr⟩

theorem fitWidth_mark_and_joiners :
    (cells ['\u0301'] = 0 ∧ fitWidth ['\u0301'] 0 = .ok [] ∧
      [] ≠ ['\u0301'] ++ blanks (0 - cells ['\u0301'])) ∧
    (∃ r, fitWidth [joiner, joiner, '日', '日', '日'] 3 = .ok r ∧
      3 < cells (kept [joiner, joiner, '日', '日', '日'] r)) ∧
    fitWidth [joiner, joiner, '日', '日', '日'] 5 = .error .noUnit := by
  refine ⟨by decide +kernel, ⟨[joiner, joiner, '日', '日', ' '], ?_⟩, ?_⟩ <;> decide +kernel

end CommentTags.Text.Cells

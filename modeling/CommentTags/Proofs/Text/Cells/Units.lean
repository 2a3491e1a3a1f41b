import CommentTags.Proofs.Text.Cells.Measure

namespace CommentTags.Text.Cells

variable {u v : TextUnit} {us vs : List TextUnit} {last : Option Char} {c : Char} {s : List Char}
  {room room' : Nat}

theorem totalCells_cons (u : TextUnit) (us : List TextUnit) :
    totalCells (u :: us) = u.cells + totalCells us := rfl

theorem totalCells_append (us vs : List TextUnit) :
    totalCells (us ++ vs) = totalCells us + totalCells vs := by
  induction us with
  | nil => exact (Nat.zero_add _).symm
  | cons u us ih => rw [List.cons_append, totalCells_cons, totalCells_cons, ih, Nat.add_assoc]

theorem flatten_cons (u : TextUnit) (us : List TextUnit) :
    flatten (u :: us) = u.chars ++ flatten us := rfl

theorem flatten_append (us vs : List TextUnit) :
    flatten (us ++ vs) = flatten us ++ flatten vs :=
  List.flatMap_append

theorem unitsAfter_selector (u : TextUnit) (last : Option Char) (s : List Char) :
    unitsAfter u last (selector :: s) =
      if selectorBonus last = 0 then unitsAfter (u.extend [selector] 0) last s
      else unitsAfter (u.extend [selector] 1) none s := by
  rw [unitsAfter.eq_def]
  dsimp only
  rw [if_neg (by decide), if_pos rfl]

theorem unitsAfter_zero (hjoiner : c ≠ joiner) (hselector : c ≠ selector)
    (hzero : charWidth c = 0) :
    unitsAfter u last (c :: s) = unitsAfter (u.extend [c] 0) last s := by
  rw [unitsAfter.eq_def]
  dsimp only
  rw [if_neg hjoiner, if_neg hselector, if_pos hzero]

theorem unitsAfter_width (h : charWidth c ≠ 0) :
    unitsAfter u last (c :: s) = u :: unitsAfter ⟨[c], charWidth c⟩ (some c) s := by
  obtain ⟨hjoiner, hselector⟩ := ne_of_charWidth_ne_zero h
  rw [unitsAfter.eq_def]
  dsimp only
  rw [if_neg hjoiner, if_neg hselector, if_neg h]

theorem totalCells_unitsAfter (u : TextUnit) (last : Option Char) (s : List Char) :
    totalCells (unitsAfter u last s) = u.cells + cellsAfter last s := by
  fun_induction unitsAfter u last s with
  | case1 u last => rfl
  | case2 u last => rfl
  | case3 u last d s ih => exact ih
  | case4 u last s hbonus hjoiner ih =>
    rw [ih, cellsAfter_selector, hbonus, Nat.zero_add,
      cellsAfter_congr (hbonus.trans selectorBonus_none.symm)]
    rfl
  | case5 u last s hbonus hjoiner ih =>
    have hone : selectorBonus last = 1 := by
      have := selectorBonus_le_one last
      omega
    rw [ih, cellsAfter_selector, hone, ← Nat.add_assoc]
    rfl
  | case6 u last c s hjoiner hselector hzero ih =>
    rw [ih, cellsAfter_zero hjoiner hselector hzero]
    rfl
  | case7 u last c s hjoiner hselector hzero ih =>
    rw [totalCells_cons, ih, cellsAfter_width hzero]

/-- A joiner at the beginning joins a joiner or a character that takes cells. The measure leaves out
what it joins, but as the first character of a unit it joins nothing. -/
def JoinsAtFront : List Char → Prop
  | c :: d :: _ => c = joiner ∧ (d = joiner ∨ charWidth d ≠ 0)
  | _ => False

instance : DecidablePred JoinsAtFront
  | [] => inferInstanceAs (Decidable False)
  | [_] => inferInstanceAs (Decidable False)
  | _ :: _ :: _ => inferInstanceAs (Decidable (_ ∧ _))

theorem JoinsAtFront.of_prefix {r : List Char} (hr : JoinsAtFront r) (h : r <+: s) :
    JoinsAtFront s := by
  obtain ⟨t, rfl⟩ := h
  match r, hr with
  | _ :: _ :: _, hr => exact hr

theorem not_joinsAtFront_cons (h : c ≠ joiner) (s : List Char) : ¬ JoinsAtFront (c :: s) := by
  cases s with
  | nil => exact id
  | cons d s => exact fun hfront => h hfront.1

theorem JoinsAtFront.exists_cons (h : JoinsAtFront s) (hjoiners : ¬ [joiner, joiner] <+: s) :
    ∃ c t, s = joiner :: c :: t ∧ charWidth c ≠ 0 := by
  match s, h with
  | _ :: c :: t, ⟨rfl, hc⟩ =>
    refine ⟨c, t, rfl, hc.resolve_left ?_⟩
    rintro rfl
    exact hjoiners ⟨t, rfl⟩

theorem units_joiner_cons (h : ¬ JoinsAtFront (joiner :: c :: s)) :
    units (joiner :: c :: s) = unitsAfter ⟨[joiner, c], 0⟩ none s := by
  obtain ⟨hjoiner, hzero⟩ : c ≠ joiner ∧ charWidth c = 0 := by
    rw [JoinsAtFront, not_and, not_or, not_not] at h
    exact h rfl
  rw [units, charWidth_joiner, if_pos rfl]
  by_cases hselector : c = selector
  · rw [hselector, unitsAfter_selector, if_pos selectorBonus_none]
    rfl
  · rw [unitsAfter_zero hjoiner hselector hzero]
    rfl

theorem units_joiner_cons_of_width (h : charWidth c ≠ 0) (s : List Char) :
    units (joiner :: c :: s) = ⟨[joiner], 0⟩ :: units (c :: s) := by
  rw [units, charWidth_joiner, if_pos rfl, unitsAfter_width h, units, if_neg h]

theorem totalCells_units (h : ¬ JoinsAtFront s) : totalCells (units s) = cells s := by
  cases s with
  | nil => rfl
  | cons c s =>
    by_cases hjoiner : c = joiner
    · subst hjoiner
      cases s with
      | nil =>
        rw [units, charWidth_joiner]
        rfl
      | cons d s =>
        rw [units_joiner_cons h, totalCells_unitsAfter, Nat.zero_add]
        rfl
    · rw [units, totalCells_unitsAfter, cells]
      split
      · rename_i hzero
        by_cases hselector : c = selector
        · rw [hselector, cellsAfter_selector, charWidth_selector, selectorBonus_none]
        · rw [cellsAfter_zero hjoiner hselector hzero, hzero, Nat.zero_add]
      · rename_i hzero
        rw [cellsAfter_width hzero]

theorem cells_le_totalCells_units (h : ¬ [joiner, joiner] <+: s) :
    cells s ≤ totalCells (units s) := by
  by_cases hfront : JoinsAtFront s
  · obtain ⟨c, t, rfl, hc⟩ := hfront.exists_cons h
    have hunits : totalCells (units (c :: t)) = cells (c :: t) :=
      totalCells_units (not_joinsAtFront_cons (ne_of_charWidth_ne_zero hc).1 t)
    rw [units_joiner_cons_of_width hc, totalCells_cons, hunits, Nat.zero_add]
    exact (cells_joiner_cons_lt hc t).le
  · exact (totalCells_units hfront).ge

/-- A unit has a first character and at most two cells, or one if it begins with a blank. -/
def TextUnit.Bounded (u : TextUnit) : Prop :=
  ∃ c r, u.chars = c :: r ∧ u.cells ≤ if c = ' ' then 1 else 2

/-- A unit that is bounded even if a selector comes next. -/
def TextUnit.Growing (u : TextUnit) (last : Option Char) : Prop :=
  ∃ c r, u.chars = c :: r ∧ u.cells + selectorBonus last ≤ if c = ' ' then 1 else 2

theorem TextUnit.Growing.bounded (h : u.Growing last) : u.Bounded := by
  obtain ⟨c, r, hchars, hcells⟩ := h
  exact ⟨c, r, hchars, (Nat.le_add_right _ _).trans hcells⟩

theorem TextUnit.Growing.extend (h : u.Growing last) (w : List Char) :
    (u.extend w 0).Growing last := by
  obtain ⟨c, r, hchars, hcells⟩ := h
  exact ⟨c, r ++ w, congrArg (· ++ w) hchars, hcells⟩

theorem TextUnit.growing_singleton (c : Char) : TextUnit.Growing ⟨[c], charWidth c⟩ (some c) := by
  refine ⟨c, [], rfl, ?_⟩
  split
  · rename_i hspace
    rw [hspace, charWidth_space, selectorBonus_space]
  · exact charWidth_add_selectorBonus_le c

theorem bounded_of_mem_unitsAfter (h : u.Growing last) (hv : v ∈ unitsAfter u last s) :
    v.Bounded := by
  fun_induction unitsAfter u last s with
  | case1 u last => exact List.mem_singleton.mp hv ▸ h.bounded
  | case2 u last => exact List.mem_singleton.mp hv ▸ (h.extend _).bounded
  | case3 u last d s ih => exact ih (h.extend _) hv
  | case4 u last s hbonus hjoiner ih => exact ih (h.extend _) hv
  | case5 u last s hbonus hjoiner ih =>
    -- the cell that the selector has been good for is now the unit's
    obtain ⟨c, r, hchars, hcells⟩ := h
    refine ih ⟨c, r ++ [selector], congrArg (· ++ _) hchars, ?_⟩ hv
    have := selectorBonus_le_one last
    dsimp only [TextUnit.extend]
    rw [selectorBonus_none]
    omega
  | case6 u last c s hjoiner hselector hzero ih => exact ih (h.extend _) hv
  | case7 u last c s hjoiner hselector hzero ih =>
    obtain rfl | hv := List.mem_cons.mp hv
    · exact h.bounded
    · exact ih (TextUnit.growing_singleton c) hv

theorem bounded_of_mem_units (h : v ∈ units s) : v.Bounded := by
  cases s with
  | nil => cases h
  | cons c s =>
    refine bounded_of_mem_unitsAfter ?_ h
    split
    · rename_i hzero
      obtain ⟨c', r, hchars, hcells⟩ := TextUnit.growing_singleton c
      exact ⟨c', r, hchars, by rw [selectorBonus_none]; omega⟩
    · exact TextUnit.growing_singleton c

theorem cells_le_two_of_mem_units (h : v ∈ units s) : v.cells ≤ 2 := by
  obtain ⟨c, r, -, hcells⟩ := bounded_of_mem_units h
  split at hcells <;> omega

/-- Whatever is cut off between two units, the units in front of it stay as they are, and no joiner
in them loses what it has joined. -/
theorem unitsAfter_of_append (h : unitsAfter u last s = us ++ vs) (hus : us ≠ []) :
    ∃ t, s = t ++ flatten vs ∧ unitsAfter u last t = us ∧ (vs ≠ [] → ¬ Dangling t) := by
  fun_induction unitsAfter u last s generalizing us with
  | case1 u last =>
    obtain ⟨rfl, -⟩ | ⟨rfl, rfl⟩ := List.append_eq_singleton_iff.mp h.symm
    · exact absurd rfl hus
    · exact ⟨[], rfl, rfl, fun hvs => absurd rfl hvs⟩
  | case2 u last =>
    obtain ⟨rfl, -⟩ | ⟨rfl, rfl⟩ := List.append_eq_singleton_iff.mp h.symm
    · exact absurd rfl hus
    · exact ⟨[joiner], rfl, rfl, fun hvs => absurd rfl hvs⟩
  | case3 u last d s ih =>
    obtain ⟨t, rfl, ht, hdangling⟩ := ih h hus
    refine ⟨joiner :: d :: t, rfl, ht, fun hvs => ?_⟩
    rw [dangling_joiner_cons]
    exact hdangling hvs
  | case4 u last s hbonus hjoiner ih =>
    obtain ⟨t, rfl, ht, hdangling⟩ := ih h hus
    refine ⟨selector :: t, rfl, ?_, fun hvs => ?_⟩
    · rw [unitsAfter_selector, if_pos hbonus, ht]
    · rw [dangling_cons hjoiner]
      exact hdangling hvs
  | case5 u last s hbonus hjoiner ih =>
    obtain ⟨t, rfl, ht, hdangling⟩ := ih h hus
    refine ⟨selector :: t, rfl, ?_, fun hvs => ?_⟩
    · rw [unitsAfter_selector, if_neg hbonus, ht]
    · rw [dangling_cons hjoiner]
      exact hdangling hvs
  | case6 u last c s hjoiner hselector hzero ih =>
    obtain ⟨t, rfl, ht, hdangling⟩ := ih h hus
    refine ⟨c :: t, rfl, ?_, fun hvs => ?_⟩
    · rw [unitsAfter_zero hjoiner hselector hzero, ht]
    · rw [dangling_cons hjoiner]
      exact hdangling hvs
  | case7 u last c s hjoiner hselector hzero ih =>
    cases us with
    | nil => exact absurd rfl hus
    | cons u' us =>
      obtain ⟨rfl, hrest⟩ := List.cons.inj h
      by_cases hnil : us = []
      · subst hnil
        have hflat := flatten_unitsAfter ⟨[c], charWidth c⟩ (some c) s
        rw [hrest] at hflat
        exact ⟨[], hflat.symm, rfl, fun _ => not_dangling_nil⟩
      · obtain ⟨t, rfl, ht, hdangling⟩ := ih hrest hnil
        refine ⟨c :: t, rfl, ?_, fun hvs => ?_⟩
        · rw [unitsAfter_width hzero, ht]
        · rw [dangling_cons hjoiner]
          exact hdangling hvs

theorem flatten_append_of_units (h : units s = us ++ vs) : s = flatten us ++ flatten vs := by
  rw [← flatten_append, ← h, flatten_units]

theorem exists_flatten_eq_cons (h : units (c :: s) = us ++ vs) (hus : us ≠ []) :
    ∃ t, flatten us = c :: t ∧ units (c :: t) = us ∧ (vs ≠ [] → ¬ Dangling t) := by
  have hsplit := flatten_append_of_units h
  rw [units] at h
  obtain ⟨t, rfl, ht, hdangling⟩ := unitsAfter_of_append h hus
  refine ⟨t, ?_, by rw [units, ht], hdangling⟩
  rw [← List.cons_append] at hsplit
  exact (List.append_cancel_right hsplit).symm

theorem units_flatten (h : units s = us ++ vs) : units (flatten us) = us ∧ flatten us <+: s := by
  refine ⟨?_, ⟨flatten vs, (flatten_append_of_units h).symm⟩⟩
  by_cases hus : us = []
  · rw [hus]
    rfl
  · cases s with
    | nil => exact absurd (List.append_eq_nil_iff.mp h.symm).1 hus
    | cons c s =>
      obtain ⟨t, hflat, hunits, -⟩ := exists_flatten_eq_cons h hus
      rw [hflat, hunits]

theorem cells_flatten (h : units s = us ++ vs) (hs : ¬ JoinsAtFront s) :
    cells (flatten us) = totalCells us := by
  obtain ⟨hunits, hprefix⟩ := units_flatten h
  rw [← totalCells_units fun hfront => hs (hfront.of_prefix hprefix), hunits]

theorem not_dangling_flatten (h : units s = us ++ vs) (hs : ¬ JoinsAtFront s) (hvs : vs ≠ []) :
    ¬ Dangling (flatten us) := by
  by_cases hus : us = []
  · rw [hus]
    exact not_dangling_nil
  match s, h, hs with
  | [], h, _ => exact absurd (List.append_eq_nil_iff.mp h.symm).1 hus
  | [c], h, _ =>
    have hone : us.length + vs.length = 1 := by
      rw [← List.length_append, ← h]
      rfl
    have := List.length_pos_iff.mpr hus
    have := List.length_pos_iff.mpr hvs
    omega
  | c :: d :: s, h, hs =>
    by_cases hjoiner : c = joiner
    · -- the unit has begun with what the joiner joins, and so it is known to stay in front of a cut
      subst hjoiner
      have hsplit := flatten_append_of_units h
      rw [units_joiner_cons hs] at h
      obtain ⟨t, rfl, -, hdangling⟩ := unitsAfter_of_append h hus
      have hflat : joiner :: d :: t = flatten us := List.append_cancel_right hsplit
      rw [← hflat, dangling_joiner_cons]
      exact hdangling hvs
    · obtain ⟨t, hflat, -, hdangling⟩ := exists_flatten_eq_cons h hus
      rw [hflat, dangling_cons hjoiner]
      exact hdangling hvs

def fitting : Nat → List TextUnit → List TextUnit
  | 0, _ => []
  | _ + 1, [] => []
  | room + 1, u :: us => if u.cells ≤ room + 1 then u :: fitting (room + 1 - u.cells) us else []
termination_by _ us => us.length

theorem fitting_prefix (room : Nat) (us : List TextUnit) : fitting room us <+: us := by
  fun_induction fitting room us with
  | case1 => exact List.nil_prefix
  | case2 => exact List.nil_prefix
  | case3 room u us hfits ih => exact List.cons_prefix_cons.mpr ⟨rfl, ih⟩
  | case4 => exact List.nil_prefix

theorem totalCells_fitting_le (room : Nat) (us : List TextUnit) :
    totalCells (fitting room us) ≤ room := by
  fun_induction fitting room us with
  | case1 => exact Nat.le_refl 0
  | case2 => exact Nat.zero_le _
  | case3 room u us hfits ih =>
    rw [totalCells_cons]
    omega
  | case4 => exact Nat.zero_le _

theorem fitting_mono (h : room ≤ room') (us : List TextUnit) :
    fitting room us <+: fitting room' us := by
  fun_induction fitting room us generalizing room' with
  | case1 => exact List.nil_prefix
  | case2 => exact List.nil_prefix
  | case3 room u us hfits ih =>
    obtain ⟨more, rfl⟩ := Nat.exists_eq_add_of_le h
    have hroom : room + 1 + more = room + more + 1 := by omega
    rw [hroom, fitting, if_pos (by omega)]
    exact List.cons_prefix_cons.mpr ⟨rfl, ih (by omega)⟩
  | case4 => exact List.nil_prefix

/-- The next unit is cut through. -/
structure Crosses (room : Nat) (us : List TextUnit) : Prop where
  next : ∃ u vs, us = fitting room us ++ u :: vs ∧ totalCells (fitting room us) < room ∧
    room < totalCells (fitting room us) + u.cells

/-- Either the kept units fill the room, or there are no more, or a blank stands in for the next. -/
theorem fit_cases (room : Nat) (us : List TextUnit) :
    (fit room us = flatten (fitting room us) ∧
      (totalCells (fitting room us) = room ∨ fitting room us = us)) ∨
    (fit room us = flatten (fitting room us) ++ [' '] ∧ Crosses room us) := by
  fun_induction fitting room us with
  | case1 us => exact Or.inl ⟨by rw [fit]; rfl, Or.inl rfl⟩
  | case2 room => exact Or.inl ⟨by rw [fit]; rfl, Or.inr rfl⟩
  | case3 room u us hfits ih =>
    have hfitting : fitting (room + 1) (u :: us) = u :: fitting (room + 1 - u.cells) us := by
      rw [fitting, if_pos hfits]
    rw [fit, if_pos hfits, flatten_cons, totalCells_cons]
    obtain ⟨hfit, hfull⟩ | ⟨hfit, ⟨v, vs, hus, hlt, hcross⟩⟩ := ih
    · refine Or.inl ⟨by rw [hfit], hfull.imp (fun h => ?_) (fun h => congrArg _ h)⟩
      omega
    · refine Or.inr ⟨by rw [hfit, List.append_assoc], ⟨v, vs, ?_, ?_, ?_⟩⟩
      · rw [hfitting, List.cons_append, ← hus]
      · rw [hfitting, totalCells_cons]
        omega
      · rw [hfitting, totalCells_cons]
        omega
  | case4 room u us hfits =>
    have hfitting : fitting (room + 1) (u :: us) = [] := by
      rw [fitting, if_neg hfits]
    refine Or.inr ⟨by rw [fit, if_neg hfits]; rfl, ⟨u, us, ?_, ?_, ?_⟩⟩
    · rw [hfitting, List.nil_append]
    · rw [hfitting]
      exact Nat.succ_pos room
    · rw [hfitting]
      exact Nat.lt_of_not_le hfits |>.trans_le (Nat.le_add_left _ _)

end CommentTags.Text.Cells

import CommentTags.Proofs.Time.Calendar
import Mathlib.Algebra.Order.BigOperators.Group.List
import Mathlib.Algebra.Order.Group.Nat

namespace CommentTags.Time

variable {d e : Date}

def monthLength (year : Int) (month : Nat) : Nat :=
  (monthLengths (isLeap year))[month - 1]?.getD 0

/-- The day after: in the same month, on the first of the next one, or on New Year's Day. -/
def Date.next (d : Date) : Date :=
  if d.day < monthLength d.year d.month then { d with day := d.day + 1 }
  else if d.month < 12 then ⟨d.year, d.month + 1, 1⟩
  else ⟨d.year + 1, 1, 1⟩

example : Date.next ⟨2024, 2, 28⟩ = ⟨2024, 2, 29⟩ ∧ Date.next ⟨1900, 2, 28⟩ = ⟨1900, 3, 1⟩ := by
  decide

theorem daysBeforeYear_succ (year : Int) :
    daysBeforeYear (year + 1) = daysBeforeYear year + yearLength (isLeap year) := by
  have hleap := @isLeap_iff year
  unfold daysBeforeYear yearLength
  split
  · rename_i h
    have := hleap.mp h
    omega
  · rename_i h
    have := mt hleap.mpr h
    omega

theorem daysBeforeYear_mono {year later : Int} (h : year ≤ later) :
    daysBeforeYear year ≤ daysBeforeYear later := by
  unfold daysBeforeYear
  omega

def dayOfYear (d : Date) : Nat :=
  daysBeforeMonth d.year d.month + (d.day - 1)

theorem dayNumber_eq (hd : d.Valid) : dayNumber d = daysBeforeYear d.year + dayOfYear d := by
  have hday := hd.day.1
  unfold dayNumber dayOfYear
  omega

theorem daysBeforeMonth_add_le {year : Int} {month : Nat} (h : 1 ≤ month ∧ month ≤ 12) :
    daysBeforeMonth year month + monthLength year month = daysBeforeMonth year (month + 1) := by
  obtain ⟨i, rfl⟩ := Nat.exists_eq_add_of_le h.1
  have hi : i < (monthLengths (isLeap year)).length := by
    rw [length_monthLengths]
    omega
  rw [Nat.add_assoc, daysBeforeMonth_eq, daysBeforeMonth_eq, monthLength, Nat.add_sub_cancel_left,
    List.getElem?_eq_getElem hi, Option.getD_some, List.sum_take_succ _ _ hi]

theorem daysBeforeMonth_mono (year : Int) {month later : Nat} (h : 1 ≤ month ∧ month ≤ later) :
    daysBeforeMonth year month ≤ daysBeforeMonth year later := by
  obtain ⟨i, rfl⟩ := Nat.exists_eq_add_of_le h.1
  obtain ⟨j, rfl⟩ := Nat.exists_eq_add_of_le (h.1.trans h.2)
  rw [daysBeforeMonth_eq, daysBeforeMonth_eq]
  have hprefix := List.take_prefix_take_left (l := monthLengths (isLeap year))
    (Nat.add_le_add_iff_left.mp h.2)
  exact hprefix.sublist.sum_le_sum fun _ _ => Nat.zero_le _

theorem daysBeforeMonth_last (year : Int) : daysBeforeMonth year 13 = yearLength (isLeap year) := by
  rw [← sum_monthLengths, daysBeforeMonth_eq year 12,
    List.take_of_length_le (length_monthLengths _).le]

theorem dayOfYear_lt (hd : d.Valid) : dayOfYear d < daysBeforeMonth d.year (d.month + 1) := by
  have hday : 1 ≤ d.day ∧ d.day ≤ monthLength d.year d.month := hd.day
  rw [← daysBeforeMonth_add_le hd.month, dayOfYear]
  omega

theorem dayOfYear_lt_yearLength (hd : d.Valid) : dayOfYear d < yearLength (isLeap d.year) := by
  have hmonth : 1 ≤ d.month + 1 ∧ d.month + 1 ≤ 13 := ⟨by omega, by have := hd.month.2; omega⟩
  rw [← daysBeforeMonth_last]
  exact Nat.lt_of_lt_of_le (dayOfYear_lt hd) (daysBeforeMonth_mono d.year hmonth)

theorem year_le_of_dayNumber_le (hd : d.Valid) (he : e.Valid) (h : dayNumber d ≤ dayNumber e) :
    d.year ≤ e.year := by
  by_contra hlt
  have hyears := daysBeforeYear_mono (by omega : e.year + 1 ≤ d.year)
  have hday := dayOfYear_lt_yearLength he
  rw [dayNumber_eq hd, dayNumber_eq he] at h
  rw [daysBeforeYear_succ] at hyears
  omega

theorem month_le_of_dayOfYear_le (he : e.Valid) (hyear : d.year = e.year)
    (h : dayOfYear d ≤ dayOfYear e) : d.month ≤ e.month := by
  by_contra hlt
  have hmonths : daysBeforeMonth e.year (e.month + 1) ≤ daysBeforeMonth e.year d.month :=
    daysBeforeMonth_mono e.year ⟨by omega, by omega⟩
  have hday := dayOfYear_lt he
  rw [dayOfYear, hyear] at h
  omega

/-- No two dates have the same number. -/
theorem dayNumber_injective (hd : d.Valid) (he : e.Valid) (h : dayNumber d = dayNumber e) :
    d = e := by
  have hyear : d.year = e.year :=
    Int.le_antisymm (year_le_of_dayNumber_le hd he h.le) (year_le_of_dayNumber_le he hd h.ge)
  rw [dayNumber_eq hd, dayNumber_eq he, hyear, Int.add_right_inj, Int.natCast_inj] at h
  have hmonth : d.month = e.month :=
    Nat.le_antisymm (month_le_of_dayOfYear_le he hyear h.le)
      (month_le_of_dayOfYear_le hd hyear.symm h.ge)
  rw [dayOfYear, dayOfYear, hyear, hmonth] at h
  have hday : d.day = e.day := by
    have := hd.day.1
    have := he.day.1
    omega
  obtain ⟨year, month, day⟩ := d
  obtain ⟨year', month', day'⟩ := e
  dsimp only at *
  rw [hyear, hmonth, hday]

theorem monthLength_pos {year : Int} {month : Nat} (h : 1 ≤ month ∧ month ≤ 12) :
    1 ≤ monthLength year month := by
  have hall : ∀ leap, ∀ i < 12, 1 ≤ (monthLengths leap)[i]?.getD 0 := by decide
  exact hall _ _ (by omega)

theorem valid_next (hd : d.Valid) : d.next.Valid := by
  obtain ⟨hmonth, hday⟩ := hd
  unfold Date.next
  split
  · rename_i h
    exact ⟨hmonth, Nat.le_add_left 1 _, h⟩
  · split
    · rename_i h
      exact ⟨⟨Nat.le_add_left 1 _, h⟩, Nat.le_refl 1, monthLength_pos ⟨Nat.le_add_left 1 _, h⟩⟩
    · have hfirst : 1 ≤ 1 ∧ 1 ≤ 12 := by decide
      exact ⟨hfirst, Nat.le_refl 1, monthLength_pos hfirst⟩

theorem dayNumber_next (hd : d.Valid) : dayNumber d.next = dayNumber d + 1 := by
  rw [dayNumber_eq (valid_next hd), dayNumber_eq hd]
  have hday : 1 ≤ d.day ∧ d.day ≤ monthLength d.year d.month := hd.day
  have hnext := @daysBeforeMonth_add_le d.year _ hd.month
  unfold Date.next
  split
  · dsimp only [dayOfYear]
    omega
  · split
    · dsimp only [dayOfYear]
      omega
    · rename_i hfull hnew
      have hlast : d.month = 12 := by
        have := hd.month.2
        omega
      have hfirst : dayOfYear ⟨d.year + 1, 1, 1⟩ = 0 := rfl
      rw [hlast] at hnext hday hfull
      rw [daysBeforeMonth_last] at hnext
      rw [hfirst, daysBeforeYear_succ, dayOfYear, hlast, ← hnext]
      omega

theorem ofDay_succ (n : Int) : Date.ofDay (n + 1) = (Date.ofDay n).next := by
  obtain ⟨hvalid, hnumber⟩ := dayNumber_ofDay n
  obtain ⟨hvalid', hnumber'⟩ := dayNumber_ofDay (n + 1)
  refine dayNumber_injective hvalid' (valid_next hvalid) ?_
  rw [hnumber', dayNumber_next hvalid, hnumber]

/-- The date and the time of day, in the calendar, of an instant in seconds since 1970. -/
structure DateTime.IsAt (d : DateTime) (t : Int) : Prop where
  date : d.date.Valid
  second : d.second < 86400
  seconds : d.toSeconds = t

theorem isAt_ofSeconds (t : Int) : (DateTime.ofSeconds t).IsAt t where
  date := (dayNumber_ofDay _).1
  second := by
    dsimp only [DateTime.ofSeconds]
    omega
  seconds := toSeconds_ofSeconds t

theorem DateTime.IsAt.eq_ofSeconds {d : DateTime} {t : Int} (h : d.IsAt t) :
    d = DateTime.ofSeconds t := by
  obtain ⟨hdate, hsecond, hseconds⟩ := h
  obtain ⟨hdate', hsecond', hseconds'⟩ := isAt_ofSeconds t
  generalize DateTime.ofSeconds t = e at *
  have hsame := hseconds.trans hseconds'.symm
  unfold toSeconds at hsame
  have hday : dayNumber d.date = dayNumber e.date := by omega
  have hclock : d.second = e.second := by omega
  obtain ⟨date, second⟩ := d
  obtain ⟨date', second'⟩ := e
  exact congrArg₂ _ (dayNumber_injective hdate hdate' hday) hclock

end CommentTags.Time

import CommentTags.Time.Calendar
import Mathlib.Algebra.Ring.Nat

namespace CommentTags.Time

variable {year : Int} {month : Nat}

/-- A date of the calendar: a month from 1 to 12, and a day that this month has. -/
structure Date.Valid (d : Date) : Prop where
  month : 1 ≤ d.month ∧ d.month ≤ 12
  day : 1 ≤ d.day ∧ d.day ≤ (monthLengths (isLeap d.year))[d.month - 1]?.getD 0

theorem isLeap_iff : isLeap year = true ↔ year % 4 = 0 ∧ (year % 100 ≠ 0 ∨ year % 400 = 0) := by
  simp only [isLeap, Bool.and_eq_true, Bool.or_eq_true, decide_eq_true_eq]

def yearLength (leap : Bool) : Nat :=
  if leap then 366 else 365

theorem daysBeforeYear_cycle (cycle : Int) {years : Nat} (h : years < 400) :
    daysBeforeYear (cycle * 400 + years + 1) =
      cycle * 146097 + (years * 365 + years / 4 - years / 100 : Int) := by
  unfold daysBeforeYear
  omega

theorem isLeap_cycle (cycle : Int) {years : Nat} (h : years < 400) :
    isLeap (cycle * 400 + years + 1) = true ↔
      years % 4 = 3 ∧ (years % 100 ≠ 99 ∨ years = 399) := by
  rw [isLeap_iff]
  omega

/-- Splitting a cycle finds the year that a day belongs to. -/
theorem splitCycle_spec {day years rest : Nat} (h : day < 146097)
    (hsplit : splitCycle day = (years, rest)) :
    years < 400 ∧ years * 365 + years / 4 + rest = day + years / 100 ∧
      (rest < 365 ∨ rest = 365 ∧ years % 4 = 3 ∧ (years % 100 ≠ 99 ∨ years = 399)) := by
  obtain ⟨centuries, hcenturies⟩ : ∃ c, c = min 3 (day / 36524) := ⟨_, rfl⟩
  obtain ⟨fours, hfours⟩ : ∃ f, f = (day - centuries * 36524) / 1461 := ⟨_, rfl⟩
  obtain ⟨inFour, hinFour⟩ : ∃ r, r = (day - centuries * 36524) % 1461 := ⟨_, rfl⟩
  obtain ⟨single, hsingle⟩ : ∃ y, y = min 3 (inFour / 365) := ⟨_, rfl⟩
  have hyears : years = centuries * 100 + fours * 4 + single := by
    rw [hsingle, hinFour, hfours, hcenturies]
    exact (Prod.mk.inj hsplit).1.symm
  have hrest : rest = inFour - single * 365 := by
    rw [hsingle, hinFour, hcenturies]
    exact (Prod.mk.inj hsplit).2.symm
  -- only the last century has a day more, with which its last four years are complete
  have hday : day = centuries * 36524 + fours * 1461 + inFour ∧ inFour ≤ 1460 := by omega
  have hcentury : centuries ≤ 3 ∧ fours ≤ 24 ∧
      (centuries < 3 → fours * 1461 + inFour < 36524) := by
    omega
  have hsingle' : single ≤ 3 ∧ single * 365 ≤ inFour ∧ (rest < 365 ∨ rest = 365 ∧ single = 3) := by
    omega
  clear hsplit hcenturies hfours hinFour hsingle
  have hhundred : years / 100 = centuries := by omega
  have hfour : years / 4 = centuries * 25 + fours := by omega
  omega

theorem splitYear_spec {lengths : List Nat} {day : Nat} (h : day < lengths.sum) (month : Nat) :
    ∃ i, ∃ hi : i < lengths.length, (splitYear month lengths day).1 = month + i ∧
      (lengths.take i).sum + (splitYear month lengths day).2 = day + 1 ∧
      1 ≤ (splitYear month lengths day).2 ∧ (splitYear month lengths day).2 ≤ lengths[i] := by
  induction lengths generalizing month day with
  | nil => cases h
  | cons n ns ih =>
    rw [splitYear]
    split
    · rename_i hlt
      exact ⟨0, Nat.zero_lt_succ _, rfl, Nat.zero_add _, Nat.le_add_left 1 day, hlt⟩
    · rename_i hge
      rw [List.sum_cons] at h
      obtain ⟨i, hi, hmonth, hday, hpos, hle⟩ := ih (by omega : day - n < ns.sum) (month + 1)
      refine ⟨i + 1, Nat.succ_lt_succ hi, ?_, ?_, hpos, hle⟩
      · rw [hmonth]
        omega
      · rw [List.take_succ_cons, List.sum_cons]
        omega

theorem sum_monthLengths (leap : Bool) : (monthLengths leap).sum = yearLength leap := by
  cases leap <;> rfl

theorem daysBeforeMonth_eq (year : Int) (i : Nat) :
    daysBeforeMonth year (1 + i) = ((monthLengths (isLeap year)).take i).sum := by
  rw [daysBeforeMonth, Nat.add_sub_cancel_left, List.sum_eq_foldl]

theorem length_monthLengths (leap : Bool) : (monthLengths leap).length = 12 := rfl

theorem dayNumber_ofDay (n : Int) : (Date.ofDay n).Valid ∧ dayNumber (Date.ofDay n) = n := by
  have hday : (n % 146097).toNat < 146097 := by omega
  cases hcycle : splitCycle (n % 146097).toNat with
  | mk years rest =>
    obtain ⟨hyears, hsum, hrest⟩ := splitCycle_spec hday hcycle
    have hbefore := daysBeforeYear_cycle (n / 146097) hyears
    have hleap := isLeap_cycle (n / 146097) hyears
    have hdate : Date.ofDay n = ⟨n / 146097 * 400 + years + 1,
        (splitYear 1 (monthLengths (isLeap (n / 146097 * 400 + years + 1))) rest).1,
        (splitYear 1 (monthLengths (isLeap (n / 146097 * 400 + years + 1))) rest).2⟩ := by
      rw [Date.ofDay, hcycle]
    generalize n / 146097 * 400 + years + 1 = year at *
    have hlt : rest < (monthLengths (isLeap year)).sum := by
      rw [sum_monthLengths, yearLength]
      obtain hrest | ⟨rfl, hlast⟩ := hrest
      · clear hsum hbefore
        split <;> omega
      · rw [if_pos (hleap.mpr hlast)]
        decide
    obtain ⟨i, hi, hmonth, hinYear, hpos, hle⟩ := splitYear_spec hlt 1
    generalize splitYear 1 (monthLengths (isLeap year)) rest = split at *
    obtain ⟨month, day⟩ := split
    dsimp only at *
    subst hmonth
    rw [hdate]
    refine ⟨⟨?_, hpos, ?_⟩, ?_⟩
    · rw [length_monthLengths] at hi
      dsimp only
      omega
    · dsimp only
      rw [Nat.add_sub_cancel_left, List.getElem?_eq_getElem hi]
      exact hle
    · rw [dayNumber, daysBeforeMonth_eq, hbefore]
      generalize ((monthLengths (isLeap year)).take i).sum = earlier at hinYear ⊢
      clear hbefore hleap hdate hlt hrest hle
      dsimp only
      omega

theorem toSeconds_ofSeconds (t : Int) : (DateTime.ofSeconds t).toSeconds = t := by
  rw [DateTime.toSeconds, DateTime.ofSeconds, (dayNumber_ofDay _).2]
  dsimp only
  omega

end CommentTags.Time

import CommentTags.Proofs.Time.Calendar
import CommentTags.Time.Moment

namespace CommentTags.Time

open Nat (ofDigitChars toDigits)

def readDigits (width : Nat) (s : List Char) : Option (Nat × List Char) :=
  if (s.take width).length = width ∧ (s.take width).all Char.isDigit then
    some (ofDigitChars 10 (s.take width) 0, s.drop width)
  else none

def readMark (mark : Char) : List Char → Option (List Char)
  | c :: s => if c = mark then some s else none
  | [] => none

def readSign : List Char → Option (Int × List Char)
  | '+' :: s => some (1, s)
  | '-' :: s => some (-1, s)
  | _ => none

instance (d : Date) : Decidable d.Valid :=
  decidable_of_iff
    ((1 ≤ d.month ∧ d.month ≤ 12) ∧
      1 ≤ d.day ∧ d.day ≤ (monthLengths (isLeap d.year))[d.month - 1]?.getD 0)
    ⟨fun ⟨hmonth, hday⟩ => ⟨hmonth, hday⟩, fun ⟨hmonth, hday⟩ => ⟨hmonth, hday⟩⟩

def readDate (s : List Char) : Option (Date × List Char) := do
  let (year, s) ← readDigits 4 s
  let s ← readMark '-' s
  let (month, s) ← readDigits 2 s
  let s ← readMark '-' s
  let (day, s) ← readDigits 2 s
  let date : Date := ⟨year, month, day⟩
  if 1 ≤ year ∧ date.Valid then some (date, s) else none

def readClock (s : List Char) : Option (Nat × List Char) := do
  let (hour, s) ← readDigits 2 s
  let s ← readMark ':' s
  let (minute, s) ← readDigits 2 s
  let s ← readMark ':' s
  let (second, s) ← readDigits 2 s
  if hour < 24 ∧ minute < 60 ∧ second < 60 then some (3600 * hour + 60 * minute + second, s)
  else none

def readOffset (s : List Char) : Option (Int × List Char) := do
  let (sign, s) ← readSign s
  let (hours, s) ← readDigits 2 s
  let s ← readMark ':' s
  let (minutes, s) ← readDigits 2 s
  if hours < 24 ∧ minutes < 60 then some (sign * (60 * hours + minutes), s) else none

/-- The instant, in seconds since the start of 1970, and the offset that a text stands for. -/
def readIso? (text : String) : Option (Int × Int) := do
  let (date, s) ← readDate text.toList
  let s ← readMark 'T' s
  let (second, s) ← readClock s
  let (offset, s) ← readOffset s
  if s = [] then some ((DateTime.mk date second).toSeconds - 60 * offset, offset) else none

example : readIso? "2024-02-29T23:30:00-01:30" = some (1709254800, -90) := by decide

example : readIso? "2023-02-29T23:30:00-01:30" = none := by decide

theorem readDigits_append {width : Nat} {ds : List Char} (hlen : ds.length = width)
    (hds : ∀ c ∈ ds, c.isDigit = true) (s : List Char) :
    readDigits width (ds ++ s) = some (ofDigitChars 10 ds 0, s) := by
  subst hlen
  rw [readDigits, List.take_left, List.drop_left, if_pos ⟨rfl, List.all_eq_true.mpr hds⟩]

theorem readDigits_padded {width n : Nat} (hwidth : 0 < width) (h : n < 10 ^ width)
    (s : List Char) : readDigits width ((padded width n).toList ++ s) = some (n, s) := by
  have hlen : (toDigits 10 n).length ≤ width :=
    (Nat.length_toDigits_le_iff (by decide) hwidth).mpr h
  have hdigits : (toString n).toList = toDigits 10 n := Nat.toList_repr
  have hpadded : (padded width n).toList =
      List.replicate (width - (toDigits 10 n).length) '0' ++ toDigits 10 n := by
    rw [padded, String.toList_append, String.toList_ofList, ← String.length_toList, hdigits]
  rw [hpadded, readDigits_append]
  · rw [Nat.ofDigitChars_append, Nat.ofDigitChars_replicate_zero, Nat.mul_zero,
      Nat.ofDigitChars_ten_toDigits]
  · rw [List.length_append, List.length_replicate]
    omega
  · intro c hc
    obtain hc | hc := List.mem_append.mp hc
    · rw [List.eq_of_mem_replicate hc]
      rfl
    · exact Nat.isDigit_of_mem_toDigits (by decide) (by decide) hc

theorem readMark_cons (mark : Char) (s : List Char) : readMark mark (mark :: s) = some s :=
  if_pos rfl

theorem le_monthLengths (leap : Bool) (i : Nat) : (monthLengths leap)[i]?.getD 0 ≤ 31 := by
  have hall : ∀ leap, ∀ n ∈ monthLengths leap, n ≤ 31 := by decide
  cases h : (monthLengths leap)[i]? with
  | none => exact Nat.zero_le _
  | some n => exact hall leap n (List.mem_of_getElem? h)

theorem readDate_append {d : Date} (hd : d.Valid) (hyear : 1 ≤ d.year ∧ d.year ≤ 9999)
    (s : List Char) :
    readDate ((padded 4 d.year.toNat).toList ++ ((dayText d).toList ++ s)) = some (d, s) := by
  have htext : (dayText d).toList ++ s =
      '-' :: ((padded 2 d.month).toList ++ '-' :: ((padded 2 d.day).toList ++ s)) := by
    have hdash : "-".toList = ['-'] := rfl
    simp only [dayText, String.toList_append, List.append_assoc, hdash, List.cons_append,
      List.nil_append]
  have hday := Nat.le_trans hd.day.2 (le_monthLengths _ _)
  have hmonth := hd.month.2
  have hdate : (⟨(d.year.toNat : Int), d.month, d.day⟩ : Date) = d := by
    rw [Int.toNat_of_nonneg (by omega)]
  rw [readDate, readDigits_padded (by decide) (by omega)]
  simp only [Option.bind_eq_bind, Option.bind_some, htext, readMark_cons]
  rw [readDigits_padded (by decide) (by omega)]
  simp only [Option.bind_some, readMark_cons]
  rw [readDigits_padded (by decide) (by omega)]
  simp only [Option.bind_some, hdate]
  rw [if_pos ⟨by omega, hd⟩]

theorem readClock_append {second : Nat} (h : second < 86400) (s : List Char) :
    readClock ((clockText second).toList ++ s) = some (second, s) := by
  have htext : (clockText second).toList ++ s =
      (padded 2 (second / 3600)).toList ++ ':' :: ((padded 2 (second / 60 % 60)).toList ++
        ':' :: ((padded 2 (second % 60)).toList ++ s)) := by
    have hcolon : ":".toList = [':'] := rfl
    simp only [clockText, String.toList_append, List.append_assoc, hcolon, List.cons_append,
      List.nil_append]
  rw [htext, readClock, readDigits_padded (by decide) (by omega)]
  simp only [Option.bind_eq_bind, Option.bind_some, readMark_cons]
  rw [readDigits_padded (by decide) (by omega)]
  simp only [Option.bind_some, readMark_cons]
  rw [readDigits_padded (by decide) (by omega), Option.bind_some, if_pos (by omega)]
  have hsecond : 3600 * (second / 3600) + 60 * (second / 60 % 60) + second % 60 = second := by
    omega
  rw [hsecond]

theorem readOffset_append {offset : Int} (h : -1440 < offset ∧ offset < 1440) (s : List Char) :
    readOffset ((offsetText offset).toList ++ s) = some (offset, s) := by
  have htext : (offsetText offset).toList ++ s =
      (if offset < 0 then '-' else '+') :: ((padded 2 (offset.natAbs / 60)).toList ++
        ':' :: ((padded 2 (offset.natAbs % 60)).toList ++ s)) := by
    have hcolon : ":".toList = [':'] := rfl
    have hsign : (if offset < 0 then "-" else "+").toList = [if offset < 0 then '-' else '+'] := by
      split <;> rfl
    simp only [offsetText, String.toList_append, List.append_assoc, hcolon, hsign,
      List.cons_append, List.nil_append]
  have hsign : ∀ s, readSign ((if offset < 0 then '-' else '+') :: s) =
      some (if offset < 0 then -1 else 1, s) := by
    intro s
    split <;> rfl
  rw [htext, readOffset, hsign]
  simp only [Option.bind_eq_bind, Option.bind_some]
  rw [readDigits_padded (by decide) (by omega)]
  simp only [Option.bind_some, readMark_cons]
  rw [readDigits_padded (by decide) (by omega), Option.bind_some, if_pos (by omega)]
  have hoffset : (if offset < 0 then -1 else 1) *
      (60 * ((offset.natAbs / 60 : Nat) : Int) + ((offset.natAbs % 60 : Nat) : Int)) = offset := by
    split <;> omega
  rw [hoffset]

theorem readIso?_iso (m : Moment) : readIso? m.iso = some (m.seconds, m.offset) := by
  obtain ⟨t, ht⟩ : ∃ t, t = DateTime.ofSeconds (m.seconds + 60 * m.offset) := ⟨_, rfl⟩
  have htext : m.iso.toList =
      (padded 4 t.date.year.toNat).toList ++ ((dayText t.date).toList ++
        'T' :: ((clockText t.second).toList ++ ((offsetText m.offset).toList ++ []))) := by
    have hmark : "T".toList = ['T'] := rfl
    simp only [Moment.iso, ← ht, String.toList_append, List.append_assoc, hmark, List.cons_append,
      List.nil_append, List.append_nil]
  have hvalid : t.date.Valid := ht ▸ (dayNumber_ofDay _).1
  have hyear : 1 ≤ t.date.year ∧ t.date.year ≤ 9999 := by
    have hrange := m.local_inRange
    rwa [InRange, yearAt, ← ht] at hrange
  have hseconds : t.toSeconds = m.seconds + 60 * m.offset := ht ▸ toSeconds_ofSeconds _
  have hlt : t.second < 86400 := by
    rw [ht, DateTime.ofSeconds]
    dsimp only
    omega
  rw [readIso?, htext, readDate_append hvalid hyear]
  simp only [Option.bind_eq_bind, Option.bind_some, readMark_cons]
  rw [readClock_append hlt, Option.bind_some]
  dsimp only
  rw [readOffset_append m.offset_lt, Option.bind_some, if_pos rfl, hseconds, Int.add_sub_cancel]

end CommentTags.Time

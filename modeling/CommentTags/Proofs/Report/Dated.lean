import CommentTags.Proofs.Report.Rows
import CommentTags.Proofs.Time.Succession
import CommentTags.Report.Columns

namespace CommentTags

namespace Time

variable {m m' : Moment} {zone : Int}

/-- A date, in a year that is not padded, and a time of day. -/
def readShown? (text : String) : Option DateTime := do
  let s := text.toList
  let zeros := List.replicate (4 - (s.takeWhile Char.isDigit).length) '0'
  let (date, s) ← readDate (zeros ++ s)
  let s ← readMark ' ' s
  let (second, s) ← readClock s
  if s = [] then some ⟨date, second⟩ else none

example : readShown? "999-02-28 23:59:59" = some ⟨⟨999, 2, 28⟩, 86399⟩ := by decide

theorem zeros_append_year {year : Int} (h : 0 ≤ year) {s : List Char}
    (hs : ∃ s', s = '-' :: s') :
    List.replicate (4 - (((toString year).toList ++ s).takeWhile Char.isDigit).length) '0' ++
      ((toString year).toList ++ s) = (padded 4 year.toNat).toList ++ s := by
  obtain ⟨n, rfl⟩ := Int.eq_ofNat_of_zero_le h
  obtain ⟨s, rfl⟩ := hs
  have hdigits : (toString (n : Int)).toList = Nat.toDigits 10 n :=
    Report.Json.toList_toString_ofNat n
  have hrepr : (toString n).toList = Nat.toDigits 10 n := Nat.toList_repr
  have hall : ∀ c ∈ Nat.toDigits 10 n, c.isDigit = true := fun c =>
    Nat.isDigit_of_mem_toDigits (by decide) (by decide)
  have htake : (Nat.toDigits 10 n ++ '-' :: s).takeWhile Char.isDigit = Nat.toDigits 10 n := by
    rw [List.takeWhile_append_of_pos hall, List.takeWhile_cons_of_neg (by decide), List.append_nil]
  rw [hdigits, htake, Int.toNat_natCast, padded, String.toList_append, String.toList_ofList,
    ← String.length_toList, hrepr, List.append_assoc]

theorem exists_toList_dayText (d : Date) : ∃ s, (dayText d).toList = '-' :: s := by
  have hdash : "-".toList = ['-'] := rfl
  refine ⟨(padded 2 d.month ++ "-" ++ padded 2 d.day).toList, ?_⟩
  simp only [dayText, String.toList_append, hdash, List.append_assoc, List.cons_append,
    List.nil_append]

theorem readShown?_of_valid {d : DateTime} (hd : d.date.Valid) (hsecond : d.second < 86400)
    (hyear : 1 ≤ d.date.year ∧ d.date.year ≤ 9999) :
    readShown? (toString d.date.year ++ dayText d.date ++ " " ++ clockText d.second) = some d := by
  have hspace : " ".toList = [' '] := rfl
  have hclock : (clockText d.second).toList = (clockText d.second).toList ++ [] :=
    (List.append_nil _).symm
  have hdash : ∃ s, (dayText d.date).toList ++ ' ' :: (clockText d.second).toList = '-' :: s := by
    obtain ⟨s, hs⟩ := exists_toList_dayText d.date
    exact ⟨s ++ ' ' :: (clockText d.second).toList, by rw [hs, List.cons_append]⟩
  have htext : (toString d.date.year ++ dayText d.date ++ " " ++ clockText d.second).toList =
      (toString d.date.year).toList ++
        ((dayText d.date).toList ++ ' ' :: (clockText d.second).toList) := by
    simp only [String.toList_append, List.append_assoc, hspace, List.singleton_append]
  rw [readShown?]
  dsimp only
  rw [htext, zeros_append_year (by omega) hdash, readDate_append hd hyear]
  simp only [Option.bind_eq_bind, Option.bind_some, readMark_cons]
  rw [hclock, readClock_append hsecond, Option.bind_some, if_pos rfl]

theorem exists_localText (h : InRange (m.seconds + 60 * zone)) :
    ∃ text, m.localText zone = .ok text ∧
      readShown? text = some (DateTime.ofSeconds (m.seconds + 60 * zone)) := by
  obtain ⟨hdate, hsecond, -⟩ := isAt_ofSeconds (m.seconds + 60 * zone)
  have hyear := h
  rw [InRange, yearAt] at hyear
  rw [Moment.localText, if_pos h]
  exact ⟨_, rfl, readShown?_of_valid hdate hsecond hyear⟩

theorem localText_of_not_inRange (h : ¬ InRange (m.seconds + 60 * zone)) :
    m.localText zone = .error .dateOutOfRange :=
  if_neg h

theorem localText_congr (h : m.seconds = m'.seconds) : m.localText zone = m'.localText zone := by
  rw [Moment.localText, Moment.localText, h]

end Time

namespace Report

open Time (DateTime InRange Moment TimeError readIso? readShown?)

/-- In everything that shows a commit there stands this for its time; an error stands for all of
it. A line shows nothing either if its heading cannot be cut. -/
structure ShowsTime (zone : Int) (p : Provenance) (time : Except TimeError String) : Prop where
  provenance : provenanceText zone p = time.map (· ++ " " ++ p.author)
  tag : ∀ t : Tag, t.provenance = some p →
    tagText zone t = time.map fun w => t.heading ++ " " ++ (w ++ " " ++ p.author) ++ " " ++ t.place
  plain : ∀ (t : Tag) (width : Int), t.provenance = some p →
    plainLine zone width t = (headingColumn width t).mapError .heading >>= fun heading =>
      (time.mapError .time).map fun w => heading ++ " " ++ w ++ " " ++ t.place
  styled : ∀ (t : Tag) (width : Int), t.provenance = some p →
    (styledLine zone width t).map StyledText.plain =
      (headingColumn width t).mapError .heading >>= fun heading =>
        (time.mapError .time).map fun w =>
          (heading ++ " " ++ w ++ " " ++ t.place).toList.filter (!isDropped ·)

theorem plain_of_columns (t : Tag) (heading time : String) :
    ((StyledText.mk [] []).append heading (some (styleOf t.kind))
      |>.append (" " ++ time ++ " ") none
      |>.append t.place (some "dim")).plain =
      (heading ++ " " ++ time ++ " " ++ t.place).toList.filter (!isDropped ·) := by
  simp only [StyledText.append, String.toList_append, List.filter_append, List.append_assoc,
    List.nil_append]

theorem showsTime_localText (zone : Int) (p : Provenance) :
    ShowsTime zone p (p.time.localText zone) := by
  have hcolumn : ∀ t : Tag, t.provenance = some p →
      changedColumn zone t = p.time.localText zone := by
    intro t ht
    rw [changedColumn, ht]
  constructor
  case provenance => cases h : p.time.localText zone <;> rw [provenanceText, h] <;> rfl
  case tag =>
    intro t ht
    rw [tagText, ht]
    dsimp only
    cases h : p.time.localText zone <;> rw [provenanceText, h] <;> rfl
  case plain =>
    intro t width ht
    rw [plainLine, columns, hcolumn t ht]
    cases headingColumn width t with
    | error e => rfl
    | ok heading => cases p.time.localText zone <;> rfl
  case styled =>
    intro t width ht
    rw [styledLine, columns, hcolumn t ht]
    cases headingColumn width t with
    | error e => rfl
    | ok heading =>
      cases p.time.localText zone with
      | error e => rfl
      | ok w => exact congrArg Except.ok (plain_of_columns t heading w)

structure Dated (c : Git.Commit) (p : Provenance) : Prop where
  author : p.author = c.author
  /-- The row of a tag has a text for the time that says the instant and the offset. -/
  row : ∀ t : Tag, t.provenance = some p → ∃ text,
    (((tagJson t).field? "git").bind (·.field? "time")).bind (·.text?) = some text ∧
      readIso? text = some (c.seconds, c.offset)
  columns : ∀ zone, ShowsTime zone p (p.time.localText zone)
  /-- What is shown is the date and time of day on the reader's clock. -/
  inRange : ∀ zone, InRange (c.seconds + 60 * zone) → ∃ text, p.time.localText zone = .ok text ∧
    readShown? text = some (DateTime.ofSeconds (c.seconds + 60 * zone))
  outOfRange : ∀ zone, ¬ InRange (c.seconds + 60 * zone) →
    p.time.localText zone = .error .dateOutOfRange
  /-- The offset at which it was committed does not matter for that. -/
  anyOffset : ∀ (zone : Int) (m : Moment), m.seconds = c.seconds →
    m.localText zone = p.time.localText zone

theorem dated_of_make {c : Git.Commit} {p : Provenance}
    (htime : Moment.make c.seconds c.offset = .ok p.time) (hauthor : p.author = c.author) :
    Dated c p := by
  obtain ⟨hseconds, hoffset⟩ := Moment.make_eq_ok htime
  constructor
  case author => exact hauthor
  case row =>
    intro t ht
    refine ⟨p.time.iso, ?_, hseconds ▸ hoffset ▸ Time.readIso?_iso p.time⟩
    have hgit : (tagJson t).field? "git" = some ((t.provenance.map provenanceJson).getD .null) :=
      rfl
    rw [hgit, ht]
    rfl
  case columns => exact fun zone => showsTime_localText zone p
  case inRange => exact fun zone h => hseconds ▸ Time.exists_localText (hseconds ▸ h)
  case outOfRange => exact fun zone h => Time.localText_of_not_inRange (hseconds ▸ h)
  case anyOffset => exact fun zone m hm => Time.localText_congr (hm.trans hseconds.symm)

/-- Where a line has a commit with an author, the commit's time is taken over if, and only if, its
year is one of 1 to 9999 both in UTC and at the offset; and then each place that shows it says what
the calendar has for that instant. The calendar gives every day the date after that of the day
before. -/
theorem lineProvenance_dated (b : Git.Blame) (line : Int) (c : Git.Commit)
    (hline : b line = .ok (some c)) (hauthor : c.author ≠ "")
    (hoffset : -1440 < c.offset ∧ c.offset < 1440) :
    ((∃ e, lineProvenance b line = .error e) ↔
      ¬ (InRange c.seconds ∧ InRange (c.seconds + 60 * c.offset))) ∧
    (InRange c.seconds ∧ InRange (c.seconds + 60 * c.offset) →
      ∃ p, lineProvenance b line = .ok (some p) ∧ Dated c p) ∧
    (Time.Date.ofDay Time.epochDay = ⟨1970, 1, 1⟩ ∧
      (∀ n, Time.Date.ofDay (n + 1) = (Time.Date.ofDay n).next) ∧
      ∀ t (d : DateTime), d.IsAt t ↔ d = DateTime.ofSeconds t) := by
  have hfound : InRange c.seconds ∧ InRange (c.seconds + 60 * c.offset) →
      ∃ p, lineProvenance b line = .ok (some p) ∧ Dated c p := by
    rintro ⟨hutc, hlocal⟩
    have hmake := Moment.make_of_representable ⟨hoffset, hutc, hlocal⟩
    have hprovenance : c.provenance =
        (Moment.make c.seconds c.offset).map fun time => some ⟨time, c.author⟩ := if_neg hauthor
    refine ⟨⟨_, c.author⟩, ?_, dated_of_make hmake rfl⟩
    rw [lineProvenance, hline]
    dsimp only
    rw [hprovenance, hmake]
    rfl
  refine ⟨⟨?_, fun hout => ?_⟩, hfound, by decide, Time.ofDay_succ, fun t d => ?_⟩
  · rintro ⟨e, he⟩ hin
    obtain ⟨p, hp, -⟩ := hfound hin
    rw [hp] at he
    cases he
  · cases hresult : lineProvenance b line with
    | error e => exact ⟨e, rfl⟩
    | ok x =>
      have hsettled := exists_lineProvenance_eq_ok_iff.mp ⟨x, hresult⟩
      obtain ⟨-, hutc, hlocal⟩ := hsettled.hasTime c hline hauthor
      exact absurd ⟨hutc, hlocal⟩ hout
  · exact ⟨fun h => h.eq_ofSeconds, fun h => h ▸ Time.isAt_ofSeconds t⟩

def leapDayCommit : Git.Commit :=
  ⟨-2077657200, -90, "Ada", []⟩

theorem leapDayCommit_dated :
    ∃ p, lineProvenance (fun _ => .ok (some leapDayCommit)) 1 = .ok (some p) ∧
      Dated leapDayCommit p ∧ p.time.iso = "1904-02-29T23:30:00-01:30" ∧
      p.time.localText 345 = .ok "1904-03-01 06:45:00" := by
  obtain ⟨-, hfound, -⟩ := lineProvenance_dated (fun _ => .ok (some leapDayCommit)) 1 leapDayCommit
    rfl (by decide) (by decide)
  obtain ⟨p, hp, hdated⟩ := hfound (by decide)
  have htime : lineProvenance (fun _ => .ok (some leapDayCommit)) 1 =
      .ok (some ⟨⟨-2077657200, -90, by decide, by decide, by decide⟩, "Ada"⟩) := by
    decide
  obtain rfl := Option.some.inj (Except.ok.inj (hp.symm.trans htime))
  exact ⟨_, hp, hdated, by decide, by decide⟩

end Report

end CommentTags

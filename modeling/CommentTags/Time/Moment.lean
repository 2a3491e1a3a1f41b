import CommentTags.Time.Calendar

namespace CommentTags.Time

inductive TimeError where
  /-- The offset has too many days for a duration. -/
  | durationTooLong (days : Int)
  | offsetOutOfRange (minutes : Int)
  | secondsOutOfRange
  | yearTooLarge
  /-- The year in UTC, as 32 bits hold it, is outside 1 to 9999. -/
  | yearOutOfRange (year : Int)
  /-- The year is outside 1 to 9999 once the offset has been added. -/
  | dateOutOfRange
  deriving DecidableEq, Repr

def durationText (minutes : Int) : String :=
  let seconds := minutes % 1440 * 60
  "datetime.timedelta(days=" ++ toString (minutes / 1440) ++
    (if seconds = 0 then "" else ", seconds=" ++ toString seconds) ++ ")"

def TimeError.message : TimeError → String
  | durationTooLong days => "days=" ++ toString days ++ "; must have magnitude <= 999999999"
  | offsetOutOfRange minutes =>
    "offset must be a timedelta strictly between -timedelta(hours=24) and timedelta(hours=24), not "
      ++ durationText minutes ++ "."
  | secondsOutOfRange => "timestamp out of range for platform time_t"
  | yearTooLarge => "[Errno 75] Value too large for defined data type"
  | yearOutOfRange year => "year " ++ toString year ++ " is out of range"
  | dateOutOfRange => "date value out of range"

def yearAt (t : Int) : Int :=
  (DateTime.ofSeconds t).date.year

/-- The years that have a representation are 1 to 9999. -/
def InRange (t : Int) : Prop :=
  1 ≤ yearAt t ∧ yearAt t ≤ 9999

instance (t : Int) : Decidable (InRange t) :=
  inferInstanceAs (Decidable (_ ∧ _))

/-- An instant that can be shown in UTC and at its own offset, which is given in minutes. -/
structure Moment where
  seconds : Int
  offset : Int
  offset_lt : -1440 < offset ∧ offset < 1440
  utc_inRange : InRange seconds
  local_inRange : InRange (seconds + 60 * offset)
  deriving DecidableEq

def Moment.make (seconds offset : Int) : Except TimeError Moment :=
  if 999999999 < (offset / 1440).natAbs then .error (.durationTooLong (offset / 1440))
  else if ho : -1440 < offset ∧ offset < 1440 then
    if seconds < -0x8000000000000000 ∨ 0x8000000000000000 ≤ seconds then .error .secondsOutOfRange
    else if yearAt seconds < 1900 - 0x80000000 ∨ 1900 + 0x80000000 ≤ yearAt seconds then
      .error .yearTooLarge
    else if hu : InRange seconds then
      if hl : InRange (seconds + 60 * offset) then .ok ⟨seconds, offset, ho, hu, hl⟩
      else .error .dateOutOfRange
    else .error (.yearOutOfRange ((yearAt seconds).bmod 0x100000000))
  else .error (.offsetOutOfRange offset)

def padded (width n : Nat) : String :=
  let digits := toString n
  String.ofList (List.replicate (width - digits.length) '0') ++ digits

def clockText (second : Nat) : String :=
  padded 2 (second / 3600) ++ ":" ++ padded 2 (second / 60 % 60) ++ ":" ++ padded 2 (second % 60)

def dayText (d : Date) : String :=
  "-" ++ padded 2 d.month ++ "-" ++ padded 2 d.day

def offsetText (minutes : Int) : String :=
  (if minutes < 0 then "-" else "+") ++ padded 2 (minutes.natAbs / 60) ++ ":" ++
    padded 2 (minutes.natAbs % 60)

def Moment.iso (m : Moment) : String :=
  let t := DateTime.ofSeconds (m.seconds + 60 * m.offset)
  padded 4 t.date.year.toNat ++ dayText t.date ++ "T" ++ clockText t.second ++ offsetText m.offset

/-- The time as it is shown to a user whose clock is `zone` minutes ahead of UTC. The year is not
padded. -/
def Moment.localText (zone : Int) (m : Moment) : Except TimeError String :=
  let t := DateTime.ofSeconds (m.seconds + 60 * zone)
  if InRange (m.seconds + 60 * zone) then
    .ok (toString t.date.year ++ dayText t.date ++ " " ++ clockText t.second)
  else .error .dateOutOfRange

end CommentTags.Time

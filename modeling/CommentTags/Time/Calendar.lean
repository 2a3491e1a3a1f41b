namespace CommentTags.Time

structure Date where
  year : Int
  month : Nat
  day : Nat
  deriving DecidableEq, Repr

def isLeap (year : Int) : Bool :=
  year % 4 = 0 && (year % 100 ≠ 0 || year % 400 = 0)

def monthLengths (leap : Bool) : List Nat :=
  [31, if leap then 29 else 28, 31, 30, 31, 30, 31, 31, 30, 31, 30, 31]

def daysBeforeYear (year : Int) : Int :=
  (year - 1) * 365 + (year - 1) / 4 - (year - 1) / 100 + (year - 1) / 400

def daysBeforeMonth (year : Int) (month : Nat) : Nat :=
  ((monthLengths (isLeap year)).take (month - 1)).foldl (· + ·) 0

/-- The number of a date's day; 1 January of year 1 has the number 0. -/
def dayNumber (d : Date) : Int :=
  daysBeforeYear d.year + daysBeforeMonth d.year d.month + (d.day - 1)

/-- Years before this one in its cycle of 400, and days before this one in its year. A cycle has
146097 days, a century 36524 and four years 1461; only the last part of a cycle may be a day
longer. -/
def splitCycle (day : Nat) : Nat × Nat :=
  let centuries := min 3 (day / 36524)
  let inCentury := day - centuries * 36524
  let inFour := inCentury % 1461
  let years := min 3 (inFour / 365)
  (centuries * 100 + inCentury / 1461 * 4 + years, inFour - years * 365)

/-- The month and the day of the month, given the month's number, the lengths of the months from
there on, and the days since that month began. -/
def splitYear (month : Nat) : List Nat → Nat → Nat × Nat
  | [], day => (month, day + 1)
  | n :: ns, day => if day < n then (month, day + 1) else splitYear (month + 1) ns (day - n)

def Date.ofDay (n : Int) : Date :=
  let (years, rest) := splitCycle (n % 146097).toNat
  let year := n / 146097 * 400 + years + 1
  let (month, day) := splitYear 1 (monthLengths (isLeap year)) rest
  ⟨year, month, day⟩

def epochDay : Int := 719162

example : dayNumber ⟨1970, 1, 1⟩ = epochDay := by decide

structure DateTime where
  date : Date
  second : Nat
  deriving DecidableEq, Repr

def DateTime.ofSeconds (t : Int) : DateTime :=
  ⟨Date.ofDay (t / 86400 + epochDay), (t % 86400).toNat⟩

def DateTime.toSeconds (d : DateTime) : Int :=
  (dayNumber d.date - epochDay) * 86400 + d.second

end CommentTags.Time

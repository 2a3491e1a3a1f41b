import CommentTags.Report.Json
import Mathlib.Data.List.TakeWhile
import Mathlib.Tactic.SplitIfs

namespace CommentTags.Report.Json

open Nat (ofDigitChars toDigits)

def isBlank (c : Char) : Bool :=
  c = ' ' || c = '\t' || c = '\n' || c = '\r'

def skipBlanks (s : List Char) : List Char :=
  s.dropWhile isBlank

def readMark (mark : Char) (s : List Char) : Option (List Char) :=
  match skipBlanks s with
  | [] => none
  | c :: s => if c = mark then some s else none

def hexValue? (c : Char) : Option Nat :=
  if '0' ≤ c ∧ c ≤ '9' then some (c.toNat - 48)
  else if 'a' ≤ c ∧ c ≤ 'f' then some (c.toNat - 87)
  else if 'A' ≤ c ∧ c ≤ 'F' then some (c.toNat - 55)
  else none

def readHex (a b c d : Char) : Option Nat := do
  return (((← hexValue? a) * 16 + (← hexValue? b)) * 16 + (← hexValue? c)) * 16 + (← hexValue? d)

def escaped? (c : Char) : Option Nat :=
  if c = '"' ∨ c = '\\' ∨ c = '/' then some c.toNat
  else if c = 'b' then some 8
  else if c = 'f' then some 12
  else if c = 'n' then some 10
  else if c = 'r' then some 13
  else if c = 't' then some 9
  else none

def readUnits : List Char → Option (List Nat × List Char)
  | [] => none
  | c :: s =>
    if c = '"' then some ([], s)
    else if c = '\\' then
      match s with
      | [] => none
      | e :: s =>
        if e = 'u' then
          match s with
          | h :: i :: j :: k :: s => do
            let n ← readHex h i j k
            let (ns, rest) ← readUnits s
            return (n :: ns, rest)
          | _ => none
        else do
          let n ← escaped? e
          let (ns, rest) ← readUnits s
          return (n :: ns, rest)
    else if c.toNat < 32 then none
    else do
      let (ns, rest) ← readUnits s
      return (c.toNat :: ns, rest)

/-- The characters that code units stand for. A high surrogate and the low one behind it make up a
single character, and neither of them is one by itself. -/
def joinUnits : List Nat → Option (List Char)
  | [] => some []
  | n :: ns =>
    if 0xD800 ≤ n ∧ n < 0xDC00 then
      match ns with
      | m :: ns =>
        if 0xDC00 ≤ m ∧ m < 0xE000 then do
          return Char.ofNat (0x10000 + (n - 0xD800) * 0x400 + (m - 0xDC00)) :: (← joinUnits ns)
        else none
      | [] => none
    else if 0xDC00 ≤ n ∧ n < 0xE000 then none
    else do return Char.ofNat n :: (← joinUnits ns)

def readString (s : List Char) : Option (String × List Char) := do
  let (ns, rest) ← readUnits s
  return (.ofList (← joinUnits ns), rest)

def readNat (s : List Char) : Option (Nat × List Char) :=
  let ds := s.takeWhile Char.isDigit
  if ds = [] ∨ (ds.head? = some '0' ∧ ds ≠ ['0']) then none
  else some (ofDigitChars 10 ds 0, s.dropWhile Char.isDigit)

def readInt (s : List Char) : Option (Int × List Char) :=
  match s with
  | [] => none
  | c :: s =>
    if c = '-' then (readNat s).map fun r => (-r.1, r.2)
    else (readNat (c :: s)).map fun r => (r.1, r.2)

mutual

def readValue : Nat → List Char → Option (Json × List Char)
  | 0, _ => none
  | fuel + 1, s =>
    match skipBlanks s with
    | [] => none
    | c :: s =>
      if c = 'n' then if s.take 3 = "ull".toList then some (null, s.drop 3) else none
      else if c = '"' then (readString s).map fun r => (str r.1, r.2)
      else if c = '[' then
        match readMark ']' s with
        | some rest => some (arr [], rest)
        | none => (readItems fuel s).map fun r => (arr r.1, r.2)
      else if c = '\x7b' then
        match readMark '\x7d' s with
        | some rest => some (obj [], rest)
        | none => (readFields fuel s).map fun r => (obj r.1, r.2)
      else (readInt (c :: s)).map fun r => (int r.1, r.2)

/-- The items of an array from one of them on, and what follows the closing bracket. -/
def readItems : Nat → List Char → Option (List Json × List Char)
  | 0, _ => none
  | fuel + 1, s => do
    let (j, s) ← readValue fuel s
    match readMark ',' s with
    | some s => (readItems fuel s).map fun r => (j :: r.1, r.2)
    | none => (readMark ']' s).map fun rest => ([j], rest)

/-- The fields of an object from one of them on, and what follows the closing bracket. -/
def readFields : Nat → List Char → Option (List (String × Json) × List Char)
  | 0, _ => none
  | fuel + 1, s => do
    let s ← readMark '"' s
    let (k, s) ← readString s
    let s ← readMark ':' s
    let (j, s) ← readValue fuel s
    match readMark ',' s with
    | some s => (readFields fuel s).map fun r => ((k, j) :: r.1, r.2)
    | none => (readMark '\x7d' s).map fun rest => ([(k, j)], rest)

end

/-- The value that a document stands for. A document is as deep as it is long at most. -/
def read? (s : List Char) : Option Json := do
  let (j, rest) ← readValue s.length s
  if skipBlanks rest = [] then some j else none

variable {s rest : List Char}

theorem hexValue?_hexDigit : ∀ n < 16, hexValue? (Text.Quoted.hexDigit n) = some n := by
  decide

theorem readUnits_plain {c : Char} (hquote : c ≠ '"') (hslash : c ≠ '\\') (h : 32 ≤ c.toNat) :
    readUnits (c :: s) = (readUnits s).map fun r => (c.toNat :: r.1, r.2) := by
  rw [readUnits.eq_def]
  dsimp only
  rw [if_neg hquote, if_neg hslash, if_neg (Nat.not_lt.mpr h)]
  cases readUnits s <;> rfl

theorem readUnits_escaped {e : Char} {n : Nat} (hu : e ≠ 'u') (h : escaped? e = some n) :
    readUnits ('\\' :: e :: s) = (readUnits s).map fun r => (n :: r.1, r.2) := by
  rw [readUnits.eq_def]
  dsimp only
  rw [if_neg (by decide), if_pos rfl, if_neg hu, h]
  cases readUnits s <;> rfl

theorem readUnits_unicodeEscape {n : Nat} (h : n < 0x10000) :
    readUnits (unicodeEscape n ++ s) = (readUnits s).map fun r => (n :: r.1, r.2) := by
  have hhex : readHex (Text.Quoted.hexDigit (n / 16 / 16 / 16 % 16))
      (Text.Quoted.hexDigit (n / 16 / 16 % 16)) (Text.Quoted.hexDigit (n / 16 % 16))
      (Text.Quoted.hexDigit (n % 16)) = some n := by
    have hdigit := fun m => hexValue?_hexDigit (m % 16) (Nat.mod_lt m (by decide))
    rw [readHex, hdigit, hdigit, hdigit, hdigit]
    simp only [Option.pure_def, Option.bind_eq_bind, Option.bind_some, Option.some.injEq]
    omega
  change readUnits ('\\' :: 'u' :: _ :: _ :: _ :: _ :: s) = _
  rw [readUnits.eq_def]
  dsimp only
  rw [if_neg (by decide), if_pos rfl, if_pos rfl, hhex]
  cases readUnits s <;> rfl

def units (c : Char) : List Nat :=
  let n := c.toNat
  if n < 0x10000 then [n] else [0xD800 + (n - 0x10000) / 0x400, 0xDC00 + (n - 0x10000) % 0x400]

theorem units_of_lt {c : Char} (h : c.toNat < 0x10000) : units c = [c.toNat] :=
  if_pos h

theorem isValidChar_toNat (c : Char) :
    c.toNat < 0xD800 ∨ 0xDFFF < c.toNat ∧ c.toNat < 0x110000 :=
  c.valid

theorem readUnits_escape (c : Char) (s : List Char) :
    readUnits (escape c ++ s) = (readUnits s).map fun r => (units c ++ r.1, r.2) := by
  unfold escape
  dsimp only
  split_ifs with hspecial hfeed hreturn htab hback hform hplain hlt
  · obtain rfl | rfl := hspecial <;> exact readUnits_escaped (by decide) rfl
  · subst hfeed
    exact readUnits_escaped (by decide) rfl
  · subst hreturn
    exact readUnits_escaped (by decide) rfl
  · subst htab
    exact readUnits_escaped (by decide) rfl
  · rw [units_of_lt (by omega), hback]
    exact readUnits_escaped (by decide) rfl
  · rw [units_of_lt (by omega), hform]
    exact readUnits_escaped (by decide) rfl
  · obtain ⟨hquote, hslash⟩ := not_or.mp hspecial
    rw [units_of_lt (by omega)]
    exact readUnits_plain hquote hslash hplain.1
  · rw [units_of_lt hlt]
    exact readUnits_unicodeEscape hlt
  · have hvalid := isValidChar_toNat c
    rw [units, if_neg hlt, List.append_assoc, readUnits_unicodeEscape (by omega),
      readUnits_unicodeEscape (by omega), Option.map_map]
    rfl

theorem joinUnits_units (c : Char) (ns : List Nat) :
    joinUnits (units c ++ ns) = (joinUnits ns).map (c :: ·) := by
  have hvalid := isValidChar_toNat c
  unfold units
  dsimp only
  split
  · rw [List.singleton_append, joinUnits.eq_def]
    dsimp only
    rw [if_neg (by omega), if_neg (by omega), Char.ofNat_toNat]
    cases joinUnits ns <;> rfl
  · rw [List.cons_append, List.singleton_append, joinUnits.eq_def]
    dsimp only
    rw [if_pos (by omega), if_pos (by omega)]
    have hn : 0x10000 + (0xD800 + (c.toNat - 0x10000) / 0x400 - 0xD800) * 0x400 +
        (0xDC00 + (c.toNat - 0x10000) % 0x400 - 0xDC00) = c.toNat := by
      omega
    rw [hn, Char.ofNat_toNat]
    cases joinUnits ns <;> rfl

theorem readUnits_flatMap_escape (w : List Char) (rest : List Char) :
    readUnits (w.flatMap escape ++ '"' :: rest) = some (w.flatMap units, rest) := by
  induction w with
  | nil =>
    rw [List.flatMap_nil, List.nil_append, readUnits.eq_def]
    exact if_pos rfl
  | cons c w ih =>
    rw [List.flatMap_cons, List.append_assoc, readUnits_escape, ih]
    rfl

theorem joinUnits_flatMap_units (w : List Char) : joinUnits (w.flatMap units) = some w := by
  induction w with
  | nil => rfl
  | cons c w ih => rw [List.flatMap_cons, joinUnits_units, ih]; rfl

theorem readString_escape (w : String) (rest : List Char) :
    readString (w.toList.flatMap escape ++ '"' :: rest) = some (w, rest) := by
  rw [readString, readUnits_flatMap_escape]
  simp only [Option.bind_eq_bind, Option.bind_some, joinUnits_flatMap_units]
  rw [String.ofList_toList]
  rfl

/-- What follows a number does not go on with it. -/
def EndsNumber (rest : List Char) : Prop :=
  ∀ c ∈ rest.head?, c.isDigit = false

theorem head?_toDigits {n : Nat} (h : n ≠ 0) : (toDigits 10 n).head? ≠ some '0' := by
  induction n using Nat.strongRecOn with
  | ind n ih =>
    rw [Nat.toDigits_eq_if (by decide)]
    split
    · rename_i hlt
      have hdigit : ∀ m < 10, m ≠ 0 → Nat.digitChar m ≠ '0' := by decide
      exact fun heq => hdigit n hlt h (Option.some.inj heq)
    · obtain ⟨c, ds, hds⟩ :=
        List.exists_cons_of_ne_nil (Nat.toDigits_ne_nil (n := n / 10) (b := 10))
      have hrest := ih (n / 10) (by omega) (by omega)
      rw [hds] at hrest ⊢
      exact hrest

theorem readNat_toDigits (n : Nat) (h : EndsNumber rest) :
    readNat (toDigits 10 n ++ rest) = some (n, rest) := by
  have hdigits : ∀ c ∈ toDigits 10 n, c.isDigit = true :=
    fun c => Nat.isDigit_of_mem_toDigits (by decide) (by decide)
  have hrest : rest.takeWhile Char.isDigit = [] ∧ rest.dropWhile Char.isDigit = rest := by
    cases rest with
    | nil => exact ⟨rfl, rfl⟩
    | cons c rest =>
      have hc : c.isDigit = false := h c rfl
      exact ⟨List.takeWhile_cons_of_neg (by rw [hc]; decide),
        List.dropWhile_cons_of_neg (by rw [hc]; decide)⟩
  rw [readNat, List.takeWhile_append_of_pos hdigits, List.dropWhile_append_of_pos hdigits, hrest.1,
    hrest.2, List.append_nil, if_neg, Nat.ofDigitChars_ten_toDigits]
  rintro (hnil | ⟨hhead, hne⟩)
  · exact Nat.toDigits_ne_nil hnil
  · refine head?_toDigits (fun hn => hne ?_) hhead
    rw [hn, Nat.toDigits_zero]

theorem toList_toString_ofNat (m : Nat) : (toString (Int.ofNat m)).toList = toDigits 10 m :=
  Nat.toList_repr

theorem toList_toString_negSucc (m : Nat) :
    (toString (Int.negSucc m)).toList = '-' :: toDigits 10 (m + 1) := by
  have hrepr : toString (Int.negSucc m) = "-" ++ (m + 1).repr := rfl
  rw [hrepr, String.toList_append, Nat.toList_repr]
  rfl

theorem exists_toDigits_eq_cons (m : Nat) :
    ∃ c ds, toDigits 10 m = c :: ds ∧ c.isDigit = true := by
  obtain ⟨c, ds, hds⟩ := List.exists_cons_of_ne_nil (Nat.toDigits_ne_nil (n := m) (b := 10))
  have hc : c ∈ toDigits 10 m := hds ▸ List.mem_cons_self
  exact ⟨c, ds, hds, Nat.isDigit_of_mem_toDigits (by decide) (by decide) hc⟩

theorem exists_toString_eq_cons (n : Int) :
    ∃ c ds, (toString n).toList = c :: ds ∧ (c = '-' ∨ c.isDigit = true) := by
  cases n with
  | ofNat m =>
    obtain ⟨c, ds, hds, hc⟩ := exists_toDigits_eq_cons m
    exact ⟨c, ds, (toList_toString_ofNat m).trans hds, Or.inr hc⟩
  | negSucc m => exact ⟨_, _, toList_toString_negSucc m, Or.inl rfl⟩

theorem readInt_toString (n : Int) (h : EndsNumber rest) :
    readInt ((toString n).toList ++ rest) = some (n, rest) := by
  cases n with
  | ofNat m =>
    obtain ⟨c, ds, hds, hdigit⟩ := exists_toDigits_eq_cons m
    have hc : c ≠ '-' := by
      rintro rfl
      cases hdigit
    rw [toList_toString_ofNat, hds, List.cons_append, readInt, if_neg hc, ← List.cons_append,
      ← hds, readNat_toDigits m h]
    rfl
  | negSucc m =>
    rw [toList_toString_negSucc, List.cons_append, readInt, if_pos rfl,
      readNat_toDigits (m + 1) h]
    rfl

def Blank (ws : List Char) : Prop :=
  ∀ c ∈ ws, isBlank c = true

theorem skipBlanks_append {ws : List Char} (hws : Blank ws) {c : Char} (hc : isBlank c = false)
    (s : List Char) : skipBlanks (ws ++ c :: s) = c :: s := by
  rw [skipBlanks, List.dropWhile_append_of_pos hws, List.dropWhile_cons_of_neg]
  rw [hc]
  exact Bool.false_ne_true

theorem readMark_append {ws : List Char} (hws : Blank ws) {mark : Char}
    (h : isBlank mark = false) (s : List Char) : readMark mark (ws ++ mark :: s) = some s := by
  rw [readMark, skipBlanks_append hws h]
  exact if_pos rfl

theorem readMark_append_of_ne {ws : List Char} (hws : Blank ws) {c mark : Char}
    (h : isBlank c = false) (hne : c ≠ mark) (s : List Char) :
    readMark mark (ws ++ c :: s) = none := by
  rw [readMark, skipBlanks_append hws h]
  exact if_neg hne

theorem blank_nil : Blank [] :=
  fun _ h => absurd h List.not_mem_nil

theorem readMark_cons {mark : Char} (h : isBlank mark = false) (s : List Char) :
    readMark mark (mark :: s) = some s :=
  readMark_append blank_nil h s

theorem blank_newline (depth : Nat) : Blank (newline depth) := by
  intro c hc
  obtain rfl | hc := List.mem_cons.mp hc
  · rfl
  · rw [List.eq_of_mem_replicate hc]
    rfl

def moreItems (depth : Nat) (items : List (List Char)) : List Char :=
  items.flatMap fun i => ',' :: newline depth ++ i

theorem endsNumber_cons {c : Char} (h : c.isDigit = false) (s : List Char) :
    EndsNumber (c :: s) := by
  intro d hd
  rwa [← Option.some.inj hd]

theorem endsNumber_moreItems (depth inner : Nat) (items : List (List Char)) (s : List Char) :
    EndsNumber (moreItems inner items ++ (newline depth ++ s)) := by
  cases items with
  | nil => exact endsNumber_cons (by decide) _
  | cons i items => exact endsNumber_cons (by decide) _

theorem isBlank_of_isDigit {c : Char} (h : c.isDigit = true) : isBlank c = false := by
  cases hblank : isBlank c with
  | false => rfl
  | true =>
    simp only [isBlank, Bool.or_eq_true, decide_eq_true_eq] at hblank
    obtain ((rfl | rfl) | rfl) | rfl := hblank <;> cases h

theorem ne_of_begins_number {c : Char} (h : c = '-' ∨ c.isDigit = true) :
    isBlank c = false ∧ c ≠ ']' ∧ c ≠ 'n' ∧ c ≠ '"' ∧ c ≠ '[' ∧ c ≠ '\x7b' := by
  obtain rfl | h := h
  · decide
  · refine ⟨isBlank_of_isDigit h, ?_, ?_, ?_, ?_, ?_⟩ <;>
      rintro rfl <;> cases h

theorem write_null (depth : Nat) : null.write depth = ['n', 'u', 'l', 'l'] := rfl

theorem write_int (depth : Nat) (n : Int) : (int n).write depth = (toString n).toList := rfl

theorem write_str (depth : Nat) (w : String) : (str w).write depth = writeString w := rfl

theorem write_arr (depth : Nat) (items : List Json) :
    (arr items).write depth = bracket '[' ']' depth (writeItems (depth + 1) items) := rfl

theorem write_obj (depth : Nat) (fields : List (String × Json)) :
    (obj fields).write depth = bracket '\x7b' '\x7d' depth (writeFields (depth + 1) fields) := rfl

theorem exists_write_eq_cons (depth : Nat) (j : Json) :
    ∃ c w, j.write depth = c :: w ∧ isBlank c = false ∧ c ≠ ']' := by
  cases j with
  | null => exact ⟨_, _, write_null depth, by decide, by decide⟩
  | int n =>
    obtain ⟨c, w, hw, hc⟩ := exists_toString_eq_cons n
    obtain ⟨hblank, hbracket, -⟩ := ne_of_begins_number hc
    exact ⟨c, w, (write_int depth n).trans hw, hblank, hbracket⟩
  | str s => exact ⟨_, _, write_str depth s, by decide, by decide⟩
  | arr items =>
    rw [write_arr]
    cases items with
    | nil => exact ⟨_, _, rfl, by decide, by decide⟩
    | cons j js => exact ⟨_, _, rfl, by decide, by decide⟩
  | obj fields =>
    rw [write_obj]
    cases fields with
    | nil => exact ⟨_, _, rfl, by decide, by decide⟩
    | cons f fs => exact ⟨_, _, rfl, by decide, by decide⟩

theorem length_write_pos (depth : Nat) (j : Json) : 0 < (j.write depth).length := by
  obtain ⟨c, w, hw, -⟩ := exists_write_eq_cons depth j
  rw [hw]
  exact Nat.zero_lt_succ _

theorem write_arr_cons (depth : Nat) (j : Json) (js : List Json) :
    (arr (j :: js)).write depth = '[' :: (newline (depth + 1) ++ (j.write (depth + 1) ++
      (moreItems (depth + 1) (writeItems (depth + 1) js) ++ (newline depth ++ [']'])))) := by
  rw [write_arr, writeItems, bracket]
  simp only [moreItems, List.append_assoc, List.cons_append]

def writeField (depth : Nat) (k : String) (j : Json) : List Char :=
  '"' :: (k.toList.flatMap escape ++ '"' :: ':' :: ' ' :: j.write depth)

theorem write_obj_cons (depth : Nat) (k : String) (j : Json) (fs : List (String × Json)) :
    (obj ((k, j) :: fs)).write depth = '\x7b' :: (newline (depth + 1) ++
      (writeField (depth + 1) k j ++ (moreItems (depth + 1) (writeFields (depth + 1) fs) ++
        (newline depth ++ ['\x7d'])))) := by
  rw [write_obj, writeFields, bracket]
  simp only [writeField, writeString, moreItems, List.append_assoc, List.cons_append,
    List.nil_append]

theorem writeFields_cons (depth : Nat) (k : String) (j : Json) (fs : List (String × Json)) :
    writeFields depth ((k, j) :: fs) = writeField depth k j :: writeFields depth fs := by
  simp only [writeFields, writeField, writeString, List.append_assoc, List.cons_append,
    List.nil_append]

theorem moreItems_cons (depth : Nat) (i : List Char) (items : List (List Char)) :
    moreItems depth (i :: items) = ',' :: (newline depth ++ (i ++ moreItems depth items)) := by
  simp only [moreItems, List.flatMap_cons, List.cons_append, List.append_assoc]

def ReadsBack (j : Json) : Prop :=
  ∀ (depth : Nat) {fuel : Nat} {ws rest : List Char}, (j.write depth).length ≤ fuel + 1 →
    Blank ws → EndsNumber rest →
      readValue (fuel + 1) (ws ++ (j.write depth ++ rest)) = some (j, rest)

theorem readMark_comma_close {mark : Char} (hblank : isBlank mark = false) (hne : mark ≠ ',')
    (depth : Nat) (s : List Char) : readMark ',' (newline depth ++ mark :: s) = none :=
  readMark_append_of_ne (blank_newline depth) hblank hne s

theorem readItems_step {j : Json} (h : j.ReadsBack) {depth fuel : Nat} {ws tail : List Char}
    (hfuel : (j.write depth).length ≤ fuel + 1) (hws : Blank ws) (htail : EndsNumber tail) :
    readItems (fuel + 2) (ws ++ (j.write depth ++ tail)) =
      match readMark ',' tail with
      | some s => (readItems (fuel + 1) s).map fun r => (j :: r.1, r.2)
      | none => (readMark ']' tail).map fun rest => ([j], rest) := by
  rw [readItems, h depth hfuel hws htail]
  rfl

theorem readItems_write {j : Json} {js : List Json} (h : ∀ i ∈ j :: js, i.ReadsBack)
    {depth fuel outer : Nat} {ws rest : List Char} (hws : Blank ws)
    (hfuel : (j.write depth).length + (moreItems depth (writeItems depth js)).length < fuel) :
    readItems fuel (ws ++ (j.write depth ++
      (moreItems depth (writeItems depth js) ++ (newline outer ++ ']' :: rest)))) =
      some (j :: js, rest) := by
  induction js generalizing j fuel ws with
  | nil =>
    have hpos := length_write_pos depth j
    obtain ⟨fuel, rfl⟩ : ∃ k, fuel = k + 2 := ⟨fuel - 2, by omega⟩
    rw [writeItems, readItems_step (h j List.mem_cons_self) (by omega) hws
      (endsNumber_moreItems outer depth [] _), moreItems, List.flatMap_nil, List.nil_append,
      readMark_comma_close (by decide) (by decide), readMark_append (blank_newline _) (by decide)]
    rfl
  | cons k js ih =>
    obtain ⟨hj, hjs⟩ := List.forall_mem_cons.mp h
    have hpos := length_write_pos depth j
    obtain ⟨fuel, rfl⟩ : ∃ k, fuel = k + 2 := ⟨fuel - 2, by omega⟩
    rw [writeItems, moreItems_cons] at hfuel
    simp only [List.length_cons, List.length_append] at hfuel
    rw [readItems_step hj (by omega) hws (endsNumber_moreItems outer depth _ _), writeItems,
      moreItems_cons]
    simp only [List.cons_append, List.append_assoc]
    rw [readMark_cons (by decide)]
    dsimp only
    rw [ih hjs (blank_newline _) (by omega)]
    rfl

theorem length_writeField (depth : Nat) (k : String) (j : Json) :
    (j.write depth).length + 4 ≤ (writeField depth k j).length := by
  simp only [writeField, List.length_cons, List.length_append]
  omega

theorem readFields_step {j : Json} (h : j.ReadsBack) (k : String) {depth fuel : Nat}
    {ws tail : List Char} (hfuel : (writeField depth k j).length ≤ fuel + 1) (hws : Blank ws)
    (htail : EndsNumber tail) :
    readFields (fuel + 2) (ws ++ (writeField depth k j ++ tail)) =
      match readMark ',' tail with
      | some s => (readFields (fuel + 1) s).map fun r => ((k, j) :: r.1, r.2)
      | none => (readMark '\x7d' tail).map fun rest => ([(k, j)], rest) := by
  have hlen := length_writeField depth k j
  have hspace : Blank [' '] := List.forall_mem_singleton.mpr rfl
  have hvalue : readValue (fuel + 1) (' ' :: (j.write depth ++ tail)) = some (j, tail) :=
    h depth (by omega) hspace htail
  rw [writeField, readFields]
  simp only [List.cons_append, List.append_assoc]
  rw [readMark_append hws (by decide)]
  simp only [Option.bind_eq_bind, Option.bind_some]
  rw [readString_escape, Option.bind_some]
  dsimp only
  rw [readMark_cons (by decide), Option.bind_some, hvalue]
  rfl

theorem readFields_write {k : String} {j : Json} {fs : List (String × Json)}
    (h : ∀ f ∈ (k, j) :: fs, f.2.ReadsBack) {depth fuel outer : Nat} {ws rest : List Char}
    (hws : Blank ws)
    (hfuel : (writeField depth k j).length + (moreItems depth (writeFields depth fs)).length <
      fuel) :
    readFields fuel (ws ++ (writeField depth k j ++
      (moreItems depth (writeFields depth fs) ++ (newline outer ++ '\x7d' :: rest)))) =
      some ((k, j) :: fs, rest) := by
  induction fs generalizing k j fuel ws with
  | nil =>
    have hj : j.ReadsBack := h (k, j) List.mem_cons_self
    have hlen := length_writeField depth k j
    obtain ⟨fuel, rfl⟩ : ∃ k, fuel = k + 2 := ⟨fuel - 2, by omega⟩
    rw [writeFields, readFields_step hj k (by omega) hws
      (endsNumber_moreItems outer depth [] _), moreItems, List.flatMap_nil, List.nil_append,
      readMark_comma_close (by decide) (by decide), readMark_append (blank_newline _) (by decide)]
    rfl
  | cons f fs ih =>
    obtain ⟨l, i⟩ := f
    have hj : j.ReadsBack := h (k, j) List.mem_cons_self
    have hfs : ∀ f ∈ (l, i) :: fs, f.2.ReadsBack := fun f hf => h f (List.mem_cons_of_mem _ hf)
    have hlen := length_writeField depth k j
    obtain ⟨fuel, rfl⟩ : ∃ k, fuel = k + 2 := ⟨fuel - 2, by omega⟩
    rw [writeFields_cons, moreItems_cons] at hfuel
    simp only [List.length_cons, List.length_append] at hfuel
    rw [readFields_step hj k (by omega) hws (endsNumber_moreItems outer depth _ _),
      writeFields_cons, moreItems_cons]
    simp only [List.cons_append, List.append_assoc]
    rw [readMark_cons (by decide)]
    dsimp only
    rw [ih hfs (blank_newline _) (by omega)]
    rfl

theorem readsBack_null : null.ReadsBack := by
  intro depth fuel ws rest _ hws _
  rw [write_null, List.cons_append, readValue, skipBlanks_append hws (by decide)]
  rfl

theorem readsBack_int (n : Int) : (int n).ReadsBack := by
  intro depth fuel ws rest _ hws hrest
  obtain ⟨c, ds, hds, hc⟩ := exists_toString_eq_cons n
  obtain ⟨hblank, -, hn, hquote, hbracket, hbrace⟩ := ne_of_begins_number hc
  rw [write_int, hds, List.cons_append, readValue, skipBlanks_append hws hblank]
  dsimp only
  rw [if_neg hn, if_neg hquote, if_neg hbracket, if_neg hbrace, ← List.cons_append, ← hds,
    readInt_toString n hrest]
  rfl

theorem readsBack_str (w : String) : (str w).ReadsBack := by
  intro depth fuel ws rest _ hws _
  have hwrite : (str w).write depth = '"' :: (w.toList.flatMap escape ++ ['"']) :=
    write_str depth w
  rw [hwrite, List.cons_append, List.append_assoc, readValue, skipBlanks_append hws (by decide)]
  dsimp only
  rw [if_neg (by decide), if_pos rfl, List.singleton_append, readString_escape]
  rfl

theorem readsBack_arr {items : List Json} (h : ∀ j ∈ items, j.ReadsBack) :
    (arr items).ReadsBack := by
  intro depth fuel ws rest hfuel hws _
  cases items with
  | nil =>
    have hwrite : (arr []).write depth = ['[', ']'] := rfl
    rw [hwrite, List.cons_append, readValue, skipBlanks_append hws (by decide)]
    rfl
  | cons j js =>
    obtain ⟨c, w, hw, hblank, hc⟩ := exists_write_eq_cons (depth + 1) j
    have hitem : ∀ s, readMark ']' (newline (depth + 1) ++ (j.write (depth + 1) ++ s)) = none := by
      intro s
      rw [hw]
      exact readMark_append_of_ne (blank_newline _) hblank hc _
    rw [write_arr_cons] at hfuel ⊢
    simp only [List.length_cons, List.length_append, List.length_nil] at hfuel
    simp only [List.cons_append, List.append_assoc, List.nil_append]
    rw [readValue, skipBlanks_append hws (by decide)]
    dsimp only
    rw [if_neg (by decide), if_neg (by decide), if_pos rfl, hitem]
    dsimp only
    rw [readItems_write h (blank_newline _) (by omega)]
    rfl

theorem readsBack_obj {fields : List (String × Json)} (h : ∀ f ∈ fields, f.2.ReadsBack) :
    (obj fields).ReadsBack := by
  intro depth fuel ws rest hfuel hws _
  cases fields with
  | nil =>
    have hwrite : (obj []).write depth = ['\x7b', '\x7d'] := rfl
    rw [hwrite, List.cons_append, readValue, skipBlanks_append hws (by decide)]
    rfl
  | cons f fs =>
    obtain ⟨k, j⟩ := f
    have hfield : ∀ s, readMark '\x7d' (newline (depth + 1) ++ (writeField (depth + 1) k j ++ s)) =
        none := fun s =>
      readMark_append_of_ne (blank_newline _) (c := '"') (by decide) (by decide) _
    rw [write_obj_cons] at hfuel ⊢
    simp only [List.length_cons, List.length_append, List.length_nil] at hfuel
    simp only [List.cons_append, List.append_assoc, List.nil_append]
    rw [readValue, skipBlanks_append hws (by decide)]
    dsimp only
    rw [if_neg (by decide), if_neg (by decide), if_neg (by decide), if_pos rfl, hfield]
    dsimp only
    rw [readFields_write h (blank_newline _) (by omega)]
    rfl

mutual

theorem readsBack : (j : Json) → j.ReadsBack
  | null => readsBack_null
  | int n => readsBack_int n
  | str w => readsBack_str w
  | arr items => readsBack_arr (readsBack_items items)
  | obj fields => readsBack_obj (readsBack_fields fields)

theorem readsBack_items : (items : List Json) → ∀ j ∈ items, j.ReadsBack
  | [] => List.forall_mem_nil _
  | j :: items => List.forall_mem_cons.mpr ⟨readsBack j, readsBack_items items⟩

theorem readsBack_fields : (fields : List (String × Json)) → ∀ f ∈ fields, f.2.ReadsBack
  | [] => List.forall_mem_nil _
  | (_, j) :: fields => List.forall_mem_cons.mpr ⟨readsBack j, readsBack_fields fields⟩

end

/-- A document that has been written is read as the value that it was written for. -/
theorem read?_write (j : Json) {ws : List Char} (hws : Blank ws) :
    read? (j.write 0 ++ ws) = some j := by
  have hpos := length_write_pos 0 j
  have hlen : (j.write 0 ++ ws).length = (j.write 0).length - 1 + ws.length + 1 := by
    rw [List.length_append]
    omega
  have hends : EndsNumber ws := by
    intro c hc
    have hblank := hws c (List.mem_of_mem_head? hc)
    cases hdigit : c.isDigit with
    | false => rfl
    | true => rw [isBlank_of_isDigit hdigit] at hblank; cases hblank
  have hread : readValue ((j.write 0).length - 1 + ws.length + 1) (j.write 0 ++ ws) =
      some (j, ws) := readsBack j 0 (by omega) blank_nil hends
  have hskip : skipBlanks ws = [] := List.dropWhile_eq_nil_iff.mpr hws
  rw [read?, hlen, hread]
  exact if_pos hskip

/-- Other blanks and another spelling of a string do not matter. -/
example : read? "[ \"\\u00e9\\uD83D\\uDE00\\/\" ,-7]".toList =
    some (.arr [.str "é😀/", .int (-7)]) := by
  cbv

end CommentTags.Report.Json

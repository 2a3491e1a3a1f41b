import CommentTags.Proofs.Text.Valid
import CommentTags.Text.Caseless

namespace CommentTags.Text

/-- Letters with consecutive code points, or with every second one, whose lower-case forms are all
the same distance away. -/
structure LetterRange where
  first : Nat
  last : Nat
  step : Nat
  shift : Int
  deriving DecidableEq

/-- The characters that another single character is the lower-case form of, in increasing order. -/
def letterRanges : List LetterRange := [
    ⟨0x41, 0x5A, 1, 32⟩, ⟨0xC0, 0xD6, 1, 32⟩, ⟨0xD8, 0xDE, 1, 32⟩, ⟨0x100, 0x12E, 2, 1⟩,
    ⟨0x132, 0x136, 2, 1⟩, ⟨0x139, 0x147, 2, 1⟩, ⟨0x14A, 0x176, 2, 1⟩, ⟨0x178, 0x178, 1, -121⟩,
    ⟨0x179, 0x17D, 2, 1⟩, ⟨0x181, 0x181, 1, 210⟩, ⟨0x182, 0x184, 2, 1⟩, ⟨0x186, 0x186, 1, 206⟩,
    ⟨0x187, 0x187, 1, 1⟩, ⟨0x189, 0x18A, 1, 205⟩, ⟨0x18B, 0x18B, 1, 1⟩, ⟨0x18E, 0x18E, 1, 79⟩,
    ⟨0x18F, 0x18F, 1, 202⟩, ⟨0x190, 0x190, 1, 203⟩, ⟨0x191, 0x191, 1, 1⟩, ⟨0x193, 0x193, 1, 205⟩,
    ⟨0x194, 0x194, 1, 207⟩, ⟨0x196, 0x196, 1, 211⟩, ⟨0x197, 0x197, 1, 209⟩, ⟨0x198, 0x198, 1, 1⟩,
    ⟨0x19C, 0x19C, 1, 211⟩, ⟨0x19D, 0x19D, 1, 213⟩, ⟨0x19F, 0x19F, 1, 214⟩, ⟨0x1A0, 0x1A4, 2, 1⟩,
    ⟨0x1A6, 0x1A6, 1, 218⟩, ⟨0x1A7, 0x1A7, 1, 1⟩, ⟨0x1A9, 0x1A9, 1, 218⟩, ⟨0x1AC, 0x1AC, 1, 1⟩,
    ⟨0x1AE, 0x1AE, 1, 218⟩, ⟨0x1AF, 0x1AF, 1, 1⟩, ⟨0x1B1, 0x1B2, 1, 217⟩, ⟨0x1B3, 0x1B5, 2, 1⟩,
    ⟨0x1B7, 0x1B7, 1, 219⟩, ⟨0x1B8, 0x1B8, 1, 1⟩, ⟨0x1BC, 0x1BC, 1, 1⟩, ⟨0x1C4, 0x1C4, 1, 2⟩,
    ⟨0x1C5, 0x1C5, 1, 1⟩, ⟨0x1C7, 0x1C7, 1, 2⟩, ⟨0x1C8, 0x1C8, 1, 1⟩, ⟨0x1CA, 0x1CA, 1, 2⟩,
    ⟨0x1CB, 0x1DB, 2, 1⟩, ⟨0x1DE, 0x1EE, 2, 1⟩, ⟨0x1F1, 0x1F1, 1, 2⟩, ⟨0x1F2, 0x1F4, 2, 1⟩,
    ⟨0x1F6, 0x1F6, 1, -97⟩, ⟨0x1F7, 0x1F7, 1, -56⟩, ⟨0x1F8, 0x21E, 2, 1⟩, ⟨0x220, 0x220, 1, -130⟩,
    ⟨0x222, 0x232, 2, 1⟩, ⟨0x23A, 0x23A, 1, 10795⟩, ⟨0x23B, 0x23B, 1, 1⟩, ⟨0x23D, 0x23D, 1, -163⟩,
    ⟨0x23E, 0x23E, 1, 10792⟩, ⟨0x241, 0x241, 1, 1⟩, ⟨0x243, 0x243, 1, -195⟩, ⟨0x244, 0x244, 1, 69⟩,
    ⟨0x245, 0x245, 1, 71⟩, ⟨0x246, 0x24E, 2, 1⟩, ⟨0x370, 0x372, 2, 1⟩, ⟨0x376, 0x376, 1, 1⟩,
    ⟨0x37F, 0x37F, 1, 116⟩, ⟨0x386, 0x386, 1, 38⟩, ⟨0x388, 0x38A, 1, 37⟩, ⟨0x38C, 0x38C, 1, 64⟩,
    ⟨0x38E, 0x38F, 1, 63⟩, ⟨0x391, 0x3A1, 1, 32⟩, ⟨0x3A3, 0x3AB, 1, 32⟩, ⟨0x3CF, 0x3CF, 1, 8⟩,
    ⟨0x3D8, 0x3EE, 2, 1⟩, ⟨0x3F4, 0x3F4, 1, -60⟩, ⟨0x3F7, 0x3F7, 1, 1⟩, ⟨0x3F9, 0x3F9, 1, -7⟩,
    ⟨0x3FA, 0x3FA, 1, 1⟩, ⟨0x3FD, 0x3FF, 1, -130⟩, ⟨0x400, 0x40F, 1, 80⟩, ⟨0x410, 0x42F, 1, 32⟩,
    ⟨0x460, 0x480, 2, 1⟩, ⟨0x48A, 0x4BE, 2, 1⟩, ⟨0x4C0, 0x4C0, 1, 15⟩, ⟨0x4C1, 0x4CD, 2, 1⟩,
    ⟨0x4D0, 0x52E, 2, 1⟩, ⟨0x531, 0x556, 1, 48⟩, ⟨0x10A0, 0x10C5, 1, 7264⟩,
    ⟨0x10C7, 0x10C7, 1, 7264⟩, ⟨0x10CD, 0x10CD, 1, 7264⟩, ⟨0x13A0, 0x13EF, 1, 38864⟩,
    ⟨0x13F0, 0x13F5, 1, 8⟩, ⟨0x1C90, 0x1CBA, 1, -3008⟩, ⟨0x1CBD, 0x1CBF, 1, -3008⟩,
    ⟨0x1E00, 0x1E94, 2, 1⟩, ⟨0x1E9E, 0x1E9E, 1, -7615⟩, ⟨0x1EA0, 0x1EFE, 2, 1⟩,
    ⟨0x1F08, 0x1F0F, 1, -8⟩, ⟨0x1F18, 0x1F1D, 1, -8⟩, ⟨0x1F28, 0x1F2F, 1, -8⟩,
    ⟨0x1F38, 0x1F3F, 1, -8⟩, ⟨0x1F48, 0x1F4D, 1, -8⟩, ⟨0x1F59, 0x1F5F, 2, -8⟩,
    ⟨0x1F68, 0x1F6F, 1, -8⟩, ⟨0x1F88, 0x1F8F, 1, -8⟩, ⟨0x1F98, 0x1F9F, 1, -8⟩,
    ⟨0x1FA8, 0x1FAF, 1, -8⟩, ⟨0x1FB8, 0x1FB9, 1, -8⟩, ⟨0x1FBA, 0x1FBB, 1, -74⟩,
    ⟨0x1FBC, 0x1FBC, 1, -9⟩, ⟨0x1FC8, 0x1FCB, 1, -86⟩, ⟨0x1FCC, 0x1FCC, 1, -9⟩,
    ⟨0x1FD8, 0x1FD9, 1, -8⟩, ⟨0x1FDA, 0x1FDB, 1, -100⟩, ⟨0x1FE8, 0x1FE9, 1, -8⟩,
    ⟨0x1FEA, 0x1FEB, 1, -112⟩, ⟨0x1FEC, 0x1FEC, 1, -7⟩, ⟨0x1FF8, 0x1FF9, 1, -128⟩,
    ⟨0x1FFA, 0x1FFB, 1, -126⟩, ⟨0x1FFC, 0x1FFC, 1, -9⟩, ⟨0x2126, 0x2126, 1, -7517⟩,
    ⟨0x212A, 0x212A, 1, -8383⟩, ⟨0x212B, 0x212B, 1, -8262⟩, ⟨0x2132, 0x2132, 1, 28⟩,
    ⟨0x2160, 0x216F, 1, 16⟩, ⟨0x2183, 0x2183, 1, 1⟩, ⟨0x24B6, 0x24CF, 1, 26⟩,
    ⟨0x2C00, 0x2C2F, 1, 48⟩, ⟨0x2C60, 0x2C60, 1, 1⟩, ⟨0x2C62, 0x2C62, 1, -10743⟩,
    ⟨0x2C63, 0x2C63, 1, -3814⟩, ⟨0x2C64, 0x2C64, 1, -10727⟩, ⟨0x2C67, 0x2C6B, 2, 1⟩,
    ⟨0x2C6D, 0x2C6D, 1, -10780⟩, ⟨0x2C6E, 0x2C6E, 1, -10749⟩, ⟨0x2C6F, 0x2C6F, 1, -10783⟩,
    ⟨0x2C70, 0x2C70, 1, -10782⟩, ⟨0x2C72, 0x2C72, 1, 1⟩, ⟨0x2C75, 0x2C75, 1, 1⟩,
    ⟨0x2C7E, 0x2C7F, 1, -10815⟩, ⟨0x2C80, 0x2CE2, 2, 1⟩, ⟨0x2CEB, 0x2CED, 2, 1⟩,
    ⟨0x2CF2, 0x2CF2, 1, 1⟩, ⟨0xA640, 0xA66C, 2, 1⟩, ⟨0xA680, 0xA69A, 2, 1⟩, ⟨0xA722, 0xA72E, 2, 1⟩,
    ⟨0xA732, 0xA76E, 2, 1⟩, ⟨0xA779, 0xA77B, 2, 1⟩, ⟨0xA77D, 0xA77D, 1, -35332⟩,
    ⟨0xA77E, 0xA786, 2, 1⟩, ⟨0xA78B, 0xA78B, 1, 1⟩, ⟨0xA78D, 0xA78D, 1, -42280⟩,
    ⟨0xA790, 0xA792, 2, 1⟩, ⟨0xA796, 0xA7A8, 2, 1⟩, ⟨0xA7AA, 0xA7AA, 1, -42308⟩,
    ⟨0xA7AB, 0xA7AB, 1, -42319⟩, ⟨0xA7AC, 0xA7AC, 1, -42315⟩, ⟨0xA7AD, 0xA7AD, 1, -42305⟩,
    ⟨0xA7AE, 0xA7AE, 1, -42308⟩, ⟨0xA7B0, 0xA7B0, 1, -42258⟩, ⟨0xA7B1, 0xA7B1, 1, -42282⟩,
    ⟨0xA7B2, 0xA7B2, 1, -42261⟩, ⟨0xA7B3, 0xA7B3, 1, 928⟩, ⟨0xA7B4, 0xA7C2, 2, 1⟩,
    ⟨0xA7C4, 0xA7C4, 1, -48⟩, ⟨0xA7C5, 0xA7C5, 1, -42307⟩, ⟨0xA7C6, 0xA7C6, 1, -35384⟩,
    ⟨0xA7C7, 0xA7C9, 2, 1⟩, ⟨0xA7D0, 0xA7D0, 1, 1⟩, ⟨0xA7D6, 0xA7D8, 2, 1⟩, ⟨0xA7F5, 0xA7F5, 1, 1⟩,
    ⟨0xFF21, 0xFF3A, 1, 32⟩, ⟨0x10400, 0x10427, 1, 40⟩, ⟨0x104B0, 0x104D3, 1, 40⟩,
    ⟨0x10570, 0x1057A, 1, 39⟩, ⟨0x1057C, 0x1058A, 1, 39⟩, ⟨0x1058C, 0x10592, 1, 39⟩,
    ⟨0x10594, 0x10595, 1, 39⟩, ⟨0x10C80, 0x10CB2, 1, 64⟩, ⟨0x118A0, 0x118BF, 1, 32⟩,
    ⟨0x16E40, 0x16E5F, 1, 32⟩, ⟨0x1E900, 0x1E921, 1, 34⟩]

namespace LetterRange

def covers (r : LetterRange) (n : Nat) : Bool :=
  r.first ≤ n && n ≤ r.last && (n - r.first) % r.step == 0

def lower (r : LetterRange) (n : Nat) : Nat :=
  (n + r.shift).toNat

end LetterRange

def lowerChar (c : Char) : Char :=
  match letterRanges.find? (·.covers c.toNat) with
  | some r => .ofNat (r.lower c.toNat)
  | none => c

/-- The lower-case form of a character. The dotted capital I has one of two characters, and the
capital sigma has one of its own at the end of a word. -/
def lowerForm (atEnd : Bool) (c : Char) : List Char :=
  if c = '\u0130' then ['i', '\u0307']
  else if c = '\u03a3' ∧ atEnd then ['\u03c2']
  else [lowerChar c]

/-- The lower-case form of `s` behind `before`, which is written backwards. What stands before a
character and behind it decides, by `endsWord`, whether it is at the end of a word. -/
def lowerCaseAfter (endsWord : List Char → List Char → Bool) : List Char → List Char → List Char
  | _, [] => []
  | before, c :: s =>
    lowerForm (endsWord before s) c ++ lowerCaseAfter endsWord (c :: before) s

def lowerCase (endsWord : List Char → List Char → Bool) (s : List Char) : List Char :=
  lowerCaseAfter endsWord [] s

example : lowerCase (fun _ after => after = []) "\u00c0\u0130\u212a\u03a3".toList =
    "\u00e0i\u0307k\u03c2".toList := by
  decide +kernel

variable {c : Char} {k s : List Char} (endsWord : List Char → List Char → Bool)

def IsAscii (c : Char) : Prop :=
  c.toNat < 128

instance : DecidablePred IsAscii :=
  fun c => inferInstanceAs (Decidable (c.toNat < 128))

theorem lowerChar_of_isAscii (h : IsAscii c) : lowerChar c = c.toLower := by
  have htable : ∀ n < 128, lowerChar (.ofNat n) = (Char.ofNat n).toLower := by decide +kernel
  have hc := htable c.toNat h
  rwa [Char.ofNat_toNat] at hc

theorem toLower_of_not_isAscii (h : ¬ IsAscii c) : c.toLower = c := by
  refine dif_neg fun hupper => h ?_
  have hle : c.toNat ≤ 'Z'.toNat := UInt32.le_iff_toNat_le.mp hupper.2
  exact Nat.lt_of_le_of_lt hle (by decide)

/-- Of the letters beyond ASCII, only the Kelvin sign has its lower-case form in ASCII. All the
others have characters beyond ASCII. -/
theorem letterRanges_apart : ∀ r ∈ letterRanges,
    r.last < 128 ∨ r.first = 0x212a ∧ r.last = 0x212a ∨
      128 ≤ r.first + r.shift ∧ (r.last + r.shift < 0xd800 ∨
        0xdfff < r.first + r.shift ∧ r.last + r.shift < 0x110000) := by
  decide +kernel

theorem not_isAscii_lowerChar (h : ¬ IsAscii c) (hkelvin : c ≠ '\u212a') :
    ¬ IsAscii (lowerChar c) := by
  unfold lowerChar
  split
  · rename_i r hr
    have hcovers := List.find?_some hr
    simp only [LetterRange.covers, Bool.and_eq_true, decide_eq_true_eq] at hcovers
    obtain ⟨⟨hfirst, hlast⟩, -⟩ := hcovers
    have hne : c.toNat ≠ 0x212a := fun hc => hkelvin (Char.toNat_inj.mp hc)
    unfold IsAscii at h
    obtain hend | hend | ⟨hbound, hvalid⟩ := letterRanges_apart r (List.mem_of_find?_eq_some hr)
    · omega
    · omega
    · have hchar : (r.lower c.toNat).isValidChar := by
        unfold Nat.isValidChar LetterRange.lower
        omega
      have hlower : (Char.ofNat (r.lower c.toNat)).toNat = r.lower c.toNat :=
        Utf8.toNat_ofNat_of_isValidChar hchar
      rw [IsAscii, hlower, LetterRange.lower]
      omega
  · exact h

theorem lowerForm_eq_or (atEnd : Bool) (c : Char) :
    lowerForm atEnd c = [caseFold c] ∨
      ¬ IsAscii (caseFold c) ∧ ∃ d ∈ lowerForm atEnd c, ¬ IsAscii d := by
  by_cases hascii : IsAscii c
  · have hdotted : c ≠ '\u0130' := fun hc => absurd hascii (by rw [hc]; decide)
    have hsigma : c ≠ '\u03a3' := fun hc => absurd hascii (by rw [hc]; decide)
    have hkelvin : c ≠ '\u212a' := fun hc => absurd hascii (by rw [hc]; decide)
    left
    rw [lowerForm, if_neg hdotted, if_neg fun h => hsigma h.1, lowerChar_of_isAscii hascii,
      caseFold, if_neg hkelvin]
  · by_cases hkelvin : c = '\u212a'
    · left
      rw [hkelvin]
      cases atEnd <;> decide +kernel
    · right
      refine ⟨?_, ?_⟩
      · rwa [caseFold, if_neg hkelvin, toLower_of_not_isAscii hascii]
      · unfold lowerForm
        split
        · exact ⟨'\u0307', by decide, by decide⟩
        · split
          · exact ⟨'\u03c2', by decide, by decide⟩
          · exact ⟨_, List.mem_singleton_self _, not_isAscii_lowerChar hascii hkelvin⟩

theorem lowerCaseAfter_eq_or (before s : List Char) :
    lowerCaseAfter endsWord before s = s.map caseFold ∨
      (∃ d ∈ s.map caseFold, ¬ IsAscii d) ∧
        ∃ d ∈ lowerCaseAfter endsWord before s, ¬ IsAscii d := by
  induction s generalizing before with
  | nil => exact .inl rfl
  | cons c s ih =>
    rw [lowerCaseAfter, List.map_cons]
    obtain hform | ⟨hfold, d, hd, hforeign⟩ := lowerForm_eq_or (endsWord before s) c
    · obtain hrest | ⟨⟨d, hd, hfold⟩, d', hd', hforeign⟩ := ih (c :: before)
      · rw [hform, hrest]
        exact .inl rfl
      · exact .inr ⟨⟨d, List.mem_cons_of_mem _ hd, hfold⟩,
          d', List.mem_append_right _ hd', hforeign⟩
    · exact .inr ⟨⟨_, List.mem_cons_self, hfold⟩, d, List.mem_append_left _ hd, hforeign⟩

/-- A text has ASCII text for its lower-case form exactly if keywords are compared by that text. -/
theorem lowerCase_eq_iff (hk : ∀ c ∈ k, IsAscii c) :
    lowerCase endsWord s = k ↔ s.map caseFold = k := by
  obtain h | ⟨⟨d, hd, hfold⟩, d', hd', hforeign⟩ := lowerCaseAfter_eq_or endsWord [] s
  · rw [lowerCase, h]
  · constructor
    · rintro rfl
      exact absurd (hk d' hd') hforeign
    · rintro rfl
      exact absurd (hk d hd) hfold

theorem lookup_lowerCase {α : Type} {table : List (String × α)}
    (htable : ∀ row ∈ table, ∀ c ∈ row.1.toList, IsAscii c) (s : String) :
    table.lookup (.ofList (lowerCase endsWord s.toList)) = table.lookup (caselessKey s) := by
  induction table with
  | nil => rfl
  | cons row table ih =>
    obtain ⟨hrow, hrest⟩ := List.forall_mem_cons.mp htable
    obtain ⟨key, value⟩ := row
    have hkey : String.ofList (lowerCase endsWord s.toList) = key ↔ caselessKey s = key := by
      rw [caselessKey, ← String.toList_inj, ← String.toList_inj, String.toList_ofList,
        String.toList_ofList]
      exact lowerCase_eq_iff endsWord hrow
    have hbeq : (String.ofList (lowerCase endsWord s.toList) == key) = (caselessKey s == key) := by
      rw [Bool.eq_iff_iff, beq_iff_eq, beq_iff_eq]
      exact hkey
    rw [List.lookup_cons, List.lookup_cons, ih hrest, hbeq]

end CommentTags.Text

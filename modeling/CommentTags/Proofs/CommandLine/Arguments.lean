import CommentTags.CommandLine.Parse
import Mathlib.Data.List.Basic

namespace CommentTags.CommandLine

/-- A text that does not begin like an option. -/
def IsPlain (text : String) : Prop :=
  text.toList.head? ≠ some '-'

instance (text : String) : Decidable (IsPlain text) :=
  inferInstanceAs (Decidable (_ ≠ _))

/-- An option as one or two arguments: one of its spellings, and a value if it takes one. -/
structure OptionGroup where
  spelling : String
  flag : Flag
  value : Option String
  spelled : (spelling, flag) ∈ Flag.spellings
  notHelp : flag ≠ .help
  value_isSome : value.isSome = flag.takesValue
  value_plain : ∀ v ∈ value, IsPlain v
  value_named : flag = .levels → (value.bind Level.ofText?).isSome

namespace OptionGroup

def arguments (g : OptionGroup) : List String :=
  g.spelling :: g.value.toList

def level? (g : OptionGroup) : Option Level :=
  if g.flag = .levels then g.value.bind Level.ofText? else none

def keyword? (g : OptionGroup) : Option String :=
  if g.flag = .tag then g.value else none

def forms (g : OptionGroup) : List Argument :=
  ⟨g.spelling, .option g.flag (isShort g.spelling.toList) none⟩ :: g.value.toList.map (⟨·, .word⟩)

end OptionGroup

def argumentsAround (before : List OptionGroup) (paths : List String) (after : List OptionGroup) :
    List String :=
  before.flatMap OptionGroup.arguments ++ (paths ++ after.flatMap OptionGroup.arguments)

def keywordOption (keyword : String) (h : IsPlain keyword) : OptionGroup where
  spelling := "--tag"
  flag := .tag
  value := some keyword
  spelled := by decide
  notHelp := by decide
  value_isSome := rfl
  value_plain := by simpa using h
  value_named := by simp

/-- What paths and options come to. All levels count, and the last keyword. -/
def settingsOf (paths : List String) (gs : List OptionGroup) : Settings where
  paths := paths
  levels := gs.filterMap OptionGroup.level?
  tag := (gs.filterMap OptionGroup.keyword?).getLast?
  noIgnore := gs.any (·.flag = .noIgnore)
  noBlame := gs.any (·.flag = .noBlame)
  json := gs.any (·.flag = .json)
  verbose := gs.any (·.flag = .verbose)

variable {text : String} {words rest paths : List String} {g : OptionGroup}
  {gs before after : List OptionGroup} {st : State} {as : List Argument}

theorem formOf_of_isPlain (h : IsPlain text) : formOf text = .ok .word := by
  unfold IsPlain at h
  simp [formOf, h]

theorem IsPlain.ne_separator (h : IsPlain text) : text ≠ "--" := by
  rintro rfl
  exact h (by decide)

theorem formOf_spelling : ∀ o ∈ Flag.spellings,
    formOf o.1 = .ok (.option o.2 (isShort o.1.toList) none) ∧ o.1 ≠ "--" := by
  decide +kernel

theorem classifyArguments_word (h : IsPlain text) (rest : List String) :
    classifyArguments (text :: rest) = (classifyArguments rest).map (⟨text, .word⟩ :: ·) := by
  rw [classifyArguments, if_neg h.ne_separator, formOf_of_isPlain h]
  rfl

theorem classifyArguments_words (h : ∀ w ∈ words, IsPlain w) (rest : List String) :
    classifyArguments (words ++ rest) =
      (classifyArguments rest).map (words.map (⟨·, .word⟩) ++ ·) := by
  induction words with
  | nil =>
    rw [List.nil_append]
    cases classifyArguments rest <;> rfl
  | cons w words ih =>
    obtain ⟨hw, hwords⟩ := List.forall_mem_cons.mp h
    rw [List.cons_append, classifyArguments_word hw, ih hwords]
    cases classifyArguments rest <;> rfl

theorem classifyArguments_group (g : OptionGroup) (rest : List String) :
    classifyArguments (g.arguments ++ rest) = (classifyArguments rest).map (g.forms ++ ·) := by
  obtain ⟨hform, hne⟩ := formOf_spelling _ g.spelled
  have hvalue : ∀ w ∈ g.value.toList, IsPlain w := by
    intro w hw
    exact g.value_plain w (Option.mem_toList.mp hw)
  rw [OptionGroup.arguments, List.cons_append, classifyArguments, if_neg hne, hform,
    classifyArguments_words hvalue]
  cases classifyArguments rest <;> rfl

theorem classifyArguments_groups (gs : List OptionGroup) (rest : List String) :
    classifyArguments (gs.flatMap OptionGroup.arguments ++ rest) =
      (classifyArguments rest).map (gs.flatMap OptionGroup.forms ++ ·) := by
  induction gs with
  | nil =>
    rw [List.flatMap_nil, List.nil_append]
    cases classifyArguments rest <;> rfl
  | cons g gs ih =>
    rw [List.flatMap_cons, List.append_assoc, classifyArguments_group, ih]
    cases classifyArguments rest <;> simp [Except.map]

def State.flush (st : State) (words : List String) : State :=
  if words = [] then st else st.readWords words

theorem readArguments_flush (h : ∀ a ∈ as.head?, isWord a = false) :
    readArguments st words as = readArguments (st.flush words) [] as := by
  cases as with
  | nil => simp [readArguments, State.flush]
  | cons a as =>
    have ha : isWord a = false := h a rfl
    rw [readArguments, readArguments, ha]
    rfl

theorem readArguments_words (st : State) (words more : List String) (as : List Argument) :
    readArguments st words (more.map (⟨·, .word⟩) ++ as) = readArguments st (words ++ more) as := by
  induction more generalizing words with
  | nil => simp
  | cons w more ih =>
    have hw : isWord ⟨w, .word⟩ = true := by simp [isWord]
    rw [List.map_cons, List.cons_append, readArguments, if_pos hw, ih]
    simp

theorem readArguments_group {s : Settings} (h : st.settings.apply (g.flag, g.value) = .ok s)
    (as : List Argument) :
    readArguments st [] (g.forms ++ as) = readArguments { st with settings := s } [] as := by
  have hword (flag : Flag) (short : Bool) :
      isWord ⟨g.spelling, .option flag short none⟩ = false := by simp [isWord]
  have huse : st.use [(g.flag, g.value)] = .ok { st with settings := s } := by
    simp [State.use, h]
  have htakes := g.value_isSome
  rw [OptionGroup.forms, List.cons_append, readArguments, hword]
  cases hvalue : g.value with
  | none =>
    rw [hvalue] at htakes huse
    have hopen : openFlag? [(g.flag, none)] = none := by simp [openFlag?, ← htakes]
    simp [usesOf, hopen, huse]
  | some v =>
    rw [hvalue] at htakes huse
    have hopen : openFlag? [(g.flag, none)] = some g.flag := by simp [openFlag?, ← htakes]
    simp [usesOf, hopen, huse]

theorem apply_settingsOf (paths : List String) (gs : List OptionGroup) (g : OptionGroup) :
    (settingsOf paths gs).apply (g.flag, g.value) = .ok (settingsOf paths (gs ++ [g])) := by
  obtain ⟨spelling, flag, value, spelled, notHelp, hsome, -, hnamed⟩ := g
  cases flag with
  | help => exact absurd rfl notHelp
  | levels =>
    obtain ⟨v, rfl⟩ := Option.isSome_iff_exists.mp hsome
    obtain ⟨l, hl⟩ := Option.isSome_iff_exists.mp (hnamed rfl)
    have hlevel : Level.ofText v = .ok l := by
      rw [Option.bind_some] at hl
      rw [Level.ofText, hl]
    simp_all [Settings.apply, settingsOf, OptionGroup.level?, OptionGroup.keyword?]
  | tag =>
    obtain ⟨v, rfl⟩ := Option.isSome_iff_exists.mp hsome
    simp [Settings.apply, settingsOf, OptionGroup.level?, OptionGroup.keyword?]
  | noIgnore | noBlame | json | verbose =>
    simp [Settings.apply, settingsOf, OptionGroup.level?, OptionGroup.keyword?]

theorem readArguments_groups (paths : List String) (done gs : List OptionGroup) (read : Bool)
    (extras : List String) (as : List Argument) :
    readArguments ⟨settingsOf paths done, read, extras⟩ [] (gs.flatMap OptionGroup.forms ++ as) =
      readArguments ⟨settingsOf paths (done ++ gs), read, extras⟩ [] as := by
  induction gs generalizing done with
  | nil => simp
  | cons g gs ih =>
    rw [List.flatMap_cons, List.append_assoc, readArguments_group (apply_settingsOf paths done g),
      ih]
    simp

theorem head?_forms (gs : List OptionGroup) :
    ∀ a ∈ (gs.flatMap OptionGroup.forms).head?, isWord a = false := by
  cases gs with
  | nil => simp
  | cons g gs =>
    rintro a ⟨⟩
    simp [isWord]

theorem classifyArguments_around (before after : List OptionGroup)
    (hpaths : ∀ p ∈ paths, IsPlain p) :
    classifyArguments (argumentsAround before paths after) =
      .ok (before.flatMap OptionGroup.forms ++
        (paths.map (⟨·, .word⟩) ++ after.flatMap OptionGroup.forms)) := by
  have hafter := classifyArguments_groups after []
  rw [List.append_nil] at hafter
  rw [argumentsAround, classifyArguments_groups, classifyArguments_words hpaths, hafter]
  simp [classifyArguments, Except.map]

theorem flush_paths (hpaths : ∀ p ∈ paths, IsPlain p) (gs : List OptionGroup) :
    ∃ read, (State.mk (settingsOf [] gs) false []).flush paths =
      ⟨settingsOf paths gs, read, []⟩ := by
  have herase : paths.erase "--" = paths :=
    List.erase_of_not_mem fun hmem => (hpaths _ hmem).ne_separator rfl
  unfold State.flush
  split
  · rename_i hnil
    exact ⟨false, by rw [hnil]⟩
  · refine ⟨true, ?_⟩
    simp [State.readWords, herase, settingsOf]

theorem readArguments_around (before after : List OptionGroup)
    (hpaths : ∀ p ∈ paths, IsPlain p) :
    ∃ read, readArguments .initial [] (before.flatMap OptionGroup.forms ++
      (paths.map (⟨·, .word⟩) ++ after.flatMap OptionGroup.forms)) =
        .ok ⟨settingsOf paths (before ++ after), read, []⟩ := by
  obtain ⟨read, hflush⟩ := flush_paths hpaths before
  have hinitial : State.initial = ⟨settingsOf [] [], false, []⟩ := rfl
  have hafter := readArguments_groups paths before after read [] []
  rw [List.append_nil] at hafter
  refine ⟨read, ?_⟩
  rw [hinitial, readArguments_groups, readArguments_words, List.nil_append, List.nil_append,
    readArguments_flush (head?_forms after), hflush, hafter]
  simp [readArguments]

theorem parse_groups (before after : List OptionGroup) (hpaths : ∀ p ∈ paths, IsPlain p) :
    parse (argumentsAround before paths after) = .ok (settingsOf paths (before ++ after)) := by
  obtain ⟨read, hread⟩ := readArguments_around before after hpaths
  simp only [parse, classifyArguments_around before after hpaths, Except.mapError]
  change (readArguments .initial [] _ >>= _) = _
  rw [hread]
  rfl

end CommentTags.CommandLine

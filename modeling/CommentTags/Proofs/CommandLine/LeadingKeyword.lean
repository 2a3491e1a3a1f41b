import CommentTags.Proofs.CommandLine.Arguments
import CommentTags.Proofs.CommandLine.Outcome

namespace CommentTags.CommandLine

variable {keyword : String} {uses : List Use}

/-- Use a keyword if no other has been given. -/
def Settings.orTag (keyword : String) (s : Settings) : Settings :=
  { s with tag := s.tag.or (some keyword) }

def State.orTag (keyword : String) (st : State) : State :=
  { st with settings := st.settings.orTag keyword }

/-- An option that takes a value has it. -/
def Complete (u : Use) : Prop :=
  u.1.takesValue = true → u.2.isSome = true

theorem complete_concat {last : Use} (h : ∀ u ∈ uses, Complete u) (hlast : Complete last) :
    ∀ u ∈ uses ++ [last], Complete u := by
  intro u hu
  obtain hu | hu := List.mem_append.mp hu
  · exact h u hu
  · rwa [List.mem_singleton.mp hu]

theorem mem_dropLast_cons {α : Type} {a b : α} {l : List α} (h : b ∈ (a :: l).dropLast) :
    b = a ∨ b ∈ l.dropLast := by
  cases l with
  | nil => cases h
  | cons c l => exact List.mem_cons.mp h

/-- In a group of short options none but the last can lack its value. -/
theorem complete_of_takeApart {flag : Flag} {short equals : Bool} {value : List Char}
    {r : List Use × Option String} (h : takeApart flag short equals value = .ok r) :
    ∀ u ∈ r.1.dropLast, Complete u := by
  have hfirst {flag : Flag} (hflag : ¬flag.takesValue = true) {r : List Use × Option String}
      (hr : ∀ u ∈ r.1.dropLast, Complete u) :
      ∀ u ∈ ((flag, none) :: r.1).dropLast, Complete u := by
    intro u hu
    obtain rfl | hu := mem_dropLast_cons hu
    · exact fun htakes => absurd htakes hflag
    · exact hr u hu
  fun_induction takeApart flag short equals value generalizing r with
  | case1 | case5 =>
    obtain rfl := Except.ok.inj h
    simp
  | case2 | case3 | case4 => cases h
  | case6 flag short equals hflag hshort c hc next hnext =>
    obtain rfl := Except.ok.inj h
    exact hfirst (r := ([(next, none)], none)) hflag (by simp)
  | case7 flag short equals hflag hshort c hc next rest hnext ih
  | case8 flag short equals hflag hshort c hc next d rest hd hnext ih =>
    obtain ⟨r, hr, rfl⟩ := exists_of_map_eq_ok h
    exact hfirst hflag (ih hr)

theorem complete_of_usesOf {flag : Flag} {short : Bool} {attached : Option Attached}
    {r : List Use × Option String} (h : usesOf flag short attached = .ok r) :
    ∀ u ∈ r.1.dropLast, Complete u := by
  cases attached with
  | none =>
    obtain rfl := Except.ok.inj h
    simp
  | some a => exact complete_of_takeApart h

theorem complete_of_openFlag?_eq_none (h : ∀ u ∈ uses.dropLast, Complete u)
    (hopen : openFlag? uses = none) : ∀ u ∈ uses, Complete u := by
  obtain rfl | ⟨before, last, rfl⟩ := uses.eq_nil_or_concat'
  · simp
  · rw [List.dropLast_concat] at h
    have hlast : Complete last := by
      obtain ⟨flag, _ | value⟩ := last
      · intro htakes
        simp_all [openFlag?]
      · exact fun _ => rfl
    exact complete_concat h hlast

/-- How far the reading has come when the words in hand are given up, and something is left over. -/
def State.settle (st : State) (words stray : List String) : State :=
  { st.flush words with extras := (st.flush words).extras ++ stray }

/-- What an argument does that is no word: it ends the reading, or options are used that have the
values they take, and the arguments behind them are read. -/
theorem readArguments_cons {a : Argument} (h : isWord a = false) (as : List Argument) :
    (∃ e, ∀ st words, readArguments st words (a :: as) = .error e) ∨
    ∃ uses stray rest, (∀ u ∈ uses, Complete u) ∧ rest.length ≤ as.length ∧
      ∀ st words, readArguments st words (a :: as) =
        ((st.settle words stray).use uses >>= fun st => readArguments st [] rest) := by
  obtain ⟨text, form⟩ := a
  cases form with
  | word | separator => simp [isWord] at h
  | unknown =>
    refine Or.inr ⟨[], [text], as, by simp, le_rfl, fun st words => ?_⟩
    rw [readArguments, h]
    rfl
  | option flag short attached =>
    cases huses : usesOf flag short attached with
    | error e =>
      refine Or.inl ⟨.usage e, fun st words => ?_⟩
      rw [readArguments, h]
      simp [huses]
    | ok r =>
      obtain ⟨uses, stray⟩ := r
      have hcomplete := complete_of_usesOf huses
      cases hopen : openFlag? uses with
      | none =>
        refine Or.inr ⟨uses, stray.toList, as, complete_of_openFlag?_eq_none hcomplete hopen,
          le_rfl, fun st words => ?_⟩
        rw [readArguments, h]
        simp only [Bool.false_eq_true, if_false, huses, hopen, State.settle, State.flush]
        cases State.use _ uses <;> rfl
      | some f =>
        cases as with
        | nil =>
          refine Or.inl ⟨.usage (.valueMissing f), fun st words => ?_⟩
          rw [readArguments, h]
          simp [huses, hopen]
        | cons b as =>
          by_cases hb : b.form = .word
          · refine Or.inr ⟨uses.dropLast ++ [(f, some b.text)], stray.toList, as, ?_, by simp,
              fun st words => ?_⟩
            · exact complete_concat hcomplete fun _ => rfl
            · rw [readArguments, h]
              simp only [Bool.false_eq_true, if_false, huses, hopen, hb, if_true, State.settle,
                State.flush]
              cases State.use _ (uses.dropLast ++ [(f, some b.text)]) <;> rfl
          · refine Or.inl ⟨.usage (.valueMissing f), fun st words => ?_⟩
            rw [readArguments, h]
            simp [huses, hopen, hb]

theorem apply_orTag {u : Use} (h : Complete u) (s : Settings) :
    (s.orTag keyword).apply u = (s.apply u).map (Settings.orTag keyword) := by
  obtain ⟨flag, value⟩ := u
  cases flag with
  | levels =>
    rw [Settings.apply, Settings.apply]
    cases Level.ofText (value.getD "") <;> rfl
  | tag =>
    obtain ⟨v, rfl⟩ := Option.isSome_iff_exists.mp (h rfl)
    rfl
  | help | noIgnore | noBlame | json | verbose => rfl

theorem foldlM_orTag (h : ∀ u ∈ uses, Complete u) (s : Settings) :
    uses.foldlM Settings.apply (s.orTag keyword) =
      (uses.foldlM Settings.apply s).map (Settings.orTag keyword) := by
  induction uses generalizing s with
  | nil => rfl
  | cons u uses ih =>
    obtain ⟨hu, huses⟩ := List.forall_mem_cons.mp h
    rw [List.foldlM_cons, List.foldlM_cons, apply_orTag hu]
    cases s.apply u with
    | error e => rfl
    | ok s => exact ih huses s

theorem use_orTag (h : ∀ u ∈ uses, Complete u) (st : State) :
    (st.orTag keyword).use uses = (st.use uses).map (State.orTag keyword) := by
  unfold State.use
  dsimp only [State.orTag]
  rw [foldlM_orTag h]
  cases uses.foldlM Settings.apply st.settings <;> rfl

theorem flush_orTag (st : State) (words : List String) :
    (st.orTag keyword).flush words = (st.flush words).orTag keyword := by
  unfold State.flush
  split
  · rfl
  · unfold State.readWords
    have hread : (st.orTag keyword).pathsRead = st.pathsRead := rfl
    rw [hread]
    split <;> rfl

theorem settle_orTag (st : State) (words stray : List String) :
    (st.orTag keyword).settle words stray = (st.settle words stray).orTag keyword := by
  rw [State.settle, State.settle, flush_orTag]
  rfl

theorem readArguments_orTag (st : State) (words : List String) (as : List Argument) :
    readArguments (st.orTag keyword) words as =
      (readArguments st words as).map (State.orTag keyword) := by
  -- An option may take the next argument away, so that the induction is on the number of them.
  induction hn : as.length using Nat.strong_induction_on generalizing st words as with
  | _ n ih =>
    subst hn
    cases as with
    | nil => exact congrArg Except.ok (flush_orTag st words)
    | cons a as =>
      cases hword : isWord a with
      | true =>
        rw [readArguments, if_pos hword, readArguments, if_pos hword]
        exact ih as.length (by simp) st _ as rfl
      | false =>
        obtain ⟨e, herror⟩ | ⟨uses, stray, rest, huses, hrest, hstep⟩ := readArguments_cons hword as
        · rw [herror, herror]
          rfl
        · rw [hstep, hstep, settle_orTag, use_orTag huses]
          cases (st.settle words stray).use uses with
          | error e => rfl
          | ok st => exact ih rest.length (by simp; omega) st [] rest rfl

theorem parse_tag_cons (h : IsPlain keyword) (arguments : List String) :
    parse ("--tag" :: keyword :: arguments) = (parse arguments).map (Settings.orTag keyword) := by
  have hclassify := classifyArguments_group (keywordOption keyword h) arguments
  have happly : State.initial.settings.apply
      ((keywordOption keyword h).flag, (keywordOption keyword h).value) =
        .ok (Settings.initial.orTag keyword) := rfl
  have hread (as : List Argument) :
      readArguments .initial [] ((keywordOption keyword h).forms ++ as) =
        (readArguments .initial [] as).map (State.orTag keyword) := by
    rw [readArguments_group happly]
    exact readArguments_orTag State.initial [] as
  change classifyArguments ("--tag" :: keyword :: arguments) = _ at hclassify
  unfold parse
  rw [hclassify]
  cases classifyArguments arguments with
  | error e => rfl
  | ok as =>
    change (readArguments .initial [] ((keywordOption keyword h).forms ++ as) >>= _) =
      (readArguments .initial [] as >>= _).map _
    rw [hread]
    cases readArguments .initial [] as with
    | error e => rfl
    | ok st =>
      change (if st.extras = [] then _ else _) = Except.map _ (if st.extras = [] then _ else _)
      split <;> rfl

end CommentTags.CommandLine

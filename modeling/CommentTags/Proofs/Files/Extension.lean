import CommentTags.Grammar
import CommentTags.Proofs.Files.Spelling
import CommentTags.Proofs.Text.LowerCase
import CommentTags.Proofs.Text.Span

namespace CommentTags

/-- What may stand behind a name without adding a component to a path: slashes, and single dots
behind slashes. -/
inductive Trailing : List Char → Prop
  | nil : Trailing []
  | slash {tail : List Char} (h : Trailing tail) : Trailing (tail ++ ['/'])
  | dot {tail : List Char} (h : Trailing tail) : Trailing (tail ++ ['/', '.'])

/-- `name` is the last component of the path that is written `text`. -/
structure LastName (text name : List Char) : Prop where
  ne_nil : name ≠ []
  ne_dot : name ≠ ['.']
  slash_not_mem : '/' ∉ name
  placed : ∃ dir tail, text = dir ++ (name ++ tail) ∧ (∀ c ∈ dir.getLast?, c = '/') ∧ Trailing tail

/-- The last component of the path `text` is `stem`, a dot and `ext`, where that dot is the last
one of the component, and neither its first nor its last character. -/
structure HasExtension (text stem ext : List Char) : Prop where
  lastName : LastName text (stem ++ '.' :: ext)
  stem_ne_nil : stem ≠ []
  ext_ne_nil : ext ≠ []
  dot_not_mem : '.' ∉ ext

variable {text name stem ext tail tail' s : List Char} {g : Grammar} {p q : Path}

theorem Trailing.append (h : Trailing tail) (h' : Trailing tail') : Trailing (tail ++ tail') := by
  induction h' with
  | nil => rwa [List.append_nil]
  | slash _ ih =>
    rw [← List.append_assoc]
    exact .slash ih
  | dot _ ih =>
    rw [← List.append_assoc]
    exact .dot ih

theorem LastName.append (h : LastName text name) (htail : Trailing tail) :
    LastName (text ++ tail) name := by
  obtain ⟨dir, before, rfl, hdir, hbefore⟩ := h.placed
  refine ⟨h.ne_nil, h.ne_dot, h.slash_not_mem, dir, before ++ tail, ?_, hdir, hbefore.append htail⟩
  simp only [List.append_assoc]

namespace Path

theorem namesOf_of_not_mem (h : '/' ∉ s) :
    namesOf s = if s ≠ [] ∧ s ≠ ['.'] then [.ofList s] else [] := by
  rw [namesOf, splitSlashes_of_not_mem h, List.filter_singleton]
  by_cases hs : s ≠ [] ∧ s ≠ ['.']
  · rw [decide_eq_true hs, if_pos hs]
    rfl
  · rw [decide_eq_false hs, if_neg hs]
    rfl

theorem namesOf_append_trailing (h : Trailing tail) (s : List Char) :
    namesOf (s ++ tail) = namesOf s := by
  induction h with
  | nil => rw [List.append_nil]
  | slash _ ih =>
    rw [← List.append_assoc, namesOf_append_slash, ih]
    exact List.append_nil _
  | dot _ ih =>
    rw [← List.append_assoc, namesOf_append_slash, ih]
    exact List.append_nil _

theorem getLast?_namesOf (h : LastName text name) :
    (namesOf text).getLast? = some (.ofList name) := by
  obtain ⟨dir, tail, rfl, hdir, htail⟩ := h.placed
  have hname : namesOf name = [.ofList name] := by
    rw [namesOf_of_not_mem h.slash_not_mem, if_pos ⟨h.ne_nil, h.ne_dot⟩]
  rw [← List.append_assoc, namesOf_append_trailing htail]
  obtain rfl | ⟨before, c, rfl⟩ := dir.eq_nil_or_concat'
  · rw [List.nil_append, hname]
    rfl
  · obtain rfl : c = '/' := hdir c (by rw [List.getLast?_concat]; rfl)
    rw [List.append_assoc, List.singleton_append, namesOf_append_slash, hname,
      List.getLast?_concat]

/-- The induction takes away the last slash with what follows it, until that is a name. -/
theorem lastName_of_getLast? {n : String} (h : (namesOf s).getLast? = some n) :
    LastName s n.toList := by
  induction hlength : s.length using Nat.strongRecOn generalizing s with
  | ind length ih =>
    by_cases hslash : '/' ∈ s
    · obtain ⟨dir, l, rfl, hl⟩ := Text.exists_last hslash
      rw [namesOf_append_slash, namesOf_of_not_mem hl] at h
      by_cases hname : l ≠ [] ∧ l ≠ ['.']
      · rw [if_pos hname, List.getLast?_concat] at h
        obtain rfl := Option.some.inj h
        rw [String.toList_ofList]
        exact ⟨hname.1, hname.2, hl, dir ++ ['/'], [], by simp, by simp, .nil⟩
      · rw [if_neg hname, List.append_nil] at h
        have hdir : LastName dir n.toList :=
          ih dir.length (by rw [← hlength, List.length_append, List.length_cons]; omega) h rfl
        refine hdir.append ?_
        obtain rfl | rfl : l = [] ∨ l = ['.'] := by
          by_contra hne
          exact hname (not_or.mp hne)
        · exact .slash .nil
        · exact .dot .nil
    · rw [namesOf_of_not_mem hslash] at h
      by_cases hname : s ≠ [] ∧ s ≠ ['.']
      · rw [if_pos hname] at h
        obtain rfl : String.ofList s = n := Option.some.inj h
        rw [String.toList_ofList]
        exact ⟨hname.1, hname.2, hslash, [], [], by simp, by simp, .nil⟩
      · rw [if_neg hname] at h
        cases h

theorem suffixOf_of_not_mem (h : '.' ∉ name) : suffixOf name = [] := by
  have hall : name.reverse.takeWhile (· ≠ '.') = name.reverse := by
    refine List.takeWhile_eq_self_iff.mpr fun c hc => decide_eq_true ?_
    rintro rfl
    exact h (List.mem_reverse.mp hc)
  unfold suffixOf
  rw [hall, List.reverse_reverse]
  exact if_pos (.inl rfl)

theorem suffixOf_append (h : '.' ∉ ext) :
    suffixOf (stem ++ '.' :: ext) = if stem = [] ∨ ext = [] then [] else '.' :: ext := by
  have hspan : (stem ++ '.' :: ext).reverse.takeWhile (· ≠ '.') = ext.reverse := by
    rw [List.reverse_append, List.reverse_cons, List.append_assoc]
    refine Text.takeWhile_span (fun c hc => decide_eq_true ?_) ?_
    · rintro rfl
      exact h (List.mem_reverse.mp hc)
    · rintro c ⟨⟩
      decide
  have hlength : (stem ++ '.' :: ext).length - ext.length - 1 = stem.length := by
    rw [List.length_append, List.length_cons]
    omega
  have hshorter : ext.length ≠ (stem ++ '.' :: ext).length := by
    rw [List.length_append, List.length_cons]
    omega
  unfold suffixOf
  rw [hspan, List.reverse_reverse]
  dsimp only
  rw [hlength, List.take_left]
  simp only [hshorter, false_or, or_comm]

theorem exists_of_suffixOf_ne_nil (h : suffixOf name ≠ []) :
    ∃ stem ext, name = stem ++ '.' :: ext ∧ stem ≠ [] ∧ ext ≠ [] ∧ '.' ∉ ext := by
  have hdot : '.' ∈ name := by
    by_contra hdot
    exact h (suffixOf_of_not_mem hdot)
  obtain ⟨stem, ext, rfl, hext⟩ := Text.exists_last hdot
  rw [suffixOf_append hext] at h
  obtain ⟨hstem, hne⟩ := not_or.mp fun hempty => h (if_pos hempty)
  exact ⟨stem, ext, rfl, hstem, hne, hext⟩

theorem suffix_of_hasExtension {s : String} (h : HasExtension s.toList stem ext) :
    (ofString s).suffix = .ofList ('.' :: ext) := by
  rw [suffix, Path.name, ofString, getLast?_namesOf h.lastName, Option.getD_some,
    String.toList_ofList, suffixOf_append h.dot_not_mem, if_neg]
  exact not_or.mpr ⟨h.stem_ne_nil, h.ext_ne_nil⟩

theorem exists_hasExtension {s : String} (h : (ofString s).suffix ≠ "") :
    ∃ stem ext, HasExtension s.toList stem ext := by
  have hsuffix : suffixOf (ofString s).name.toList ≠ [] :=
    fun hnil => h (congrArg String.ofList hnil)
  obtain ⟨stem, ext, hname, hstem, hext, hdot⟩ := exists_of_suffixOf_ne_nil hsuffix
  cases hlast : (namesOf s.toList).getLast? with
  | none =>
    rw [Path.name, ofString, hlast] at hname
    cases stem <;> cases hname
  | some n =>
    rw [Path.name, ofString, hlast, Option.getD_some] at hname
    refine ⟨stem, ext, ?_, hstem, hext, hdot⟩
    rw [← hname]
    exact lastName_of_getLast? hlast

theorem name_child (p : Path) (n : String) : (p.child n).name = n := by
  rw [Path.name, child, List.getLast?_concat]
  rfl

theorem name_ofString_of_isName {n : String} (h : IsName n) : (ofString n).name = n := by
  rw [Path.name, names_ofString_of_isName h]
  rfl

theorem name_ofString_slash {n : String} (dir : String) (h : IsName n) :
    (ofString (dir ++ "/" ++ n)).name = n := by
  rw [Path.name, names_ofString_slash, names_ofString_of_isName h, List.getLast?_concat]
  rfl

end Path

theorem HasExtension.dot_inside (h : HasExtension text stem ext) :
    '.' ∈ (stem ++ '.' :: ext).tail ∧ (stem ++ '.' :: ext).getLast? ≠ some '.' := by
  constructor
  · rw [List.tail_append_of_ne_nil h.stem_ne_nil]
    exact List.mem_append_right _ List.mem_cons_self
  · intro hlast
    obtain ⟨before, c, hext⟩ := ext.eq_nil_or_concat'.resolve_left h.ext_ne_nil
    rw [hext, ← List.cons_append, ← List.append_assoc, List.getLast?_concat] at hlast
    apply h.dot_not_mem
    rw [hext, Option.some.inj hlast]
    exact List.mem_append_right _ (List.mem_singleton_self _)

namespace Grammar

theorem isAscii_extensions : ∀ row ∈ extensions, ∀ c ∈ row.1.toList, Text.IsAscii c := by
  simp [extensions, Text.IsAscii]

theorem ofPath?_congr (h : p.name = q.name) : ofPath? p = ofPath? q := by
  rw [ofPath?, ofPath?, Path.suffix, Path.suffix, h]

/-- What it means that a grammar is found by the extension of a file's name alone. -/
structure FoundByExtension (endsWord : List Char → List Char → Bool) : Prop where
  some_iff (s : String) (g : Grammar) : ofPath? (.ofString s) = some g ↔
    ∃ stem ext, HasExtension s.toList stem ext ∧
      extensions.lookup (.ofList (Text.lowerCase endsWord ('.' :: ext))) = some g
  /-- There may be no name at all, or one with no dot but at its ends. -/
  none_of_noExtension (s : String) :
    (∀ name, LastName s.toList name → '.' ∉ name.tail ∨ name.getLast? = some '.') →
      ofPath? (.ofString s) = none
  /-- Directories, stems and letter case make no difference. -/
  sameExtension (s s' : String) (stem ext stem' ext' : List Char) :
    HasExtension s.toList stem ext → HasExtension s'.toList stem' ext' →
      Text.lowerCase endsWord ('.' :: ext) = Text.lowerCase endsWord ('.' :: ext') →
        ofPath? (.ofString s) = ofPath? (.ofString s')
  child (p : Path) (n : String) : IsName n → ofPath? (p.child n) = ofPath? (.ofString n)
  behindSlash (dir n : String) : IsName n →
    ofPath? (.ofString (dir ++ "/" ++ n)) = ofPath? (.ofString n)

theorem ofPath?_of_hasExtension (endsWord : List Char → List Char → Bool) {s : String}
    (h : HasExtension s.toList stem ext) : ofPath? (.ofString s) =
      extensions.lookup (.ofList (Text.lowerCase endsWord ('.' :: ext))) := by
  have hlookup := Text.lookup_lowerCase endsWord isAscii_extensions (.ofList ('.' :: ext))
  rw [String.toList_ofList] at hlookup
  rw [ofPath?, Path.suffix_of_hasExtension h, hlookup]

theorem exists_hasExtension_of_ofPath? {s : String} (h : ofPath? (.ofString s) = some g) :
    ∃ stem ext, HasExtension s.toList stem ext := by
  apply Path.exists_hasExtension
  intro hempty
  rw [ofPath?, hempty] at h
  cases h

/-- A file has the grammar that the table gives for the extension of its name, in lower case, and
none if its name has no extension or one that the table does not list. -/
theorem ofPath?_foundByExtension (endsWord : List Char → List Char → Bool) :
    FoundByExtension endsWord where
  some_iff s g := by
    constructor
    · intro h
      obtain ⟨stem, ext, hext⟩ := exists_hasExtension_of_ofPath? h
      rw [ofPath?_of_hasExtension endsWord hext] at h
      exact ⟨stem, ext, hext, h⟩
    · rintro ⟨stem, ext, hext, h⟩
      rwa [ofPath?_of_hasExtension endsWord hext]
  none_of_noExtension s h := by
    by_contra hsome
    obtain ⟨g, hg⟩ := Option.ne_none_iff_exists'.mp hsome
    obtain ⟨stem, ext, hext⟩ := exists_hasExtension_of_ofPath? hg
    obtain ⟨hdot, hlast⟩ := hext.dot_inside
    exact (h _ hext.lastName).elim (absurd hdot) hlast
  sameExtension s s' stem ext stem' ext' h h' hcase := by
    rw [ofPath?_of_hasExtension endsWord h, ofPath?_of_hasExtension endsWord h', hcase]
  child p n h := ofPath?_congr ((p.name_child n).trans (Path.name_ofString_of_isName h).symm)
  behindSlash dir n h :=
    ofPath?_congr ((Path.name_ofString_slash dir h).trans (Path.name_ofString_of_isName h).symm)

def spelledArchive : String := "src.d/.x//archive.tar.\u212aT/./"

theorem spelledArchive_hasExtension :
    HasExtension spelledArchive.toList "archive.tar".toList "\u212aT".toList where
  lastName :=
    have htail : Trailing ([] ++ ['/', '.'] ++ ['/']) := .slash (.dot .nil)
    ⟨by decide, by decide, by decide, "src.d/.x//".toList, _, rfl, by simp, htail⟩
  stem_ne_nil := by decide
  ext_ne_nil := by decide
  dot_not_mem := by decide

theorem plainName_hasExtension : HasExtension "A.kt".toList "A".toList "kt".toList where
  lastName := ⟨by decide, by decide, by decide, [], [], rfl, by simp, .nil⟩
  stem_ne_nil := by decide
  ext_ne_nil := by decide
  dot_not_mem := by decide

theorem spelledArchive_found :
    ofPath? (.ofString spelledArchive) = some .cLike ∧
      ofPath? (.ofString spelledArchive) = ofPath? (.ofString "A.kt") ∧
      ofPath? (Path.child ⟨.root, ["a.rs"]⟩ "A.kt") = ofPath? (.ofString "A.kt") ∧
      ofPath? (.ofString "a.rs/..") = none := by
  have hfound := ofPath?_foundByExtension fun _ _ => true
  have hlower : Text.lowerCase (fun _ _ => true) ('.' :: "\u212aT".toList) = ".kt".toList := by
    decide +kernel
  refine ⟨?_, ?_, hfound.child _ _ (by decide), hfound.none_of_noExtension _ fun name h => ?_⟩
  · refine (hfound.some_iff _ _).mpr ⟨_, _, spelledArchive_hasExtension, ?_⟩
    rw [hlower]
    rfl
  · refine hfound.sameExtension _ _ _ _ _ _ spelledArchive_hasExtension plainName_hasExtension ?_
    rw [hlower]
    decide +kernel
  · have hname : some ".." = some (String.ofList name) := Path.getLast?_namesOf h
    obtain rfl : "..".toList = name := by
      rw [Option.some.inj hname, String.toList_ofList]
    exact .inr rfl

end Grammar

end CommentTags

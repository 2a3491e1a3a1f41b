import CommentTags.Proofs.Marker.Message
import CommentTags.Proofs.Scan.Calls

namespace CommentTags

namespace Marker

variable {s r w rest k tail : List Char} {m : CommentMatch}

theorem commentHere?_eq_none (h : ¬ "//".toList <+: s ∧ ¬ "/*".toList <+: s) :
    commentHere? s = none := by
  unfold commentHere?
  split
  · exact absurd ⟨_, rfl⟩ h.1
  · exact absurd ⟨_, rfl⟩ h.2
  · rfl

theorem findComment?_cons_of_none {c : Char} (h : commentHere? (c :: s) = none) :
    findComment? (c :: s) = findComment? s := by
  rw [findComment?, leftmost?, h, Option.none_or, findComment?]

theorem findComment?_append (h : '/' ∉ w) (s : List Char) :
    findComment? (w ++ s) = findComment? s := by
  induction w with
  | nil => rfl
  | cons c w ih =>
    obtain ⟨hc, hw⟩ := List.ne_and_not_mem_of_not_mem_cons h
    rw [List.cons_append, findComment?_cons_of_none, ih hw]
    refine commentHere?_eq_none ⟨?_, ?_⟩ <;>
      exact fun hopening => hc (List.cons_prefix_cons.mp hopening).1

theorem findComment?_eq_none (h : ¬ "//".toList <:+: s ∧ ¬ "/*".toList <:+: s) :
    findComment? s = none := by
  induction s with
  | nil => rfl
  | cons c s ih =>
    have htail : ∀ w, ¬ w <:+: c :: s → ¬ w <:+: s := fun w hw hs =>
      hw (hs.trans (List.suffix_cons c s).isInfix)
    rw [findComment?_cons_of_none, ih ⟨htail _ h.1, htail _ h.2⟩]
    exact commentHere?_eq_none ⟨fun hs => h.1 hs.isInfix, fun hs => h.2 hs.isInfix⟩

/-- A text that goes on from two slashes as a comment marker does: after one more slash or some
stars, one `!` and one blank, none of which need be there, a keyword stands directly before a colon,
and the line goes on behind the colon. A `!` is part of the keyword only if it is all of it. -/
structure ReadsAsKeyword (rest k tail : List Char) : Prop where
  parts : ∃ more bang space, rest = more ++ (bang ++ (space ++ (k ++ ':' :: tail))) ∧
    (more = ['/'] ∨ ∀ c ∈ more, c = '*') ∧ (bang = [] ∨ bang = ['!']) ∧
    (space = [] ∨ space = [' ']) ∧
    (bang = [] → ∀ q, space ++ (k ++ ':' :: tail) = '!' :: q → k = ['!'])
  keyword_ne_nil : k ≠ []
  keyword_chars : ∀ c ∈ k, isKeywordChar c = true
  goesOn : ∃ c r, tail = c :: r ∧ c ≠ '\n'

theorem messageAfterColon?_isSome_iff :
    (messageAfterColon? s).isSome ↔ ∃ c r, s = c :: r ∧ c ≠ '\n' := by
  have hmessage : ∀ s, (message? s).isSome ↔ ∃ c r, s = c :: r ∧ c ≠ '\n' := by
    intro s
    cases s with
    | nil => simp [message?]
    | cons c r => by_cases hc : c = '\n' <;> simp [message?, hc]
  unfold messageAfterColon?
  split
  · simp
  · exact hmessage s

theorem body?_eq_some_iff_parts :
    body? s = some m ↔ ∃ bang space tail, s = bang ++ (space ++ (m.keyword ++ ':' :: tail)) ∧
      (bang = [] ∨ bang = ['!']) ∧ (space = [] ∨ space = [' ']) ∧
      (bang = [] → ∀ q, s = '!' :: q → m.keyword = ['!']) ∧
      m.keyword ≠ [] ∧ (∀ c ∈ m.keyword, isKeywordChar c = true) ∧
      messageAfterColon? tail = some m.message := by
  rw [body?_eq_some_iff]
  constructor
  · rintro ⟨bang, r, hbang, rfl, hspaced, hlone⟩
    obtain ⟨space, r, hspace, rfl, hkeyword⟩ := spacedKeyword?_eq_some_iff.mp hspaced
    obtain ⟨tail, rfl, hne, hchars, hmessage⟩ := keywordAndMessage?_eq_some_iff.mp hkeyword
    exact ⟨bang, space, tail, rfl, hbang, hspace, hlone, hne, hchars, hmessage⟩
  · rintro ⟨bang, space, tail, rfl, hbang, hspace, hlone, hne, hchars, hmessage⟩
    refine ⟨bang, _, hbang, rfl, spacedKeyword?_eq_some_iff.mpr ?_, hlone⟩
    exact ⟨space, _, hspace, rfl,
      keywordAndMessage?_eq_some_iff.mpr ⟨tail, rfl, hne, hchars, hmessage⟩⟩

structure OpensNone (rest : List Char) : Prop where
  noSlashes : ¬ "//".toList <:+: rest
  noStars : ¬ "/*".toList <:+: rest

theorem findComment?_slashes (h : OpensNone rest) :
    findComment? ('/' :: '/' :: rest) =
      (commentHere? ('/' :: '/' :: rest)).or (commentHere? ('/' :: rest)) := by
  have hnone : leftmost? commentHere? rest = none := findComment?_eq_none ⟨h.noSlashes, h.noStars⟩
  rw [findComment?, leftmost?, leftmost?, hnone, Option.or_none]

theorem run_of_slashes (h : OpensNone (w ++ r)) (hw : ∀ c ∈ w, c = '/') : w = [] ∨ w = ['/'] := by
  match w, hw with
  | [], _ => exact Or.inl rfl
  | [c], hw => exact Or.inr (by rw [hw c (by simp)])
  | c :: d :: w, hw =>
    rw [hw c (by simp), hw d (by simp)] at h
    exact absurd ⟨[], w ++ r, rfl⟩ h.noSlashes

theorem commentHere?_slashes_star (s : List Char) :
    commentHere? ('/' :: '/' :: '*' :: s) = none := by
  have hrun : commentHere? ('/' :: '/' :: '*' :: s) = body? ('*' :: s) :=
    commentHere?_run (w := []) (Or.inl rfl) (by simp) (by simp)
  rw [hrun, Option.eq_none_iff_forall_ne_some]
  exact fun m hm => (body?_cons hm).2 rfl

theorem readsAsKeyword_of_findComment? (h : OpensNone rest)
    (hm : findComment? ('/' :: '/' :: rest) = some m) :
    ∃ tail, ReadsAsKeyword rest m.keyword tail := by
  have hparts : ∀ more r, (more = ['/'] ∨ ∀ c ∈ more, c = '*') → rest = more ++ r →
      body? r = some m → ∃ tail, ReadsAsKeyword rest m.keyword tail := by
    intro more r hmore hrest hbody
    obtain ⟨bang, space, tail, rfl, hbang, hspace, hlone, hne, hchars, hmessage⟩ :=
      body?_eq_some_iff_parts.mp hbody
    refine ⟨tail, ⟨more, bang, space, hrest, hmore, hbang, hspace, ?_⟩, hne, hchars, ?_⟩
    · rintro rfl q hq
      exact hlone rfl q hq
    · rw [← messageAfterColon?_isSome_iff, hmessage, Option.isSome_some]
  have hslashes : ∀ more r, (∀ c ∈ more, c = '/') → rest = more ++ r →
      more = ['/'] ∨ ∀ c ∈ more, c = '*' := by
    rintro more r hmore rfl
    obtain rfl | rfl := run_of_slashes h hmore
    · exact Or.inr (by simp)
    · exact Or.inl rfl
  rw [findComment?_slashes h, Option.or_eq_some_iff] at hm
  obtain hfirst | ⟨-, hsecond⟩ := hm
  · obtain ⟨o, r, hne, hrun, heq, hbody⟩ := commentHere?_eq_some_iff.mp hfirst
    obtain ⟨c, w, rfl⟩ := List.exists_cons_of_ne_nil hne
    obtain ⟨rfl, hrest⟩ := List.cons.inj (List.cons.inj heq).2
    have hw : ∀ c ∈ w, c = '/' := by
      obtain hrun | hrun := hrun
      · exact fun c hc => hrun c (List.mem_cons_of_mem _ hc)
      · exact absurd (hrun '/' (by simp)) (by decide)
    exact hparts w r (hslashes w r hw hrest) hrest hbody
  · obtain ⟨o, r, hne, hrun, heq, hbody⟩ := commentHere?_eq_some_iff.mp hsecond
    have hrest : rest = o ++ r := (List.cons.inj heq).2
    exact hparts o r (hrun.elim (hslashes o r · hrest) Or.inr) hrest hbody

theorem findComment?_of_readsAsKeyword (h : OpensNone rest) (hk : ReadsAsKeyword rest k tail) :
    ∃ message, messageAfterColon? tail = some message ∧
      findComment? ('/' :: '/' :: rest) = some ⟨k, message⟩ := by
  obtain ⟨more, bang, space, rfl, hmore, hbang, hspace, hlone⟩ := hk.parts
  obtain ⟨message, hmessage⟩ :=
    Option.isSome_iff_exists.mp (messageAfterColon?_isSome_iff.mpr hk.goesOn)
  refine ⟨message, hmessage, ?_⟩
  have hbody : body? (bang ++ (space ++ (k ++ ':' :: tail))) = some ⟨k, message⟩ := by
    refine body?_eq_some_iff_parts.mpr ⟨bang, space, tail, rfl, hbang, hspace, ?_,
      hk.keyword_ne_nil, hk.keyword_chars, hmessage⟩
    rintro rfl q hq
    exact hlone rfl q hq
  rw [findComment?_slashes h]
  have hslashes : (∀ c ∈ more, c = '/') →
      commentHere? ('/' :: '/' :: (more ++ (bang ++ (space ++ (k ++ ':' :: tail))))) =
        some ⟨k, message⟩ := fun hmore =>
    commentHere?_eq_some_iff.mpr
      ⟨'/' :: more, _, by simp, Or.inl (List.forall_mem_cons.mpr ⟨rfl, hmore⟩), rfl, hbody⟩
  match more, hmore with
  | [], _ => rw [hslashes (by simp), Option.some_or]
  | _, Or.inl rfl => rw [hslashes (by simp), Option.some_or]
  | c :: more, Or.inr hstars =>
    obtain rfl := hstars c (by simp)
    rw [List.cons_append, commentHere?_slashes_star, Option.none_or]
    exact commentHere?_eq_some_iff.mpr ⟨'*' :: more, _, by simp, Or.inr hstars, rfl, hbody⟩

theorem tidyMessage_messageAfterColon? {message : List Char} (hline : '\n' ∉ tail.dropLast)
    (h : messageAfterColon? tail = some message) : tidyMessage message = tidyMessage tail := by
  obtain ⟨gap, ending, rfl, hgap, -, -, hending, -⟩ := messageAfterColon?_sound hline h
  have hblanks : Text.Blanks gap := by
    obtain rfl | rfl := hgap
    · exact Text.blanks_nil
    · exact List.forall_mem_singleton.mpr rfl
  have hblanks' : Text.Blanks ending := by
    obtain rfl | rfl := hending
    · exact Text.blanks_nil
    · exact List.forall_mem_singleton.mpr rfl
  rw [tidyMessage_between hblanks hblanks']

end Marker

/-- A line with the URL of a web page, in which the URL's own slashes are the first and where
nothing else can begin a tag. -/
structure UrlLine (line before scheme rest : List Char) : Prop where
  line_eq : line = before ++ (scheme ++ ("://".toList ++ rest))
  before_noSlash : '/' ∉ before
  scheme_web : scheme.map Char.toLower ∈ ["http".toList, "https".toList]
  rest_opensNone : Marker.OpensNone rest
  noCall : ¬ "todo!(".toList <:+: line

namespace UrlLine

variable {line before scheme rest k tail : List Char}

theorem slash_not_mem_scheme (h : UrlLine line before scheme rest) : '/' ∉ scheme := by
  intro hmem
  have hlower : '/' ∈ scheme.map Char.toLower := List.mem_map.mpr ⟨'/', hmem, rfl⟩
  obtain heq | heq : scheme.map Char.toLower = "http".toList ∨
      scheme.map Char.toLower = "https".toList := by simpa using h.scheme_web
  · rw [heq] at hlower
    exact absurd hlower (by decide)
  · rw [heq] at hlower
    exact absurd hlower (by decide)

/-- The scheme has no part in what is found. -/
theorem findComment?_eq (h : UrlLine line before scheme rest) :
    Marker.findComment? line = Marker.findComment? ('/' :: '/' :: rest) := by
  have hslash : '/' ∉ before ++ (scheme ++ [':']) := by
    simp [h.before_noSlash, h.slash_not_mem_scheme]
  have hsplit : line = (before ++ (scheme ++ [':'])) ++ ('/' :: '/' :: rest) := by
    rw [h.line_eq]
    simp
  rw [hsplit, Marker.findComment?_append hslash]

theorem not_callAt (h : UrlLine line before scheme rest) (pre s : List Char) :
    ¬ Marker.CallAt line pre s := by
  rintro ⟨post, ⟨hline, -⟩ | ⟨hline, -⟩⟩
  · exact h.noCall ⟨pre, ')' :: post, by simp [hline]⟩
  · exact h.noCall ⟨pre, '"' :: (s ++ "\")".toList ++ post), by simp [hline]⟩

theorem lineTag?_eq (h : UrlLine line before scheme rest) (g : Grammar) (p : Path) (n : Nat) :
    lineTag? g p n line = commentTag? p n line := by
  cases g with
  | rust => exact Scanner.lineTag?_of_not_callAt h.not_callAt n
  | cLike => rfl

theorem tail_oneLine (h : UrlLine line before scheme rest) (hline : '\n' ∉ line.dropLast)
    (hk : Marker.ReadsAsKeyword rest k tail) : '\n' ∉ tail.dropLast := by
  obtain ⟨more, bang, space, rfl, -⟩ := hk.parts
  rw [h.line_eq] at hline
  apply Marker.newline_not_mem_dropLast
    (a := before ++ (scheme ++ ("://".toList ++ (more ++ (bang ++ (space ++ (k ++ [':'])))))))
  simpa using hline

theorem lineTag?_isSome_iff (h : UrlLine line before scheme rest) (g : Grammar) (p : Path)
    (n : Nat) : (lineTag? g p n line).isSome ↔
      ∃ k tail, Marker.ReadsAsKeyword rest k tail ∧ Text.caselessKey (.ofList k) ∉ urlSchemes := by
  rw [h.lineTag?_eq, Option.isSome_iff_exists]
  constructor
  · rintro ⟨t, ht⟩
    obtain ⟨m, hm, hscheme, -⟩ := commentTag?_eq_some_iff.mp ht
    rw [h.findComment?_eq] at hm
    obtain ⟨tail, hk⟩ := Marker.readsAsKeyword_of_findComment? h.rest_opensNone hm
    exact ⟨m.keyword, tail, hk, hscheme⟩
  · rintro ⟨k, tail, hk, hscheme⟩
    obtain ⟨message, -, hm⟩ := Marker.findComment?_of_readsAsKeyword h.rest_opensNone hk
    rw [← h.findComment?_eq] at hm
    exact ⟨_, commentTag?_eq_some_iff.mpr ⟨_, hm, hscheme, rfl⟩⟩

theorem lineTag?_of_readsAsKeyword (h : UrlLine line before scheme rest)
    (hline : '\n' ∉ line.dropLast) (hk : Marker.ReadsAsKeyword rest k tail)
    (hscheme : Text.caselessKey (.ofList k) ∉ urlSchemes) (g : Grammar) (p : Path) (n : Nat) :
    lineTag? g p n line =
      some ⟨p, n, .ofKeyword (.ofList k), .ofList (Marker.tidyMessage tail), none⟩ := by
  obtain ⟨message, hmessage, hm⟩ := Marker.findComment?_of_readsAsKeyword h.rest_opensNone hk
  rw [← h.findComment?_eq] at hm
  rw [h.lineTag?_eq, ← Marker.tidyMessage_messageAfterColon? (h.tail_oneLine hline hk) hmessage]
  exact commentTag?_eq_some_iff.mpr ⟨_, hm, hscheme, rfl⟩

end UrlLine

/-- What a line with a URL gives: the tag of the keyword that the URL goes on with behind its
slashes, if it does so, and no tag otherwise. Only a URL in the place of that keyword gives none. -/
structure UrlTags (g : Grammar) (p : Path) (text : List Char) (i : Nat) (rest : List Char) :
    Prop where
  none_iff : Scanner.tagsOfLine g p text i = [] ↔ ∀ k tail, Marker.ReadsAsKeyword rest k tail →
    Text.caselessKey (.ofList k) ∈ urlSchemes
  tag : ∀ k tail, Marker.ReadsAsKeyword rest k tail → Text.caselessKey (.ofList k) ∉ urlSchemes →
    Scanner.tagsOfLine g p text i =
      [⟨p, i + 1, .ofKeyword (.ofList k), .ofList (Marker.tidyMessage tail), none⟩]
  none_of_noColon : ':' ∉ rest → Scanner.tagsOfLine g p text i = []

/-- A line with the URL of a web page has a tag exactly if a keyword stands behind the slashes, as
a host does that a port follows: `http://localhost:8080` has. -/
theorem urlTags_of_urlLine (g : Grammar) (p : Path) (text : List Char) (i : Nat)
    (line before scheme rest : List Char) (hline : (Text.cut '\n' text)[i]? = some line)
    (h : UrlLine line before scheme rest) : UrlTags g p text i rest := by
  have honeLine := (Text.isCut_cut '\n' text).lf_last line (List.mem_of_getElem? hline)
  have hnone : Scanner.tagsOfLine g p text i = [] ↔ ∀ k tail, Marker.ReadsAsKeyword rest k tail →
      Text.caselessKey (.ofList k) ∈ urlSchemes := by
    rw [Scanner.tagsOfLine_eq g p hline, Option.toList_eq_nil_iff,
      ← Option.not_isSome_iff_eq_none, h.lineTag?_isSome_iff]
    simp only [not_exists, not_and, not_not]
  refine ⟨hnone, fun k tail hk hscheme => ?_, fun hcolon => hnone.mpr fun k tail hk => ?_⟩
  · rw [Scanner.tagsOfLine_eq g p hline, h.lineTag?_of_readsAsKeyword honeLine hk hscheme]
    rfl
  · obtain ⟨more, bang, space, rfl, -⟩ := hk.parts
    exact absurd (by simp) hcolon

def hostLine : List Char := "See HTTPS://example.com/docs?page=1\n".toList

def portLine : List Char := "http://localhost:8080/x\n".toList

theorem cut_hostLine : (Text.cut '\n' hostLine)[0]? = some hostLine :=
  Text.cut_concat_zero (w := hostLine.dropLast) (by decide)

theorem cut_portLine : (Text.cut '\n' portLine)[0]? = some portLine :=
  Text.cut_concat_zero (w := portLine.dropLast) (by decide)

theorem hostLine_url :
    UrlLine hostLine "See ".toList "HTTPS".toList "example.com/docs?page=1\n".toList where
  line_eq := rfl
  before_noSlash := by decide
  scheme_web := by decide
  rest_opensNone :=
    ⟨fun h => absurd (h.sublist.count_le '/') (by decide),
      fun h => absurd (h.subset (by decide : '*' ∈ _)) (by decide)⟩
  noCall h := absurd (h.subset (by decide : '(' ∈ _)) (by decide)

theorem portLine_url :
    UrlLine portLine [] "http".toList "localhost:8080/x\n".toList where
  line_eq := rfl
  before_noSlash := List.not_mem_nil
  scheme_web := by decide
  rest_opensNone :=
    ⟨fun h => absurd (h.sublist.count_le '/') (by decide),
      fun h => absurd (h.subset (by decide : '*' ∈ _)) (by decide)⟩
  noCall h := absurd (h.subset (by decide : '(' ∈ _)) (by decide)

theorem hostLine_none_and_portLine_tag :
    let p := Path.ofString "index.ts"
    Scanner.tagsOfLine .cLike p hostLine 0 = [] ∧
      Scanner.tagsOfLine .cLike p portLine 0 = [⟨p, 1, .custom "localhost", "8080/x", none⟩] := by
  intro p
  have hk : Marker.ReadsAsKeyword "localhost:8080/x\n".toList "localhost".toList
      "8080/x\n".toList :=
    ⟨⟨[], [], [], rfl, Or.inr (by simp), Or.inl rfl, Or.inl rfl, fun _ _ h => by cases h⟩,
      by decide, List.all_eq_true.mp (by decide), '8', _, rfl, by decide⟩
  constructor
  · have h := urlTags_of_urlLine .cLike p _ 0 _ _ _ _ cut_hostLine hostLine_url
    exact h.none_of_noColon (by decide)
  · rw [(urlTags_of_urlLine .cLike p _ 0 _ _ _ _ cut_portLine portLine_url).tag _ _ hk (by decide)]
    rfl

/-- The port makes the host a keyword, in both grammars. -/
theorem portLine_has_tag :
    (Text.cut '\n' portLine)[0]? = some portLine ∧
      UrlLine portLine [] "http".toList "localhost:8080/x\n".toList ∧
      ∀ g, Scanner.tagsOfLine g (Path.ofString "testing") portLine 0 =
        [⟨Path.ofString "testing", 1, .custom "localhost", "8080/x", none⟩] := by
  refine ⟨cut_portLine, portLine_url, fun g => ?_⟩
  rw [Scanner.tagsOfLine_eq g _ cut_portLine, portLine_url.lineTag?_eq]
  have hfind : Marker.findComment? portLine = some ⟨"localhost".toList, "8080/x".toList⟩ := by
    decide
  rw [commentTag?, hfind]
  rfl

end CommentTags

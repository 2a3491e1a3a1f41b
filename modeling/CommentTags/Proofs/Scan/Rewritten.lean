import CommentTags.Proofs.Marker.Message
import CommentTags.Proofs.Scan.Collect
import CommentTags.Proofs.Search.Found

namespace CommentTags

open Marker (CommentMatch findComment? isKeywordChar messageAfterColon? tidyMessage)
open Text (Blanks Trimmed)

namespace Tag

def blockComment (t : Tag) : List Char :=
  ("/* " ++ t.heading ++ " */\n").toList

def lineComment (t : Tag) : List Char :=
  ("// " ++ t.heading ++ "\n").toList

/-- Scanned as C-like source the text gives one tag, on its first line, and nothing else. -/
def FoundAlone (q : Path) (text : List Char) (kind : Kind) (message : String) : Prop :=
  let r := (Scanner.start .cLike q (TextStream.ofList text)).collect
  r.1 = [⟨q, 1, kind, message, none⟩] ∧ r.2.1 = none

/-- A tag that can be written as a comment: its kind is named by a keyword, and its message is what
tidying can leave of a part of a line. -/
structure Writable (t : Tag) : Prop where
  keyword_ne_nil : t.kind.text.toList ≠ []
  keyword_chars : ∀ c ∈ t.kind.text.toList, isKeywordChar c = true
  not_scheme : Text.caselessKey t.kind.text ∉ urlSchemes
  kind : Kind.ofKeyword t.kind.text = t.kind
  message_trimmed : Trimmed t.message.toList
  message_oneLine : '\n' ∉ t.message.toList

end Tag

variable {g : Grammar} {p : Path} {n : Nat} {line : List Char} {t : Tag}

theorem writable_of_commentTag? (hline : '\n' ∉ line.dropLast)
    (h : commentTag? p n line = some t) : t.Writable := by
  obtain ⟨m, hm, hurl, rfl⟩ := commentTag?_eq_some_iff.mp h
  obtain ⟨pre, d, hd, rfl⟩ := (Marker.findComment?_eq_some_iff hline).mp hm
  have hkeyword : (String.ofList d.keyword).toList = d.keyword := String.toList_ofList
  have hne : (Kind.ofKeyword (String.ofList d.keyword)).text.toList ≠ [] := by
    refine Kind.text_ofKeyword (P := fun s => s.toList ≠ []) (by decide) ?_
    rw [hkeyword]
    exact d.keyword_ne_nil
  have hchars : (Kind.ofKeyword (String.ofList d.keyword)).text.toList.all isKeywordChar := by
    refine Kind.text_ofKeyword (P := fun s => s.toList.all isKeywordChar) (by decide) ?_
    rw [hkeyword, List.all_eq_true]
    exact d.keyword_chars
  have hscheme : Text.caselessKey (Kind.ofKeyword (String.ofList d.keyword)).text ∉ urlSchemes :=
    Kind.text_ofKeyword (P := fun s => Text.caselessKey s ∉ urlSchemes) (by decide) hurl
  constructor <;> dsimp only
  case keyword_ne_nil => exact hne
  case keyword_chars => exact List.all_eq_true.mp hchars
  case not_scheme => exact hscheme
  case kind => exact Kind.ofKeyword_text _
  case message_trimmed =>
    rw [String.toList_ofList]
    exact Marker.tidyMessage_trimmed d.message
  case message_oneLine =>
    rw [String.toList_ofList]
    exact fun hmem => d.message_oneLine (Marker.tidyMessage_subset _ hmem)

/-- An opening at the beginning of a line wins against whatever follows it. -/
theorem Marker.findComment?_opened {c : Char} {k m rest : List Char} (hc : c = '/' ∨ c = '*')
    (hne : k ≠ []) (hk : ∀ d ∈ k, isKeywordChar d = true)
    (hm : messageAfterColon? rest = some m) :
    findComment? ('/' :: c :: ' ' :: (k ++ ':' :: rest)) = some ⟨k, m⟩ := by
  have hbody : body? (' ' :: (k ++ ':' :: rest)) = some ⟨k, m⟩ := by
    rw [body?_of_ne_bang (by simp)]
    exact keywordAndMessage?_eq_some_iff.mpr ⟨rest, rfl, hne, hk, hm⟩
  have hstop : ∀ d ∈ (' ' :: (k ++ ':' :: rest)).head?, d ≠ c := by
    rintro d ⟨⟩
    obtain rfl | rfl := hc <;> decide
  have hrun := commentHere?_run hc (w := []) (fun d hd => absurd hd List.not_mem_nil) hstop
  rw [List.singleton_append, hbody] at hrun
  rw [findComment?, leftmost?, hrun, Option.some_or]

theorem Scanner.collect_line (g : Grammar) (p : Path) {w : List Char} (hw : '\n' ∉ w) :
    let r := (start g p (TextStream.ofList (w ++ ['\n']))).collect
    r.1 = (lineTag? g p 1 (w ++ ['\n'])).toList ∧ r.2.1 = none := by
  rw [collect_ofList, Text.cut_append hw, Text.cut_nil, tagsFrom_cons]
  exact ⟨List.append_nil _, rfl⟩

namespace Tag.Writable

theorem newline_not_mem_heading (h : t.Writable) : '\n' ∉ t.heading.toList := by
  have hkind : '\n' ∉ t.kind.text.toList := fun hmem => by
    have hchar := h.keyword_chars _ hmem
    revert hchar
    decide
  rw [heading, String.toList_append, String.toList_append, List.mem_append, List.mem_append,
    not_or, not_or]
  exact ⟨⟨hkind, by decide⟩, h.message_oneLine⟩

theorem commentTag?_opened (h : t.Writable) (p : Path) {c : Char} {rest m : List Char}
    (hc : c = '/' ∨ c = '*') (hm : messageAfterColon? rest = some m)
    (hmessage : tidyMessage m = t.message.toList) :
    commentTag? p 1 ('/' :: c :: ' ' :: (t.kind.text.toList ++ ':' :: rest)) =
      some ⟨p, 1, t.kind, t.message, none⟩ := by
  have hfind := Marker.findComment?_opened hc h.keyword_ne_nil h.keyword_chars hm
  refine commentTag?_eq_some_iff.mpr ⟨_, hfind, ?_, ?_⟩
  · rw [String.ofList_toList]
    exact h.not_scheme
  · rw [String.ofList_toList, hmessage, String.ofList_toList, h.kind]
    rfl

theorem collect_opened (h : t.Writable) (p : Path) {c : Char} {closing m : List Char}
    (hc : c = '/' ∨ c = '*') (hclosing : '\n' ∉ closing)
    (hm : messageAfterColon? (' ' :: (t.message.toList ++ (closing ++ ['\n']))) = some m)
    (hmessage : tidyMessage m = t.message.toList) :
    FoundAlone p ('/' :: c :: ' ' :: (t.heading.toList ++ closing) ++ ['\n']) t.kind t.message := by
  have hw : '\n' ∉ '/' :: c :: ' ' :: (t.heading.toList ++ closing) := by
    have hopening : '\n' ≠ c := by obtain rfl | rfl := hc <;> decide
    simp only [List.mem_cons, List.mem_append, not_or]
    exact ⟨by decide, hopening, by decide, h.newline_not_mem_heading, hclosing⟩
  have hline : '/' :: c :: ' ' :: (t.heading.toList ++ closing) ++ ['\n'] =
      '/' :: c :: ' ' :: (t.kind.text.toList ++
        ':' :: ' ' :: (t.message.toList ++ (closing ++ ['\n']))) := by
    have hcolon : ": ".toList = [':', ' '] := rfl
    simp only [heading, String.toList_append, hcolon, List.append_assoc, List.cons_append,
      List.nil_append]
  obtain ⟨htags, hending⟩ := Scanner.collect_line .cLike p hw
  refine ⟨?_, hending⟩
  rw [htags, hline, lineTag?, h.commentTag?_opened p hc hm hmessage]
  rfl

theorem collect_blockComment (h : t.Writable) (p : Path) :
    FoundAlone p t.blockComment t.kind t.message := by
  have htext : t.blockComment =
      '/' :: '*' :: ' ' :: (t.heading.toList ++ [' ', '*', '/']) ++ ['\n'] := by
    simp [blockComment]
  have hne : t.message.toList ++ [' ', '*', '/'] ≠ [] := by simp
  have hline : '\n' ∉ t.message.toList ++ [' ', '*', '/'] := by
    rw [List.mem_append, not_or]
    exact ⟨h.message_oneLine, by decide⟩
  have hm : messageAfterColon? (' ' :: (t.message.toList ++ ([' ', '*', '/'] ++ ['\n']))) =
      some (t.message.toList ++ [' ', '*', '/']) := by
    rw [messageAfterColon?, ← List.append_assoc,
      Marker.message?_complete hne hline (Or.inr rfl), Option.some_or]
  rw [htext]
  have htidy := Marker.tidyMessage_closed Text.blanks_nil h.message_trimmed
    (List.forall_mem_singleton.mpr rfl : Blanks [' ']) Text.blanks_nil
  rw [List.nil_append, List.append_nil, List.singleton_append] at htidy
  exact h.collect_opened p (Or.inr rfl) (by decide) hm htidy

theorem collect_lineComment (h : t.Writable) (p : Path)
    (hcloser : ¬ "*/".toList <:+ t.message.toList) :
    FoundAlone p t.lineComment t.kind t.message := by
  have htext : t.lineComment = '/' :: '/' :: ' ' :: (t.heading.toList ++ []) ++ ['\n'] := by
    simp [lineComment]
  rw [htext]
  by_cases hempty : t.message.toList = []
  · have hm : messageAfterColon? (' ' :: (t.message.toList ++ ([] ++ ['\n']))) = some [' '] := by
      rw [hempty]
      rfl
    refine h.collect_opened p (Or.inl rfl) List.not_mem_nil hm ?_
    rw [hempty]
    rfl
  · have hm : messageAfterColon? (' ' :: (t.message.toList ++ ([] ++ ['\n']))) =
        some t.message.toList := by
      rw [messageAfterColon?, List.nil_append,
        Marker.message?_complete hempty h.message_oneLine (Or.inr rfl), Option.some_or]
    refine h.collect_opened p (Or.inl rfl) List.not_mem_nil hm ?_
    have htidy := Marker.tidyMessage_open Text.blanks_nil h.message_trimmed Text.blanks_nil hcloser
    rwa [List.nil_append, List.append_nil] at htidy

end Tag.Writable

namespace Scanner

/-- A tag that is found in a comment is found again, alone, when it is written as a block comment.
Written up to the end of the line it is, too, unless its message ends with a closer. -/
theorem collect_rewritten (g : Grammar) (p q : Path) (text : List Char) (t : Tag)
    (ht : t ∈ (start g p (TextStream.ofList text)).collect.1)
    (hcomment : g = .rust → ∀ (i : Nat) line, (Text.cut '\n' text)[i]? = some line →
      t.line = i + 1 → Marker.findTodoCall? line = none) :
    Tag.FoundAlone q t.blockComment t.kind t.message ∧
    (¬ "*/".toList <:+ t.message.toList →
      Tag.FoundAlone q t.lineComment t.kind t.message) := by
  rw [collect_ofList, mem_tagsFrom] at ht
  obtain ⟨i, line, hline, ht⟩ := ht
  have hnumber : t.line = i + 1 := by
    rw [(lineTag?_place ht).2.1]
    omega
  have hwritable : t.Writable := by
    have hdrop := (Text.isCut_cut '\n' text).lf_last line (List.mem_of_getElem? hline)
    cases g with
    | cLike => exact writable_of_commentTag? hdrop ht
    | rust =>
      rw [lineTag?, callTag?, hcomment rfl i line hline hnumber] at ht
      exact writable_of_commentTag? hdrop ht
  exact ⟨hwritable.collect_blockComment q, hwritable.collect_lineComment q⟩

def rustComments : List Char :=
  "//!!Foo: a // BUG: b */ */\nlet x; /*todo!:   \ttwo //words\x0c\r\n// Hack: ".toList

theorem rustComments_rewritten :
    ∃ a b c,
      (start .rust (.ofString "a.rs") (TextStream.ofList rustComments)).collect.1 = [a, b, c] ∧
      Tag.FoundAlone (.ofString "b.c") a.blockComment (.custom "!Foo") "a // BUG: b */" ∧
      Tag.FoundAlone (.ofString "b.c") b.lineComment .todoCall "two //words" ∧
      Tag.FoundAlone (.ofString "b.c") c.blockComment .hack "" ∧
      Tag.FoundAlone (.ofString "b.c") c.lineComment .hack "" := by
  have htags : (start .rust (.ofString "a.rs") (TextStream.ofList rustComments)).collect.1 =
      [⟨.ofString "a.rs", 1, .custom "!Foo", "a // BUG: b */", none⟩,
        ⟨.ofString "a.rs", 2, .todoCall, "two //words", none⟩,
        ⟨.ofString "a.rs", 3, .hack, "", none⟩] := by
    rw [collect_ofList]
    cbv
  have hcalls : ((Text.cut '\n' rustComments).all (Marker.findTodoCall? · == none)) = true := by
    cbv
  have hrewritten := fun t ht => collect_rewritten .rust (.ofString "a.rs") (.ofString "b.c")
    rustComments t ht fun _ i line hline _ =>
      beq_iff_eq.mp (List.all_eq_true.mp hcalls line (List.mem_of_getElem? hline))
  rw [htags] at hrewritten
  obtain ⟨ha, hrewritten⟩ := List.forall_mem_cons.mp hrewritten
  obtain ⟨hb, hrewritten⟩ := List.forall_mem_cons.mp hrewritten
  obtain ⟨hc, -⟩ := List.forall_mem_cons.mp hrewritten
  exact ⟨_, _, _, htags, ha.1, hb.2 (by decide), hc.1, hc.2 (by decide)⟩

end Scanner

end CommentTags

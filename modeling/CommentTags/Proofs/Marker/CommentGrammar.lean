import CommentTags.Marker.Comment
import CommentTags.Proofs.Text.Span

namespace CommentTags.Marker

open Text (takeWhile_span dropWhile_span exists_span)

/-- The text from a marker's first slash to the end of the line, taken apart. -/
structure CommentParts where
  opening : List Char
  bang : List Char
  space : List Char
  keyword : List Char
  gap : List Char
  message : List Char
  ending : List Char
  opening_ne_nil : opening ≠ []
  opening_run : (∀ c ∈ opening, c = '/') ∨ ∀ c ∈ opening, c = '*'
  bang_optional : bang = [] ∨ bang = ['!']
  space_optional : space = [] ∨ space = [' ']
  keyword_ne_nil : keyword ≠ []
  keyword_chars : ∀ c ∈ keyword, isKeywordChar c = true
  gap_optional : gap = [] ∨ gap = [' ']
  message_ne_nil : message ≠ []
  message_oneLine : '\n' ∉ message
  ending_optional : ending = [] ∨ ending = ['\n']

namespace CommentParts

def tail (d : CommentParts) : List Char :=
  d.gap ++ (d.message ++ d.ending)

def text (d : CommentParts) : List Char :=
  '/' :: (d.opening ++ (d.bang ++ (d.space ++ (d.keyword ++ ':' :: d.tail))))

/-- The optional parts take what they can: the gap a space that something follows, and the opening
a `!` that is not the whole keyword. -/
structure Greedy (d : CommentParts) : Prop where
  gap_iff : d.gap = [' '] ↔ ∃ c r, d.tail = ' ' :: c :: r ∧ c ≠ '\n'
  bang_iff : ∀ r, d.bang ++ (d.space ++ d.keyword) = '!' :: r → (d.bang = ['!'] ↔ r ≠ [])

end CommentParts

theorem newline_not_mem_dropLast {a b : List Char} (h : '\n' ∉ (a ++ b).dropLast) :
    '\n' ∉ b.dropLast := by
  cases b with
  | nil => simp
  | cons c b =>
    rw [List.dropLast_append_of_ne_nil (by simp)] at h
    exact fun hb => h (List.mem_append_right _ hb)

theorem ending_of_head {s : List Char} (hs : '\n' ∉ s.dropLast) (h : ∀ c ∈ s.head?, c = '\n') :
    s = [] ∨ s = ['\n'] := by
  cases s with
  | nil => exact Or.inl rfl
  | cons c s =>
    obtain rfl := h c rfl
    cases s with
    | nil => exact Or.inr rfl
    | cons d s => simp at hs

theorem message?_complete {m e : List Char} (hm : m ≠ []) (hn : '\n' ∉ m)
    (he : e = [] ∨ e = ['\n']) : message? (m ++ e) = some m := by
  have htake : (m ++ e).takeWhile (fun c => decide (c ≠ '\n')) = m := by
    apply takeWhile_span
    · exact fun c hc => decide_eq_true fun h => hn (h ▸ hc)
    · obtain rfl | rfl := he <;> simp
  cases m with
  | nil => exact absurd rfl hm
  | cons c m => simp only [message?, htake]

theorem message?_sound {s m : List Char} (hs : '\n' ∉ s.dropLast) (h : message? s = some m) :
    ∃ e, s = m ++ e ∧ m ≠ [] ∧ '\n' ∉ m ∧ (e = [] ∨ e = ['\n']) := by
  obtain ⟨w, r, rfl, hw, hr⟩ := exists_span (fun c => decide (c ≠ '\n')) s
  have hwm : w = m ∧ m ≠ [] := by
    rw [message?, takeWhile_span hw hr] at h
    cases w with
    | nil => cases h
    | cons c w =>
      obtain rfl := Option.some.inj h
      exact ⟨rfl, List.cons_ne_nil c w⟩
  obtain ⟨rfl, hm⟩ := hwm
  refine ⟨r, rfl, hm, fun hmem => by simpa using hw _ hmem, ?_⟩
  exact ending_of_head (newline_not_mem_dropLast hs) fun c hc => by simpa using hr c hc

theorem head_of_message?_eq_none {s : List Char} (h : message? s = none) :
    ∀ c ∈ s.head?, c = '\n' := by
  intro c hc
  cases s with
  | nil => cases hc
  | cons d s =>
    obtain rfl := Option.some.inj hc
    by_contra hd
    simp [message?, hd] at h

theorem messageAfterColon?_complete {g m e : List Char} (hg : g = [] ∨ g = [' ']) (hm : m ≠ [])
    (hn : '\n' ∉ m) (he : e = [] ∨ e = ['\n'])
    (hgreedy : g = [' '] ↔ ∃ c r, g ++ (m ++ e) = ' ' :: c :: r ∧ c ≠ '\n') :
    messageAfterColon? (g ++ (m ++ e)) = some m := by
  obtain rfl | rfl := hg
  · rw [List.nil_append] at hgreedy ⊢
    cases m with
    | nil => exact absurd rfl hm
    | cons c m =>
      by_cases hc : c = ' '
      · subst hc
        cases m with
        | nil => obtain rfl | rfl := he <;> rfl
        | cons d m =>
          have hd : d ≠ '\n' := fun h => hn (by simp [h])
          have := hgreedy.mpr ⟨d, m ++ e, rfl, hd⟩
          cases this
      · have hrw : messageAfterColon? (c :: m ++ e) = message? (c :: m ++ e) := by
          rw [List.cons_append, messageAfterColon?]
          rintro s ⟨⟩
          exact hc rfl
        rw [hrw]
        exact message?_complete hm hn he
  · rw [List.singleton_append, messageAfterColon?, message?_complete hm hn he, Option.some_or]

theorem messageAfterColon?_sound {s m : List Char} (hs : '\n' ∉ s.dropLast)
    (h : messageAfterColon? s = some m) :
    ∃ g e, s = g ++ (m ++ e) ∧ (g = [] ∨ g = [' ']) ∧ m ≠ [] ∧ '\n' ∉ m ∧ (e = [] ∨ e = ['\n']) ∧
      (g = [' '] ↔ ∃ c r, s = ' ' :: c :: r ∧ c ≠ '\n') := by
  unfold messageAfterColon? at h
  split at h
  · rename_i s
    have hsn : '\n' ∉ s.dropLast := newline_not_mem_dropLast (a := [' ']) hs
    cases hmsg : message? s with
    | some m' =>
      rw [hmsg, Option.some_or] at h
      obtain rfl := Option.some.inj h
      obtain ⟨e, rfl, hm, hn, he⟩ := message?_sound hsn hmsg
      refine ⟨[' '], e, rfl, Or.inr rfl, hm, hn, he, fun _ => ?_, fun _ => rfl⟩
      cases m' with
      | nil => exact absurd rfl hm
      | cons c m' => exact ⟨c, m' ++ e, rfl, fun hc => hn (by simp [hc])⟩
    | none =>
      rw [hmsg, Option.none_or] at h
      obtain rfl := Option.some.inj h
      have hhead := head_of_message?_eq_none hmsg
      refine ⟨[], s, rfl, Or.inl rfl, by simp, by simp, ending_of_head hsn hhead, by simp, ?_⟩
      rintro ⟨c, r, heq, hc⟩
      rw [(List.cons.inj heq).2] at hhead
      exact absurd (hhead c rfl) hc
  · rename_i hsp
    obtain ⟨e, rfl, hm, hn, he⟩ := message?_sound hs h
    refine ⟨[], e, rfl, Or.inl rfl, hm, hn, he, by simp, ?_⟩
    rintro ⟨c, r, heq, -⟩
    exact absurd heq (hsp _)

theorem keywordAndMessage?_eq_some_iff {s : List Char} {m : CommentMatch} :
    keywordAndMessage? s = some m ↔ ∃ t, s = m.keyword ++ ':' :: t ∧ m.keyword ≠ [] ∧
      (∀ c ∈ m.keyword, isKeywordChar c = true) ∧ messageAfterColon? t = some m.message := by
  constructor
  · intro h
    obtain ⟨w, r, rfl, hw, hr⟩ := exists_span isKeywordChar s
    rw [keywordAndMessage?, takeWhile_span hw hr, dropWhile_span hw hr] at h
    split at h
    · cases h
    · rename_i t hne
      obtain ⟨msg, hmsg, rfl⟩ := Option.map_eq_some_iff.mp h
      exact ⟨t, rfl, fun he => hne he, hw, hmsg⟩
    · cases h
  · rintro ⟨t, rfl, hne, hw, hmsg⟩
    have hr : ∀ c ∈ (':' :: t).head?, isKeywordChar c = false := by
      rintro c ⟨⟩
      decide
    rw [keywordAndMessage?, takeWhile_span hw hr, dropWhile_span hw hr]
    cases hk : m.keyword with
    | nil => exact absurd hk hne
    | cons c k => simp [hmsg, ← hk]

theorem keywordAndMessage?_cons {c : Char} {s : List Char} {m : CommentMatch}
    (h : keywordAndMessage? (c :: s) = some m) : isKeywordChar c = true := by
  obtain ⟨t, hs, hne, hw, -⟩ := keywordAndMessage?_eq_some_iff.mp h
  cases hk : m.keyword with
  | nil => exact absurd hk hne
  | cons d k =>
    rw [hk] at hs hw
    obtain ⟨rfl, -⟩ := List.cons.inj hs
    exact hw c (by simp)

theorem spacedKeyword?_of_ne_space {s : List Char} (h : s.head? ≠ some ' ') :
    spacedKeyword? s = keywordAndMessage? s := by
  unfold spacedKeyword?
  split
  · exact absurd rfl h
  · rfl

theorem spacedKeyword?_eq_some_iff {s : List Char} {m : CommentMatch} :
    spacedKeyword? s = some m ↔ ∃ sp r, (sp = [] ∨ sp = [' ']) ∧ s = sp ++ r ∧
      keywordAndMessage? r = some m := by
  constructor
  · intro h
    unfold spacedKeyword? at h
    split at h
    · rename_i r
      exact ⟨[' '], r, Or.inr rfl, rfl, h⟩
    · exact ⟨[], s, Or.inl rfl, rfl, h⟩
  · rintro ⟨sp, r, rfl | rfl, rfl, h⟩
    · rw [spacedKeyword?_of_ne_space, h]
      intro hsp
      cases s with
      | nil => cases hsp
      | cons c s =>
        obtain rfl := Option.some.inj hsp
        exact absurd (keywordAndMessage?_cons h) (by decide)
    · exact h

theorem body?_of_ne_bang {s : List Char} (h : s.head? ≠ some '!') : body? s = spacedKeyword? s := by
  unfold body?
  split
  · exact absurd rfl h
  · rfl

theorem keyword_eq_bang {s : List Char} {m : CommentMatch} (hs : spacedKeyword? s = none)
    (h : keywordAndMessage? ('!' :: s) = some m) : m.keyword = ['!'] := by
  obtain ⟨t, heq, hne, hw, hmsg⟩ := keywordAndMessage?_eq_some_iff.mp h
  cases hk : m.keyword with
  | nil => exact absurd hk hne
  | cons c k =>
    rw [hk] at heq hw
    obtain ⟨rfl, rfl⟩ := List.cons.inj heq
    cases k with
    | nil => rfl
    | cons d k =>
      have hrest : spacedKeyword? ((d :: k) ++ ':' :: t) = some ⟨d :: k, m.message⟩ := by
        apply spacedKeyword?_eq_some_iff.mpr
        refine ⟨[], _, Or.inl rfl, rfl, keywordAndMessage?_eq_some_iff.mpr ?_⟩
        exact ⟨t, rfl, by simp, fun e he => hw e (List.mem_cons_of_mem _ he), hmsg⟩
      cases hs.symm.trans hrest

theorem spacedKeyword?_of_lone_bang {s : List Char} {m : CommentMatch} (hm : m.keyword = ['!'])
    (h : keywordAndMessage? ('!' :: s) = some m) : spacedKeyword? s = none := by
  obtain ⟨t, heq, -, -, -⟩ := keywordAndMessage?_eq_some_iff.mp h
  rw [hm, List.singleton_append] at heq
  obtain rfl : s = ':' :: t := (List.cons.inj heq).2
  rw [spacedKeyword?_of_ne_space (by simp)]
  rfl

theorem body?_eq_some_iff {s : List Char} {m : CommentMatch} :
    body? s = some m ↔ ∃ b r, (b = [] ∨ b = ['!']) ∧ s = b ++ r ∧ spacedKeyword? r = some m ∧
      (b = [] → ∀ q, s = '!' :: q → m.keyword = ['!']) := by
  constructor
  · intro h
    unfold body? at h
    split at h
    · rename_i q
      cases hq : spacedKeyword? q with
      | some m' =>
        rw [hq, Option.some_or] at h
        obtain rfl := Option.some.inj h
        exact ⟨['!'], q, Or.inr rfl, rfl, hq, fun hb => by cases hb⟩
      | none =>
        rw [hq, Option.none_or] at h
        have hs : spacedKeyword? ('!' :: q) = some m := by
          rw [spacedKeyword?_of_ne_space (by simp), h]
        refine ⟨[], '!' :: q, Or.inl rfl, rfl, hs, fun _ _ _ => ?_⟩
        exact keyword_eq_bang hq h
    · rename_i hb
      exact ⟨[], s, Or.inl rfl, rfl, h, fun _ q hq => absurd hq (hb q)⟩
  · rintro ⟨b, r, rfl | rfl, rfl, h, hgreedy⟩
    · cases s with
      | nil => exact h
      | cons c q =>
        by_cases hc : c = '!'
        · subst hc
          rw [spacedKeyword?_of_ne_space (by simp)] at h
          have hnone : spacedKeyword? q = none :=
            spacedKeyword?_of_lone_bang (hgreedy rfl q rfl) h
          rw [body?, hnone, Option.none_or]
          exact h
        · rw [body?_of_ne_bang (by simpa using hc), h]
    · rw [List.singleton_append, body?, h, Option.some_or]

theorem body?_cons {c : Char} {s : List Char} {m : CommentMatch} (h : body? (c :: s) = some m) :
    c ≠ '/' ∧ c ≠ '*' := by
  obtain ⟨b, r, hb, heq, hspaced, -⟩ := body?_eq_some_iff.mp h
  obtain ⟨sp, q, hsp, rfl, hk⟩ := spacedKeyword?_eq_some_iff.mp hspaced
  have hc : c = '!' ∨ c = ' ' ∨ isKeywordChar c = true := by
    obtain rfl | rfl := hb
    · obtain rfl | rfl := hsp
      · cases q with
        | nil => cases heq
        | cons d q =>
          obtain ⟨rfl, -⟩ := List.cons.inj heq
          exact Or.inr (Or.inr (keywordAndMessage?_cons hk))
      · exact Or.inr (Or.inl (List.cons.inj heq).1)
    · exact Or.inl (List.cons.inj heq).1
  constructor <;> rintro rfl <;> revert hc <;> decide

theorem commentHere?_run {c : Char} {w r : List Char} (hc : c = '/' ∨ c = '*')
    (hw : ∀ d ∈ w, d = c) (hr : ∀ d ∈ r.head?, d ≠ c) :
    commentHere? ('/' :: (c :: w ++ r)) = body? r := by
  have hw' : ∀ d ∈ w, decide (d = c) = true := fun d hd => decide_eq_true (hw d hd)
  have hr' : ∀ d ∈ r.head?, decide (d = c) = false := fun d hd => decide_eq_false (hr d hd)
  obtain rfl | rfl := hc
  · rw [List.cons_append, commentHere?, dropWhile_span hw' hr']
  · rw [List.cons_append, commentHere?, dropWhile_span hw' hr']

theorem exists_run (c : Char) (s : List Char) :
    ∃ w r, s = w ++ r ∧ (∀ d ∈ w, d = c) ∧ ∀ d ∈ r.head?, d ≠ c := by
  obtain ⟨w, r, rfl, hw, hr⟩ := exists_span (fun d => decide (d = c)) s
  exact ⟨w, r, rfl, fun d hd => of_decide_eq_true (hw d hd),
    fun d hd => of_decide_eq_false (hr d hd)⟩

theorem commentHere?_eq_some_iff {s : List Char} {m : CommentMatch} :
    commentHere? s = some m ↔ ∃ o r, o ≠ [] ∧ ((∀ c ∈ o, c = '/') ∨ ∀ c ∈ o, c = '*') ∧
      s = '/' :: (o ++ r) ∧ body? r = some m := by
  constructor
  · intro h
    have hslashes : ∃ c q, s = '/' :: c :: q ∧ (c = '/' ∨ c = '*') := by
      unfold commentHere? at h
      split at h
      · exact ⟨'/', _, rfl, Or.inl rfl⟩
      · exact ⟨'*', _, rfl, Or.inr rfl⟩
      · cases h
    obtain ⟨c, q, rfl, hc⟩ := hslashes
    obtain ⟨w, r, rfl, hw, hr⟩ := exists_run c q
    have hrun : ∀ d ∈ c :: w, d = c := List.forall_mem_cons.mpr ⟨rfl, hw⟩
    refine ⟨c :: w, r, List.cons_ne_nil c w, ?_, rfl, (commentHere?_run hc hw hr).symm.trans h⟩
    exact hc.imp (fun hc d hd => (hrun d hd).trans hc) fun hc d hd => (hrun d hd).trans hc
  · rintro ⟨o, r, hne, hrun, rfl, h⟩
    have hstop : ∀ c ∈ r.head?, c ≠ '/' ∧ c ≠ '*' := by
      intro c hc
      cases r with
      | nil => cases hc
      | cons d r =>
        obtain rfl := Option.some.inj hc
        exact body?_cons h
    cases o with
    | nil => exact absurd rfl hne
    | cons c w =>
      obtain hrun | hrun := hrun
      · obtain ⟨rfl, hw⟩ := List.forall_mem_cons.mp hrun
        rw [commentHere?_run (Or.inl rfl) hw fun d hd => (hstop d hd).1, h]
      · obtain ⟨rfl, hw⟩ := List.forall_mem_cons.mp hrun
        rw [commentHere?_run (Or.inr rfl) hw fun d hd => (hstop d hd).2, h]

theorem commentHere?_text {d : CommentParts} (h : d.Greedy) :
    commentHere? d.text = some ⟨d.keyword, d.message⟩ := by
  apply commentHere?_eq_some_iff.mpr
  refine ⟨d.opening, _, d.opening_ne_nil, d.opening_run, rfl, body?_eq_some_iff.mpr ?_⟩
  refine ⟨d.bang, _, d.bang_optional, rfl, spacedKeyword?_eq_some_iff.mpr ?_, ?_⟩
  · refine ⟨d.space, _, d.space_optional, rfl, keywordAndMessage?_eq_some_iff.mpr ?_⟩
    refine ⟨d.tail, rfl, d.keyword_ne_nil, d.keyword_chars, ?_⟩
    exact messageAfterColon?_complete d.gap_optional d.message_ne_nil d.message_oneLine
      d.ending_optional h.gap_iff
  · intro hb q hq
    rw [hb, List.nil_append] at hq
    have hsp : d.space = [] := by
      obtain hsp | hsp := d.space_optional
      · exact hsp
      · rw [hsp] at hq
        exact absurd (List.cons.inj hq).1 (by decide)
    rw [hsp, List.nil_append] at hq
    cases hk : d.keyword with
    | nil => exact absurd hk d.keyword_ne_nil
    | cons c k =>
      rw [hk] at hq
      obtain rfl := (List.cons.inj hq).1
      have hiff := h.bang_iff k (by rw [hb, hsp, hk]; rfl)
      by_contra hne
      have hk' : k ≠ [] := fun h0 => hne (by rw [h0])
      have := hiff.mpr hk'
      rw [hb] at this
      cases this

theorem exists_parts_of_commentHere? {s : List Char} {m : CommentMatch} (hs : '\n' ∉ s.dropLast)
    (h : commentHere? s = some m) :
    ∃ d : CommentParts, s = d.text ∧ d.Greedy ∧ m = ⟨d.keyword, d.message⟩ := by
  obtain ⟨o, r, hone, horun, rfl, hbody⟩ := commentHere?_eq_some_iff.mp h
  obtain ⟨b, r, hb, rfl, hspaced, hbang⟩ := body?_eq_some_iff.mp hbody
  obtain ⟨sp, r, hsp, rfl, hkeyword⟩ := spacedKeyword?_eq_some_iff.mp hspaced
  obtain ⟨t, rfl, hkne, hkchars, hmsg⟩ := keywordAndMessage?_eq_some_iff.mp hkeyword
  have ht : '\n' ∉ t.dropLast := by
    apply newline_not_mem_dropLast (a := '/' :: (o ++ (b ++ (sp ++ (m.keyword ++ [':'])))))
    simpa using hs
  obtain ⟨g, e, rfl, hg, hm, hn, he, hgap⟩ := messageAfterColon?_sound ht hmsg
  refine ⟨⟨o, b, sp, m.keyword, g, m.message, e, hone, horun, hb, hsp, hkne, hkchars, hg, hm, hn,
    he⟩, rfl, ⟨hgap, ?_⟩, rfl⟩
  intro q hq
  dsimp only at hq ⊢
  obtain rfl | rfl := hb
  · have hk := hbang rfl (q ++ ':' :: (g ++ (m.message ++ e)))
      (by rw [List.nil_append, ← List.append_assoc]; rw [List.nil_append] at hq; rw [hq]; rfl)
    rw [hk, List.nil_append] at hq
    have hq0 : q = [] := by
      obtain rfl | rfl := hsp
      · exact (List.cons.inj hq).2.symm
      · exact absurd (List.cons.inj hq).1 (by decide)
    simp [hq0]
  · have hq' : sp ++ m.keyword = q := (List.cons.inj hq).2
    have hne : q ≠ [] := by
      rw [← hq']
      exact fun h0 => hkne (List.append_eq_nil_iff.mp h0).2
    exact ⟨fun _ => hne, fun _ => rfl⟩

theorem messageAfterColon?_tail (d : CommentParts) : (messageAfterColon? d.tail).isSome := by
  have hmsg := message?_complete d.message_ne_nil d.message_oneLine d.ending_optional
  unfold messageAfterColon?
  split
  · rw [Option.isSome_or, Option.isSome_some, Bool.or_true]
  · rename_i hsp
    have hg : d.gap = [] := by
      obtain hg | hg := d.gap_optional
      · exact hg
      · exact absurd (by rw [CommentParts.tail, hg]; rfl) (hsp (d.message ++ d.ending))
    rw [CommentParts.tail, hg, List.nil_append, hmsg, Option.isSome_some]

/-- The matcher finds some marker at the beginning of whatever can be taken apart, greedily or
not. -/
theorem commentHere?_text_isSome (d : CommentParts) : (commentHere? d.text).isSome := by
  obtain ⟨msg, hmsg⟩ := Option.isSome_iff_exists.mp (messageAfterColon?_tail d)
  have hkeyword : keywordAndMessage? (d.keyword ++ ':' :: d.tail) = some ⟨d.keyword, msg⟩ :=
    keywordAndMessage?_eq_some_iff.mpr ⟨d.tail, rfl, d.keyword_ne_nil, d.keyword_chars, hmsg⟩
  have hspaced : spacedKeyword? (d.space ++ (d.keyword ++ ':' :: d.tail)) =
      some ⟨d.keyword, msg⟩ :=
    spacedKeyword?_eq_some_iff.mpr ⟨d.space, _, d.space_optional, rfl, hkeyword⟩
  have hbody : (body? (d.bang ++ (d.space ++ (d.keyword ++ ':' :: d.tail)))).isSome := by
    obtain hb | hb := d.bang_optional
    · rw [hb, List.nil_append]
      cases hr : d.space ++ (d.keyword ++ ':' :: d.tail) with
      | nil => simp [hr, spacedKeyword?, keywordAndMessage?] at hspaced
      | cons c r =>
        rw [hr] at hspaced
        by_cases hc : c = '!'
        · subst hc
          rw [spacedKeyword?_of_ne_space (by simp)] at hspaced
          rw [body?, hspaced, Option.isSome_or, Option.isSome_some, Bool.or_true]
        · rw [body?_of_ne_bang (by simpa using hc), hspaced, Option.isSome_some]
    · rw [hb, List.singleton_append, body?, hspaced, Option.some_or, Option.isSome_some]
  obtain ⟨m, hm⟩ := Option.isSome_iff_exists.mp hbody
  have hhere : commentHere? d.text = some m :=
    commentHere?_eq_some_iff.mpr ⟨d.opening, _, d.opening_ne_nil, d.opening_run, rfl, hm⟩
  rw [hhere, Option.isSome_some]

theorem commentHere?_isSome_iff {s : List Char} (hs : '\n' ∉ s.dropLast) :
    (commentHere? s).isSome ↔ ∃ d : CommentParts, s = d.text := by
  constructor
  · intro h
    obtain ⟨m, hm⟩ := Option.isSome_iff_exists.mp h
    obtain ⟨d, hd, -, -⟩ := exists_parts_of_commentHere? hs hm
    exact ⟨d, hd⟩
  · rintro ⟨d, rfl⟩
    exact commentHere?_text_isSome d

theorem findComment?_isSome_iff {line : List Char} (h : '\n' ∉ line.dropLast) :
    (findComment? line).isSome ↔ ∃ pre, ∃ d : CommentParts, line = pre ++ d.text := by
  rw [findComment?, leftmost?_isSome_iff rfl]
  constructor
  · rintro ⟨pre, rest, rfl, hr⟩
    obtain ⟨d, rfl⟩ := (commentHere?_isSome_iff (newline_not_mem_dropLast h)).mp hr
    exact ⟨pre, d, rfl⟩
  · rintro ⟨pre, d, rfl⟩
    exact ⟨pre, d.text, rfl, commentHere?_text_isSome d⟩

/-- The parts of a line's marker: of all ways to take the line apart, one that starts leftmost, and
there the greediest. -/
structure IsLeftmost (line pre : List Char) (d : CommentParts) : Prop where
  line_eq : line = pre ++ d.text
  length_le : ∀ pre', ∀ d' : CommentParts, line = pre' ++ d'.text → pre.length ≤ pre'.length
  greedy : d.Greedy

theorem findComment?_eq_some_iff {line : List Char} {m : CommentMatch}
    (h : '\n' ∉ line.dropLast) :
    findComment? line = some m ↔
      ∃ pre, ∃ d : CommentParts, IsLeftmost line pre d ∧ m = ⟨d.keyword, d.message⟩ := by
  rw [findComment?, leftmost?_eq_some_iff rfl]
  constructor
  · rintro ⟨pre, rest, rfl, hr, hfirst⟩
    obtain ⟨d, rfl, hd, rfl⟩ := exists_parts_of_commentHere? (newline_not_mem_dropLast h) hr
    refine ⟨pre, d, ⟨rfl, ?_, hd⟩, rfl⟩
    intro pre' d' heq
    by_contra hlt
    have hnone := hfirst pre' d'.text heq (by omega)
    have hsome := commentHere?_text_isSome d'
    rw [hnone] at hsome
    cases hsome
  · rintro ⟨pre, d, ⟨rfl, hmin, hd⟩, rfl⟩
    refine ⟨pre, d.text, rfl, commentHere?_text hd, ?_⟩
    intro pre' rest' heq hlt
    rw [← Option.not_isSome_iff_eq_none]
    intro hsome
    rw [heq] at h
    obtain ⟨d', rfl⟩ := (commentHere?_isSome_iff (newline_not_mem_dropLast h)).mp hsome
    have := hmin pre' d' heq
    omega

/-- A line has a marker exactly if it can be taken apart, and the keyword and the message found are
those of the leftmost, greediest parts. -/
theorem findComment?_matches_grammar (line : List Char) (h : '\n' ∉ line.dropLast) :
    ((findComment? line).isSome ↔ ∃ pre, ∃ d : CommentParts, line = pre ++ d.text) ∧
      ∀ m, findComment? line = some m ↔
        ∃ pre, ∃ d : CommentParts, IsLeftmost line pre d ∧ m = ⟨d.keyword, d.message⟩ :=
  ⟨findComment?_isSome_iff h, fun _ => findComment?_eq_some_iff h⟩

theorem findComment?_lone_bang :
    '\n' ∉ "//!: x\n".toList.dropLast ∧
      ∃ pre, ∃ d : CommentParts, IsLeftmost "//!: x\n".toList pre d ∧
        (⟨['!'], ['x']⟩ : CommentMatch) = ⟨d.keyword, d.message⟩ :=
  ⟨by decide, ((findComment?_matches_grammar "//!: x\n".toList (by decide)).2 _).mp (by decide)⟩

example : findComment? "//!TODO: x".toList = some ⟨"TODO".toList, "x".toList⟩ := by decide

end CommentTags.Marker

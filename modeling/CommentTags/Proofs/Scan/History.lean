import CommentTags.Proofs.Scan.Answers
import Mathlib.Data.List.Nodup

namespace CommentTags

/-- A source of lines that can be rewound and extended. -/
class TextSource (σ : Type) extends LineSource σ where
  rewind : σ → σ
  append : σ → List Char → σ

instance : TextSource TextStream where
  rewind := TextStream.rewind
  append := TextStream.append

instance {σ : Type} [TextSource σ] : TextSource (Recorded σ) where
  rewind r := { r with source := TextSource.rewind r.source }
  append r more := { r with source := TextSource.append r.source more }

inductive Action where
  | ask (q : Request)
  | rewind
  | append (more : List Char)
  | follow (g : Grammar)
  deriving DecidableEq, Repr

namespace Scanner

def act {σ : Type} [TextSource σ] (s : Scanner σ) : Action → List Tag × Scanner σ
  | .ask q => s.answer q
  | .rewind => ([], { s with source := TextSource.rewind s.source })
  | .append more => ([], { s with source := TextSource.append s.source more })
  | .follow g => ([], { s with grammar := g })

def actAll {σ : Type} [TextSource σ] (s : Scanner σ) : List Action → List Tag × Scanner σ
  | [] => ([], s)
  | a :: as => ((s.act a).1 ++ ((s.act a).2.actAll as).1, ((s.act a).2.actAll as).2)

end Scanner

/-- A request that has been answered: the grammar at that time, and the tags that were given, each
with the line counter at the moment. -/
structure Pass where
  request : Request
  grammar : Grammar
  given : List (Tag × Nat)

/-- A pass after which the line of its tag is still in hand. -/
structure Pass.Holds (q : Pass) : Prop where
  request : q.request = .next
  grammar : q.grammar = .cLike
  given : q.given ≠ []

/-- A scanner over a text, with a record of what it has read and of what it has given. -/
structure History where
  scanner : Scanner (Recorded TextStream)
  passes : List Pass

namespace History

def start (g : Grammar) (p : Path) (stream : TextStream) : History :=
  ⟨.start g p (.start stream), []⟩

def pass (h : History) (q : Request) : Pass :=
  ⟨q, h.scanner.grammar, h.scanner.given q⟩

def act (h : History) (a : Action) : History where
  scanner := (h.scanner.act a).2
  passes :=
    match a with
    | .ask q => h.passes ++ [h.pass q]
    | _ => h.passes

def actAll (h : History) (as : List Action) : History :=
  as.foldl act h

def lines (h : History) : List Line := h.scanner.source.lines

/-- The line with a number, lines being counted as they are read, from one. -/
def line? (h : History) : Nat → Option Line
  | 0 => none
  | n + 1 => h.lines[n]?

def numbers (passes : List Pass) : List Nat :=
  (passes.flatMap Pass.given).map Prod.snd

/-- What is true of a scanner of the file `p`, whatever has been done with it. -/
structure Sound (p : Path) (h : History) : Prop where
  path : h.scanner.path = p
  counted : h.scanner.lineNumber = h.lines.length
  /-- A tag stands in the line that the counter was at when it was given, and it is the tag that
  this line has in the grammar of that time. -/
  given : ∀ q ∈ h.passes, ∀ t n, (t, n) ∈ q.given →
    t.line = n ∧ ∃ line, h.line? n = some line ∧ lineTag? q.grammar p n line = some t
  released : (∀ q ∈ h.passes.getLast?, ¬ q.Holds) → h.scanner.buffer = []
  held : ∀ q ∈ h.passes.getLast?, q.Holds →
    ∃ t, q.given = [(t, h.scanner.lineNumber)] ∧
      h.line? h.scanner.lineNumber = some h.scanner.buffer
  increasing : ∀ q ∈ h.passes, (q.given.map Prod.snd).Pairwise (· < ·)
  /-- Two passes give the same line only if the first holds it and the other, which follows at once
  with the grammar that tests first, gives it before anything else. -/
  once : ∀ before a between b after, h.passes = before ++ a :: between ++ b :: after →
    ∀ t u n, (t, n) ∈ a.given → (u, n) ∈ b.given →
      between = [] ∧ a.Holds ∧ b.grammar = .rust ∧ b.given.head? = some (u, n)
  /-- In that case it does: it gives the call of the line if there is one, or else the same tag. -/
  again : ∀ before a b after, h.passes = before ++ a :: b :: after → a.Holds → b.grammar = .rust →
    ∃ t n line, a.given = [(t, n)] ∧ h.line? n = some line ∧
      b.given.head? = some ((callTag? p n line).getD t, n)
  /-- No line gives more than two tags. -/
  twice : ∀ n, (numbers h.passes).count n ≤ 2

variable {p : Path} {h h' : History} {q : Request} {new : List Line} {t : Tag} {n : Nat}
  {line : Line}

theorem line?_eq_some_iff :
    h.line? n = some line ↔ ∃ k, n = k + 1 ∧ h.lines[k]? = some line := by
  cases n with
  | zero => exact ⟨fun h => (by cases h), fun ⟨_, h, _⟩ => by cases h⟩
  | succ k => exact ⟨fun h => ⟨k, rfl, h⟩, fun ⟨_, hk, h⟩ => Nat.succ.inj hk ▸ h⟩

theorem le_length_of_line? (hl : h.line? n = some line) : n ≤ h.lines.length := by
  obtain ⟨k, rfl, hk⟩ := line?_eq_some_iff.mp hl
  exact (List.getElem?_eq_some_iff.mp hk).1

theorem line?_append (hlines : h'.lines = h.lines ++ new) (hl : h.line? n = some line) :
    h'.line? n = some line := by
  obtain ⟨k, rfl, hk⟩ := line?_eq_some_iff.mp hl
  refine line?_eq_some_iff.mpr ⟨k, rfl, ?_⟩
  rw [hlines, List.getElem?_append_left (List.getElem?_eq_some_iff.mp hk).1, hk]

theorem line?_of_new {i : Nat} (hlines : h'.lines = h.lines ++ new) (hi : new[i]? = some line) :
    h'.line? (h.lines.length + 1 + i) = some line := by
  refine line?_eq_some_iff.mpr ⟨h.lines.length + i, by omega, ?_⟩
  rw [hlines, List.getElem?_append_right (Nat.le_add_right _ _), Nat.add_sub_cancel_left, hi]

theorem Sound.le_lineNumber (hs : Sound p h) {a : Pass} (ha : a ∈ h.passes)
    (ht : (t, n) ∈ a.given) : n ≤ h.scanner.lineNumber := by
  obtain ⟨-, line, hl, -⟩ := hs.given a ha t n ht
  exact hs.counted ▸ le_length_of_line? hl

theorem Sound.exists_holder (hs : Sound p h) (hb : h.scanner.buffer ≠ []) :
    ∃ before a u, h.passes = before ++ [a] ∧ a.Holds ∧ a.given = [(u, h.scanner.lineNumber)] ∧
      h.line? h.scanner.lineNumber = some h.scanner.buffer ∧
      ∀ c ∈ before, ∀ t, (t, h.scanner.lineNumber) ∉ c.given := by
  have hlast : ∃ a ∈ h.passes.getLast?, a.Holds := by
    by_contra hno
    exact hb (hs.released fun a ha hholds => hno ⟨a, ha, hholds⟩)
  obtain ⟨a, ha, hholds⟩ := hlast
  obtain ⟨u, hu, hline⟩ := hs.held a ha hholds
  obtain ⟨before, hpasses⟩ := List.getLast?_eq_some_iff.mp ha
  refine ⟨before, a, u, hpasses, hholds, hu, hline, fun c hc t ht => ?_⟩
  obtain ⟨first, between, rfl⟩ := List.append_of_mem hc
  have hsplit : h.passes = first ++ c :: between ++ a :: [] := hpasses
  have hrust := (hs.once _ _ _ _ _ hsplit t u _ ht (hu ▸ List.mem_singleton_self _)).2.2.1
  rw [hholds.grammar] at hrust
  cases hrust

theorem given_pass (h : History) (q : Request) :
    (h.pass q).given = (h.scanner.answer q).1.map Tag.numbered :=
  h.scanner.given_eq q

theorem holds_pass_iff : (h.pass q).Holds ↔ h.scanner.Keeps q := by
  have hne : (h.pass q).given ≠ [] ↔ (h.scanner.answer q).1 ≠ [] := by
    rw [given_pass, Ne, List.map_eq_nil_iff]
  exact ⟨fun ⟨hq, hg, hgiven⟩ => ⟨hq, hg, hne.mp hgiven⟩,
    fun ⟨hq, hg, htags⟩ => ⟨hq, hg, hne.mpr htags⟩⟩

theorem exists_given_of_keeps (hk : h.scanner.Keeps q) :
    ∃ t, (h.pass q).given = [(t, (h.scanner.answer q).2.lineNumber)] := by
  obtain ⟨rfl, -, htags⟩ := hk
  match hnext : h.scanner.next with
  | (.error e, s) => exact absurd (by rw [Scanner.answer, hnext]) htags
  | (.ok none, s) => exact absurd (by rw [Scanner.answer, hnext]) htags
  | (.ok (some t), s) =>
    refine ⟨t, ?_⟩
    rw [given_pass, Scanner.answer_next_of_tag hnext, List.map_singleton,
      Scanner.numbered_of_next hnext]

theorem mem_given_pass (hs : Sound p h) (hans : h.scanner.Answered q new)
    (ht : (t, n) ∈ (h.pass q).given) :
    t.line = n ∧
      ((∃ i line, n = h.scanner.lineNumber + 1 + i ∧ new[i]? = some line ∧
          lineTag? h.scanner.grammar p n line = some t) ∨
        n = h.scanner.lineNumber ∧ h.scanner.grammar = .rust ∧ h.scanner.found? = some t) := by
  rw [given_pass, hans.tags] at ht
  obtain ⟨u, hu, heq⟩ := List.mem_map.mp ht
  obtain ⟨rfl, rfl⟩ := Prod.mk.inj heq
  obtain hu | hu := List.mem_append.mp hu
  · unfold Scanner.retested at hu
    split at hu
    · rename_i hg
      have hf := Option.mem_toList.mp hu
      have hline := Scanner.line_of_found? hf
      rw [hline, Int.toNat_natCast]
      exact ⟨rfl, Or.inr ⟨rfl, hg, hf⟩⟩
    · cases hu
  · obtain ⟨i, line, hi, htag⟩ := mem_tagsFrom.mp hu
    have hline := (lineTag?_place htag).2.1
    rw [hs.path] at htag
    rw [hline, Int.toNat_natCast]
    exact ⟨rfl, Or.inl ⟨i, line, rfl, hi, htag⟩⟩

theorem buffer_ne_nil_of_found? (h' : h.scanner.found? = some t) : h.scanner.buffer ≠ [] :=
  fun hb => by rw [Scanner.found?_of_buffer_nil _ hb] at h'; cases h'

theorem head_given_pass (hans : h.scanner.Answered q new) (hg : h.scanner.grammar = .rust)
    (hf : h.scanner.found? = some t) :
    (h.pass q).given.head? = some (t, h.scanner.lineNumber) := by
  rw [given_pass, hans.tags, Scanner.retested_of_rust hg, hf, Option.toList_some,
    List.singleton_append, List.map_cons, List.head?_cons, Tag.numbered,
    Scanner.line_of_found? hf, Int.toNat_natCast]

theorem increasing_pass (hans : h.scanner.Answered q new) :
    ((h.pass q).given.map Prod.snd).Pairwise (· < ·) := by
  have hnumber : Prod.snd ∘ Tag.numbered = fun t => t.line.toNat := rfl
  rw [given_pass, List.map_map, hnumber, hans.tags, List.map_append, List.pairwise_append]
  refine ⟨?_, ?_, ?_⟩
  · unfold Scanner.retested
    split
    · cases h.scanner.found? <;> simp
    · exact List.Pairwise.nil
  · refine List.pairwise_map.mpr (List.Pairwise.imp_of_mem ?_ (tagsFrom_pairwise new))
    intro a b ha hb hab
    obtain ⟨i, l, -, hl⟩ := mem_tagsFrom.mp ha
    have := (lineTag?_place hl).2.1
    omega
  · intro m hm k hk
    obtain ⟨u, hu, rfl⟩ := List.mem_map.mp hm
    obtain ⟨v, hv, rfl⟩ := List.mem_map.mp hk
    obtain ⟨i, l, -, hl⟩ := mem_tagsFrom.mp hv
    have hv := (lineTag?_place hl).2.1
    unfold Scanner.retested at hu
    split at hu
    · have hu := Scanner.line_of_found? (Option.mem_toList.mp hu)
      omega
    · cases hu

theorem lines_ask (hans : h.scanner.Answered q new) :
    (h.act (.ask q)).lines = h.lines ++ new := hans.lines

section

variable (hs : Sound p h) (hans : h.scanner.Answered q new)

include hs hans in
theorem given_ask : ∀ a ∈ (h.act (.ask q)).passes, ∀ t n, (t, n) ∈ a.given →
    t.line = n ∧ ∃ line, (h.act (.ask q)).line? n = some line ∧
      lineTag? a.grammar p n line = some t := by
  have hlines := lines_ask hans
  intro a ha t n ht
  obtain ha | ha := List.mem_append.mp ha
  · obtain ⟨hline, line, hl, htag⟩ := hs.given a ha t n ht
    exact ⟨hline, line, line?_append hlines hl, htag⟩
  · obtain rfl := List.mem_singleton.mp ha
    obtain ⟨hline, ⟨i, line, rfl, hi, htag⟩ | ⟨rfl, hg, hf⟩⟩ := mem_given_pass hs hans ht
    · refine ⟨hline, line, ?_, htag⟩
      rw [hs.counted]
      exact line?_of_new hlines hi
    · obtain ⟨-, -, -, -, -, -, hl, -⟩ := hs.exists_holder (buffer_ne_nil_of_found? hf)
      rw [Scanner.found?, hs.path] at hf
      exact ⟨hline, _, line?_append hlines hl, hf⟩

include hs hans in
theorem held_ask (hholds : (h.pass q).Holds) :
    ∃ t, (h.pass q).given = [(t, (h.act (.ask q)).scanner.lineNumber)] ∧
      (h.act (.ask q)).line? (h.act (.ask q)).scanner.lineNumber =
        some (h.act (.ask q)).scanner.buffer := by
  have hlines := lines_ask hans
  have hnumber : (h.act (.ask q)).scanner.lineNumber = h.scanner.lineNumber + new.length :=
    hans.lineNumber
  have hkeeps := holds_pass_iff.mp hholds
  obtain ⟨t, ht⟩ := exists_given_of_keeps hkeeps
  refine ⟨t, ht, ?_⟩
  have hlast := hans.held hkeeps
  rw [List.getLast?_eq_getElem?] at hlast
  have hpos : 0 < new.length := by
    have := (List.getElem?_eq_some_iff.mp hlast).1
    omega
  have heq : h.lines.length + 1 + (new.length - 1) = h.lines.length + new.length := by omega
  rw [hnumber, hs.counted, ← heq]
  exact line?_of_new hlines hlast

include hs hans in
theorem once_ask : ∀ before a between b after,
    (h.act (.ask q)).passes = before ++ a :: between ++ b :: after →
    ∀ t u n, (t, n) ∈ a.given → (u, n) ∈ b.given →
      between = [] ∧ a.Holds ∧ b.grammar = .rust ∧ b.given.head? = some (u, n) := by
  intro before a between b after hpasses t u n ht hu
  have hpasses : h.passes ++ [h.pass q] = before ++ a :: between ++ b :: after := hpasses
  obtain rfl | ⟨after, c, rfl⟩ := List.eq_nil_or_concat after
  · obtain ⟨hold, hb⟩ := List.append_inj' hpasses rfl
    obtain rfl := List.cons.inj hb |>.1
    have ha : a ∈ h.passes := hold ▸ List.mem_append_right _ List.mem_cons_self
    have hle := hs.le_lineNumber ha ht
    obtain ⟨-, ⟨i, -, rfl, -⟩ | ⟨rfl, hg, hf⟩⟩ := mem_given_pass hs hans hu
    · omega
    -- the line in hand has been given by the last pass only, so that pass is `a`
    · obtain ⟨first, d, v, hfirst, hholds, -, -, hother⟩ :=
        hs.exists_holder (buffer_ne_nil_of_found? hf)
      obtain rfl | ⟨between, e, rfl⟩ := List.eq_nil_or_concat between
      · obtain ⟨-, had⟩ := List.append_inj' (hold.symm.trans hfirst) rfl
        obtain rfl := List.cons.inj had |>.1
        exact ⟨rfl, hholds, hg, head_given_pass hans hg hf⟩
      · rw [List.concat_eq_append, ← List.cons_append, ← List.append_assoc] at hold
        obtain ⟨hbefore, -⟩ := List.append_inj' (hold.symm.trans hfirst) rfl
        have ha : a ∈ first := hbefore ▸ List.mem_append_right _ List.mem_cons_self
        exact absurd ht (hother a ha t)
  · rw [List.concat_eq_append, ← List.cons_append, ← List.append_assoc] at hpasses
    obtain ⟨hold, -⟩ := List.append_inj' hpasses rfl
    exact hs.once before a between b after hold t u n ht hu

include hs hans in
theorem again_ask : ∀ before a b after, (h.act (.ask q)).passes = before ++ a :: b :: after →
    a.Holds → b.grammar = .rust →
    ∃ t n line, a.given = [(t, n)] ∧ (h.act (.ask q)).line? n = some line ∧
      b.given.head? = some ((callTag? p n line).getD t, n) := by
  have hlines := lines_ask hans
  intro before a b after hpasses hholds hg
  have hpasses : h.passes ++ [h.pass q] = before ++ a :: b :: after := hpasses
  obtain rfl | ⟨after, c, rfl⟩ := List.eq_nil_or_concat after
  · have hsplit : h.passes ++ [h.pass q] = (before ++ [a]) ++ [b] := by
      rw [hpasses, List.append_assoc, List.singleton_append]
    obtain ⟨hold, hb⟩ := List.append_inj' hsplit rfl
    obtain rfl := List.cons.inj hb |>.1
    have hlast : a ∈ h.passes.getLast? := by rw [hold, List.getLast?_concat]; rfl
    obtain ⟨t, ht, hl⟩ := hs.held a hlast hholds
    have ha : a ∈ h.passes := hold ▸ List.mem_append_right _ List.mem_cons_self
    obtain ⟨-, line, hline, htag⟩ := hs.given a ha t _ (ht ▸ List.mem_singleton_self _)
    obtain rfl : h.scanner.buffer = line := Option.some.inj (hl.symm.trans hline)
    refine ⟨t, _, _, ht, line?_append hlines hl, head_given_pass hans hg ?_⟩
    have hrust : h.scanner.grammar = .rust := hg
    rw [hholds.grammar, lineTag?] at htag
    rw [Scanner.found?, hs.path, hrust, lineTag?, htag]
    cases callTag? p h.scanner.lineNumber h.scanner.buffer <;> rfl
  · rw [List.concat_eq_append, ← List.cons_append, ← List.cons_append, ← List.append_assoc]
      at hpasses
    obtain ⟨hold, -⟩ := List.append_inj' hpasses rfl
    obtain ⟨t, n, line, ht, hl, hhead⟩ := hs.again before a b after hold hholds hg
    exact ⟨t, n, line, ht, line?_append hlines hl, hhead⟩

theorem mem_numbers {passes : List Pass} :
    n ∈ numbers passes ↔ ∃ a ∈ passes, ∃ t, (t, n) ∈ a.given := by
  simp only [numbers, List.mem_map, List.mem_flatMap, Prod.exists, exists_eq_right]
  exact ⟨fun ⟨t, a, ha, ht⟩ => ⟨a, ha, t, ht⟩, fun ⟨a, ha, t, ht⟩ => ⟨t, a, ha, ht⟩⟩

theorem count_numbers_concat (passes : List Pass) (a : Pass) (n : Nat) :
    (numbers (passes ++ [a])).count n =
      (numbers passes).count n + (a.given.map Prod.snd).count n := by
  rw [numbers, List.flatMap_append, List.flatMap_singleton, List.map_append, List.count_append]
  rfl

include hs hans in
theorem twice_ask (n : Nat) : (numbers (h.act (.ask q)).passes).count n ≤ 2 := by
  have hpasses : (h.act (.ask q)).passes = h.passes ++ [h.pass q] := rfl
  have honce : ((h.pass q).given.map Prod.snd).count n ≤ 1 :=
    List.nodup_iff_count_le_one.mp ((increasing_pass hans).imp Nat.ne_of_lt) n
  rw [hpasses, count_numbers_concat]
  by_cases hmem : n ∈ (h.pass q).given.map Prod.snd
  · have hold : (numbers h.passes).count n ≤ 1 := by
      obtain ⟨⟨u, _⟩, hu, rfl⟩ := List.mem_map.mp hmem
      obtain ⟨-, ⟨i, -, rfl, -⟩ | ⟨rfl, hg, hf⟩⟩ := mem_given_pass hs hans hu
      · refine Nat.le_of_eq (List.count_eq_zero_of_not_mem fun hn => ?_) |>.trans (Nat.zero_le 1)
        obtain ⟨a, ha, t, ht⟩ := mem_numbers.mp hn
        have := hs.le_lineNumber ha ht
        omega
      · obtain ⟨before, a, v, hbefore, -, hgiven, -, hother⟩ :=
          hs.exists_holder (buffer_ne_nil_of_found? hf)
        have hnone : (numbers before).count h.scanner.lineNumber = 0 := by
          refine List.count_eq_zero_of_not_mem fun hn => ?_
          obtain ⟨c, hc, t, ht⟩ := mem_numbers.mp hn
          exact hother c hc t ht
        rw [hbefore, count_numbers_concat, hnone, hgiven, Nat.zero_add]
        exact List.count_le_length
    omega
  · rw [List.count_eq_zero_of_not_mem hmem]
    exact hs.twice n

end

theorem sound_start (g : Grammar) (p : Path) (stream : TextStream) :
    Sound p (start g p stream) where
  path := rfl
  counted := rfl
  given := fun _ ha => absurd ha List.not_mem_nil
  released := fun _ => rfl
  held := fun _ ha => by cases ha
  increasing := fun _ ha => absurd ha List.not_mem_nil
  once := fun before _ _ _ _ h => by cases before <;> cases h
  again := fun before _ _ _ h => by cases before <;> cases h
  twice := fun _ => Nat.zero_le 2

/-- One step keeps a history sound. -/
theorem Sound.act (hs : Sound p h) (a : Action) : Sound p (h.act a) := by
  cases a with
  | ask q =>
    obtain ⟨new, hans⟩ := h.scanner.exists_answered q
    have hlast : (h.act (.ask q)).passes.getLast? = some (h.pass q) := List.getLast?_concat
    refine ⟨hans.path.trans hs.path, ?_, given_ask hs hans, ?_, ?_, ?_, once_ask hs hans,
      again_ask hs hans, twice_ask hs hans⟩
    · rw [lines_ask hans, List.length_append, ← hs.counted]
      exact hans.lineNumber
    · intro hno
      exact hans.released fun hkeeps => hno _ hlast (holds_pass_iff.mpr hkeeps)
    · intro b hb hholds
      obtain rfl := Option.some.inj (hlast.symm.trans hb)
      exact held_ask hs hans hholds
    · exact List.forall_mem_append.mpr
        ⟨hs.increasing, List.forall_mem_singleton.mpr (increasing_pass hans)⟩
  | rewind => exact { hs with }
  | append more => exact { hs with }
  | follow g => exact { hs with }

theorem Sound.actAll (as : List Action) (hs : Sound p h) : Sound p (h.actAll as) := by
  induction as generalizing h with
  | nil => exact hs
  | cons a as ih => exact ih (hs.act a)

def tags (h : History) : List Tag :=
  (h.passes.flatMap Pass.given).map Prod.fst

theorem answer_plain (s : Scanner (Recorded TextStream)) (q : Request) :
    s.plain.answer q = ((s.answer q).1, (s.answer q).2.plain) := by
  cases q with
  | rest => rw [Scanner.answer, Scanner.collect_plain, Scanner.answer]
  | next =>
    rw [Scanner.answer, Scanner.next_plain, Scanner.answer]
    obtain ⟨e | _ | t, s'⟩ := s.next
    · rfl
    · rfl
    · rfl

theorem plain_act (h : History) (a : Action) :
    (h.act a).scanner.plain = (h.scanner.plain.act a).2 := by
  cases a with
  | ask q => exact (congrArg Prod.snd (answer_plain h.scanner q)).symm
  | rewind => rfl
  | append more => rfl
  | follow g => rfl

theorem map_fst_numbered (ts : List Tag) : (ts.map Tag.numbered).map Prod.fst = ts := by
  rw [List.map_map]
  exact List.map_id ts

theorem tags_act (h : History) (a : Action) :
    (h.act a).tags = h.tags ++ (h.scanner.plain.act a).1 := by
  cases a with
  | ask q =>
    have hgiven : (h.pass q).given.map Prod.fst = (h.scanner.plain.answer q).1 := by
      rw [given_pass, map_fst_numbered, answer_plain]
    have hpasses : (h.act (.ask q)).passes = h.passes ++ [h.pass q] := rfl
    rw [tags, hpasses, List.flatMap_append, List.flatMap_singleton, List.map_append, hgiven]
    rfl
  | rewind => exact (List.append_nil _).symm
  | append more => exact (List.append_nil _).symm
  | follow g => exact (List.append_nil _).symm

theorem actAll_plain (h : History) (as : List Action) :
    ((h.actAll as).tags, (h.actAll as).scanner.plain) =
      (h.tags ++ (h.scanner.plain.actAll as).1, (h.scanner.plain.actAll as).2) := by
  induction as generalizing h with
  | nil => exact congrArg (·, h.scanner.plain) (List.append_nil h.tags).symm
  | cons a as ih =>
    rw [actAll, List.foldl_cons, ← actAll, ih, plain_act, tags_act, List.append_assoc]
    rfl

/-- Whatever is done with a scanner of a text, from any position in it, the tags are those of a
sound history, and the scanner is left in the state that this history ends in. -/
theorem sound_of_actAll (g : Grammar) (p : Path) (stream : TextStream) (as : List Action) :
    Sound p ((start g p stream).actAll as) ∧
      (Scanner.start g p stream).actAll as =
        (((start g p stream).actAll as).tags, ((start g p stream).actAll as).scanner.plain) :=
  ⟨(sound_start g p stream).actAll as, (actAll_plain (start g p stream) as).symm⟩

end History

end CommentTags

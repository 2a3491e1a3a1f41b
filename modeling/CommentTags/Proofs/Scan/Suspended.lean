import CommentTags.Proofs.Scan.Failing

namespace CommentTags

namespace Text

variable {α : Type} {lf : α} {s : List α} {lines : List (List α)}

theorem IsCut.drop (h : IsCut lf s lines) (n : Nat) :
    IsCut lf (lines.drop n).flatten (lines.drop n) := by
  induction n generalizing s lines with
  | zero =>
    obtain rfl := h.flatten_eq
    exact h
  | succ n ih =>
    cases lines with
    | nil => exact h.flatten_eq ▸ h
    | cons line lines => exact ih h.tail

theorem firstLine_drop [DecidableEq α] {n : Nat} {line : List α}
    (h : (cut lf s)[n]? = some line) :
    firstLine lf ((cut lf s).drop n).flatten = line ∧
      afterFirstLine lf ((cut lf s).drop n).flatten = ((cut lf s).drop (n + 1)).flatten := by
  obtain ⟨hn, rfl⟩ := List.getElem?_eq_some_iff.mp h
  have hcut := ((isCut_cut lf s).drop n).eq_cut
  have hdrop := List.drop_eq_getElem_cons hn
  cases hrest : ((cut lf s).drop n).flatten with
  | nil =>
    rw [hrest, cut_nil, hdrop] at hcut
    cases hcut
  | cons c rest =>
    rw [hrest, cut_cons, hdrop] at hcut
    obtain ⟨hfirst, hafter⟩ := List.cons.inj hcut
    exact ⟨hfirst.symm, by rw [hafter, flatten_cut]⟩

end Text

namespace Scanner

variable {g : Grammar} {p : Path} {text other : List Char} {n k : Nat} {t : Tag}

/-- The line that stays in the buffer when these have been read and tested. -/
def held : Grammar → List Line → Line
  | .rust, _ => []
  | .cLike, lines => lines.getLast?.getD []

/-- The scanner between two tags, once it is done with the first `n` lines of a text. -/
def suspended (g : Grammar) (p : Path) (text : List Char) (n : Nat) :
    Scanner (Recorded TextStream) :=
  let lines := Text.cut '\n' text
  ⟨g, p, ⟨⟨(lines.take n).flatten.reverse, (lines.drop n).flatten⟩, lines.take n⟩,
    held g (lines.take n), n⟩

/-- The scanner once it has found the end of a text so many times. -/
def exhausted (g : Grammar) (p : Path) (text : List Char) (times : Nat) :
    Scanner (Recorded TextStream) :=
  let lines := Text.cut '\n' text
  ⟨g, p, ⟨⟨text.reverse, []⟩, lines ++ List.replicate times []⟩, [], lines.length⟩

theorem suspended_zero :
    suspended g p text 0 = start g p (Recorded.start (TextStream.ofList text)) := by
  dsimp only [suspended]
  rw [List.take_zero, List.drop_zero, Text.flatten_cut]
  cases g <;> rfl

theorem ready_suspended : (suspended g p text n).Ready := by
  intro h
  obtain rfl : g = .rust := h
  rfl

theorem readLine_suspended {line : Line} (h : (Text.cut '\n' text)[n]? = some line) :
    LineSource.readLine (suspended g p text n).source =
      (.ok line, (suspended g p text (n + 1)).source) := by
  obtain ⟨hfirst, hafter⟩ := Text.firstLine_drop h
  have htake : (Text.cut '\n' text).take (n + 1) = (Text.cut '\n' text).take n ++ [line] := by
    rw [List.take_add_one, h, Option.toList_some]
  have hread : LineSource.readLine (suspended g p text n).source.source =
      (.ok line, (suspended g p text (n + 1)).source.source) := by
    dsimp only [suspended, LineSource.readLine, TextStream.readLine]
    rw [hfirst, hafter, htake, List.flatten_append, List.flatten_singleton, List.reverse_append]
  rw [Recorded.readLine_eq, hread]
  dsimp only [suspended]
  rw [htake]
  rfl

theorem afterLine_suspended {line : Line} (h : (Text.cut '\n' text)[n]? = some line)
    (hline : line ≠ []) :
    (suspended g p text n).afterLine (suspended g p text (n + 1)).source line =
      suspended g p text (n + 1) := by
  cases g with
  | rust =>
    dsimp only [suspended, afterLine, load, clear]
    rw [if_neg hline]
    rfl
  | cLike =>
    have hlast : held .cLike ((Text.cut '\n' text).take (n + 1)) = line := by
      rw [held, List.take_add_one, h, Option.toList_some, List.getLast?_concat, Option.getD_some]
    dsimp only [suspended, afterLine, load]
    rw [if_neg hline, hlast]

theorem readLine_end {s : Scanner (Recorded TextStream)} (h : s.source.source.after = []) :
    LineSource.readLine s.source =
      (.ok [], ⟨s.source.source, s.source.reads ++ [[]]⟩) := by
  obtain ⟨g, p, ⟨⟨before, after⟩, reads⟩, buffer, number⟩ := s
  obtain rfl : after = [] := h
  rfl

theorem next_suspended_length :
    (suspended g p text (Text.cut '\n' text).length).next = (.ok none, exhausted g p text 1) := by
  have hend : (suspended g p text (Text.cut '\n' text).length).source.source.after = [] := by
    dsimp only [suspended]
    rw [List.drop_length, List.flatten_nil]
  rw [next_of_end ready_suspended (readLine_end hend)]
  dsimp only [suspended, exhausted, load]
  rw [List.take_length, List.drop_length, Text.flatten_cut]
  rfl

theorem next_exhausted (times : Nat) :
    (exhausted g p text times).next = (.ok none, exhausted g p text (times + 1)) := by
  have hready : (exhausted g p text times).Ready := fun _ => rfl
  rw [next_of_end hready (readLine_end rfl)]
  dsimp only [exhausted, load]
  rw [List.append_assoc, ← List.replicate_succ']
  rfl

/-- The next tag is that of the first of the lines to come that has one, and there the scanner
stops. -/
theorem next_suspended (hn : n ≤ (Text.cut '\n' text).length) :
    (suspended g p text n).next =
      match tagsFrom g p (n + 1) ((Text.cut '\n' text).drop n) with
      | t :: _ => (.ok (some t), suspended g p text t.line.toNat)
      | [] => (.ok none, exhausted g p text 1) := by
  generalize hrest : (Text.cut '\n' text).drop n = rest
  induction rest generalizing n with
  | nil =>
    obtain rfl := Nat.le_antisymm hn (List.drop_eq_nil_iff.mp hrest)
    exact next_suspended_length
  | cons line rest ih =>
    have hline : (Text.cut '\n' text)[n]? = some line := by
      rw [← List.head?_drop, hrest, List.head?_cons]
    have hdrop : (Text.cut '\n' text).drop (n + 1) = rest := by
      rw [← List.drop_drop, hrest, List.drop_succ_cons, List.drop_zero]
    have hlt : n < (Text.cut '\n' text).length := (List.getElem?_eq_some_iff.mp hline).1
    have hne : line ≠ [] :=
      (Text.isCut_cut '\n' text).ne_nil line (List.mem_of_getElem? hline)
    have hread := readLine_suspended (g := g) (p := p) hline
    have hafter := afterLine_suspended (g := g) (p := p) hline hne
    obtain ⟨c, line, rfl⟩ := List.exists_cons_of_ne_nil hne
    rw [next_of_line ready_suspended hread, hafter, tagsFrom_cons]
    dsimp only [suspended]
    cases htag : lineTag? g p (n + 1) (c :: line) with
    | none => exact ih hlt hdrop
    | some t =>
      have htline : t.line.toNat = n + 1 := by
        rw [(lineTag?_place htag).2.1, Int.toNat_natCast]
      dsimp only [Option.toList_some, List.singleton_append]
      rw [htline]

section

variable {σ : Type} [LineSource σ]

def afterRequests (s : Scanner σ) : Nat → Scanner σ
  | 0 => s
  | k + 1 => (s.afterRequests k).next.2

theorem afterRequests_plain (s : Scanner (Recorded σ)) (k : Nat) :
    (s.afterRequests k).plain = s.plain.afterRequests k := by
  induction k with
  | zero => rfl
  | succ k ih => rw [afterRequests, afterRequests, ← ih, next_plain]

end

def fresh (g : Grammar) (p : Path) (text : List Char) : Scanner (Recorded TextStream) :=
  start g p (Recorded.start (TextStream.ofList text))

inductive Rests (g : Grammar) (p : Path) (text : List Char) : Scanner (Recorded TextStream) → Prop
  | between {n : Nat} (hn : n ≤ (Text.cut '\n' text).length) : Rests g p text (suspended g p text n)
  | ended (times : Nat) : Rests g p text (exhausted g p text times)

theorem tagsFrom_head {lines : List Line} {ts : List Tag}
    (h : tagsFrom g p (n + 1) lines = t :: ts) :
    ∃ m : Nat, t.line = m ∧ n < m ∧ m ≤ n + lines.length := by
  obtain ⟨i, line, hline, ht⟩ := mem_tagsFrom.mp (h ▸ List.mem_cons_self)
  obtain ⟨hi, -⟩ := List.getElem?_eq_some_iff.mp hline
  exact ⟨n + 1 + i, (lineTag?_place ht).2.1, by omega, by omega⟩

theorem next_suspended_of_tag {s : Scanner (Recorded TextStream)}
    (hn : n ≤ (Text.cut '\n' text).length) (h : (suspended g p text n).next = (.ok (some t), s)) :
    ∃ (m : Nat) (ts : List Tag), tagsFrom g p (n + 1) ((Text.cut '\n' text).drop n) = t :: ts ∧
      t.line = m ∧ n < m ∧ m ≤ (Text.cut '\n' text).length ∧ s = suspended g p text m := by
  rw [next_suspended hn] at h
  cases hts : tagsFrom g p (n + 1) ((Text.cut '\n' text).drop n) with
  | nil => rw [hts] at h; cases h
  | cons u ts =>
    rw [hts] at h
    cases h
    obtain ⟨m, hline, hlt, hle⟩ := tagsFrom_head hts
    rw [List.length_drop] at hle
    refine ⟨m, ts, rfl, hline, hlt, by omega, ?_⟩
    rw [hline, Int.toNat_natCast]

theorem Rests.next {s : Scanner (Recorded TextStream)} (h : Rests g p text s) :
    (∃ (t : Tag) (n : Nat), n ≤ (Text.cut '\n' text).length ∧ t.line = n ∧
      s.next = (.ok (some t), suspended g p text n)) ∨
    ∃ times, s.next = (.ok none, exhausted g p text times) := by
  cases h with
  | ended times => exact Or.inr ⟨_, next_exhausted times⟩
  | @between n hn =>
    match h : (suspended g p text n).next with
    | (.ok (some t), s) =>
      obtain ⟨m, -, -, hline, -, hm, rfl⟩ := next_suspended_of_tag hn h
      exact Or.inl ⟨t, m, hm, hline, rfl⟩
    | (.ok none, s) =>
      rw [next_suspended hn] at h
      split at h
      · cases h
      · exact Or.inr ⟨1, h.symm⟩
    | (.error e, s) =>
      rw [next_suspended hn] at h
      split at h <;> cases h

theorem rests_afterRequests (k : Nat) : Rests g p text ((fresh g p text).afterRequests k) := by
  induction k with
  | zero =>
    rw [afterRequests, fresh, ← suspended_zero]
    exact .between (Nat.zero_le _)
  | succ k ih =>
    obtain ⟨t, n, hn, -, hnext⟩ | ⟨times, hnext⟩ := ih.next
    · rw [afterRequests, hnext]
      exact .between hn
    · rw [afterRequests, hnext]
      exact .ended times

theorem tagsFrom_head_congr {lines lines' : List Line} {ts : List Tag}
    (h : lines'.take k = lines.take k) (hts : tagsFrom g p (n + 1) lines = t :: ts)
    (ht : t.line ≤ (n + k : Nat)) : ∃ ts', tagsFrom g p (n + 1) lines' = t :: ts' := by
  have htake := tagsFrom_take g p (n + 1) k lines
  rw [hts, List.filter_cons, if_pos (decide_eq_true (by omega)), ← h] at htake
  have hsplit : tagsFrom g p (n + 1) lines' = _ ++ _ :=
    (congrArg _ (List.take_append_drop k lines').symm).trans (tagsFrom_append ..)
  rw [hsplit, htake]
  exact ⟨_, List.cons_append⟩

theorem next_suspended_congr {m : Nat}
    (h : (Text.cut '\n' other).take n = (Text.cut '\n' text).take n)
    (hk : k ≤ (Text.cut '\n' text).length)
    (hnext : (suspended g p text k).next = (.ok (some t), suspended g p text m)) (hm : m ≤ n) :
    (suspended g p other k).next = (.ok (some t), suspended g p other m) := by
  obtain ⟨m', ts, hts, hline, hlt, hle, hs⟩ := next_suspended_of_tag hk hnext
  obtain rfl : m = m' := congrArg lineNumber hs
  have hlength := congrArg List.length h
  rw [List.length_take, List.length_take] at hlength
  have hdrop : ((Text.cut '\n' other).drop k).take (n - k) =
      ((Text.cut '\n' text).drop k).take (n - k) := by
    rw [← List.drop_take, ← List.drop_take, h]
  obtain ⟨ts', hts'⟩ := tagsFrom_head_congr hdrop hts (by omega)
  rw [next_suspended (by omega), hts']
  dsimp only
  rw [hline, Int.toNat_natCast]

/-- As long as the tags that are asked for stand in the lines in common, scanners of two texts rest
behind the same lines. -/
theorem afterRequests_common
    (h : (Text.cut '\n' other).take n = (Text.cut '\n' text).take n)
    {s : Scanner (Recorded TextStream)}
    (hnext : ((fresh g p text).afterRequests k).next = (.ok (some t), s)) (ht : t.line ≤ n) :
    ∃ m, m ≤ (Text.cut '\n' text).length ∧
      (fresh g p text).afterRequests k = suspended g p text m ∧
      (fresh g p other).afterRequests k = suspended g p other m := by
  induction k generalizing t s with
  | zero => exact ⟨0, Nat.zero_le _, suspended_zero.symm, suspended_zero.symm⟩
  | succ k ih =>
    obtain ⟨u, m, hm, hu, hrests⟩ | ⟨times, hrests⟩ := (rests_afterRequests k).next
    · have htext : (fresh g p text).afterRequests (k + 1) = suspended g p text m := by
        rw [afterRequests, hrests]
      rw [htext] at hnext
      obtain ⟨m', -, -, hline, hlt, -, -⟩ := next_suspended_of_tag hm hnext
      have hmn : m ≤ n := by omega
      obtain ⟨m₀, hm₀, htext₀, hother₀⟩ := ih hrests (by omega)
      rw [htext₀] at hrests
      refine ⟨m, hm, htext, ?_⟩
      rw [afterRequests, hother₀, next_suspended_congr h hm₀ hrests hmn]
    · rw [afterRequests, hrests, next_exhausted] at hnext
      cases hnext

/-- A scanner that has read the first `n` of these lines and nothing else. -/
structure ReadTo (lines : List Line) (n : Nat) (s : Scanner (Recorded TextStream)) : Prop where
  le_length : n ≤ lines.length
  reads : s.source.reads = lines.take n
  calls : s.source.reads.length = n
  lineNumber : s.lineNumber = n
  position : s.source.source.position = (lines.take n).flatten.length

/-- A scanner that has come to the end of a text with these lines. -/
structure ReadAll (lines : List Line) (s : Scanner (Recorded TextStream)) : Prop where
  reads : ∃ times, s.source.reads = lines ++ List.replicate times []
  lineNumber : s.lineNumber = lines.length
  position : s.source.source.position = lines.flatten.length

structure Alike (s s' : Scanner (Recorded TextStream)) : Prop where
  grammar : s'.grammar = s.grammar
  path : s'.path = s.path
  buffer : s'.buffer = s.buffer
  lineNumber : s'.lineNumber = s.lineNumber
  reads : s'.source.reads = s.source.reads
  before : s'.source.source.before = s.source.source.before

theorem readTo_suspended (hn : n ≤ (Text.cut '\n' text).length) :
    ReadTo (Text.cut '\n' text) n (suspended g p text n) where
  le_length := hn
  reads := rfl
  calls := List.length_take_of_le hn
  lineNumber := rfl
  position := List.length_reverse

theorem readAll_exhausted (times : Nat) :
    ReadAll (Text.cut '\n' text) (exhausted g p text times) where
  reads := ⟨times, rfl⟩
  lineNumber := rfl
  position := by
    rw [Text.flatten_cut]
    exact List.length_reverse

theorem alike_suspended {m : Nat}
    (h : (Text.cut '\n' other).take n = (Text.cut '\n' text).take n) (hm : m ≤ n) :
    Alike (suspended g p text m) (suspended g p other m) := by
  have htake : (Text.cut '\n' other).take m = (Text.cut '\n' text).take m := by
    rw [← Nat.min_eq_left hm, ← List.take_take, h, List.take_take]
  exact ⟨rfl, rfl, congrArg (held g) htake, rfl, htake, congrArg (·.flatten.reverse) htake⟩

/-- Whenever a scanner hands out a tag it has made as many reads as the number of the tag's line
says, and stands at the end of that line; and there it stands with any other text that begins with
the same lines. Keeping a record of the reads makes no difference to a scanner. -/
theorem afterRequests_reads_no_further (g : Grammar) (p : Path) (text : List Char) (k : Nat) :
    let lines := Text.cut '\n' text
    let s := (start g p (Recorded.start (TextStream.ofList text))).afterRequests k
    s.plain = (start g p (TextStream.ofList text)).afterRequests k ∧
      (∀ e, s.next.1 ≠ .error e) ∧
      (∀ t s', s.next = (.ok (some t), s') → ∃ n : Nat, t.line = n ∧ ReadTo lines n s') ∧
      (∀ s', s.next = (.ok none, s') → ReadAll lines s') ∧
      ∀ other n, (Text.cut '\n' other).take n = lines.take n →
        ∀ t s', s.next = (.ok (some t), s') → t.line ≤ (n : Nat) →
          ∃ u, ((start g p (Recorded.start (TextStream.ofList other))).afterRequests k).next =
            (.ok (some t), u) ∧ Alike s' u := by
  have hnext := (@rests_afterRequests g p text k).next
  refine ⟨afterRequests_plain _ k, fun e he => ?_, fun t s' hs => ?_, fun s' hs => ?_,
    fun other n hcommon t s' hs ht => ?_⟩
  · obtain ⟨t, n, -, -, hnext⟩ | ⟨times, hnext⟩ := hnext
    · exact absurd (he.symm.trans (congrArg Prod.fst hnext)) (by simp)
    · exact absurd (he.symm.trans (congrArg Prod.fst hnext)) (by simp)
  · obtain ⟨u, n, hn, hline, hnext⟩ | ⟨times, hnext⟩ := hnext
    · obtain ⟨ht, rfl⟩ := Prod.mk.inj (hs.symm.trans hnext)
      cases ht
      exact ⟨n, hline, readTo_suspended hn⟩
    · cases (Prod.mk.inj (hs.symm.trans hnext)).1
  · obtain ⟨t, n, -, -, hnext⟩ | ⟨times, hnext⟩ := hnext
    · cases (Prod.mk.inj (hs.symm.trans hnext)).1
    · obtain ⟨-, rfl⟩ := Prod.mk.inj (hs.symm.trans hnext)
      exact readAll_exhausted times
  · obtain ⟨m, hm, htext, hother⟩ := afterRequests_common hcommon hs ht
    rw [fresh] at htext hother
    rw [htext] at hs
    obtain ⟨m', -, -, hline, -, -, rfl⟩ := next_suspended_of_tag hm hs
    have hmn : m' ≤ n := by omega
    exact ⟨_, hother ▸ next_suspended_congr hcommon hm hs hmn, alike_suspended hcommon hmn⟩

end Scanner

end CommentTags

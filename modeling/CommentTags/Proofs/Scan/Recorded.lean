import CommentTags.Proofs.Scan.Collect

namespace CommentTags

variable {σ : Type} [LineSource σ]

structure Recorded (σ : Type) where
  source : σ
  reads : List Line

namespace Recorded

def start (source : σ) : Recorded σ := ⟨source, []⟩

def lines (r : Recorded σ) : List Line :=
  r.reads.filter (· ≠ [])

def readLine (r : Recorded σ) : Except ReadError Line × Recorded σ :=
  ((LineSource.readLine r.source).1,
    ⟨(LineSource.readLine r.source).2,
      r.reads ++ (LineSource.readLine r.source).1.toOption.toList⟩)

instance : LineSource (Recorded σ) where
  readLine := readLine
  remaining r := LineSource.remaining r.source
  remaining_lt r c line h := LineSource.remaining_lt r.source c line h

theorem readLine_eq (r : Recorded σ) :
    LineSource.readLine r =
      ((LineSource.readLine r.source).1,
        ⟨(LineSource.readLine r.source).2,
          r.reads ++ (LineSource.readLine r.source).1.toOption.toList⟩) := rfl

theorem lines_of_end {r r' : Recorded σ} (h : LineSource.readLine r = (.ok [], r')) :
    r'.lines = r.lines := by
  obtain ⟨hanswer, rfl⟩ := Prod.mk.inj (readLine_eq r ▸ h)
  rw [hanswer, lines, lines, List.filter_append]
  exact List.append_nil _

theorem lines_of_line {r r' : Recorded σ} {c : Char} {line : Line}
    (h : LineSource.readLine r = (.ok (c :: line), r')) : r'.lines = r.lines ++ [c :: line] := by
  obtain ⟨hanswer, rfl⟩ := Prod.mk.inj (readLine_eq r ▸ h)
  rw [hanswer, lines, lines, List.filter_append]
  rfl

theorem lines_of_reads {r r' : Recorded σ} {lines : List Line} (h : Reads r lines none r') :
    r'.lines = r.lines ++ lines := by
  generalize hnone : (none : Option ReadError) = failure at h
  induction h with
  | done h => rw [lines_of_end h, List.append_nil]
  | failed => cases hnone
  | line h _ ih => rw [ih hnone, lines_of_line h, List.append_assoc, List.singleton_append]

theorem reads_of_reads {s t : σ} {lines : List Line} (h : Reads s lines none t)
    (reads : List Line) :
    Reads (⟨s, reads⟩ : Recorded σ) lines none ⟨t, reads ++ (lines ++ [[]])⟩ := by
  generalize hnone : (none : Option ReadError) = failure at h
  induction h generalizing reads with
  | @done s t h =>
    have hread := readLine_eq (⟨s, reads⟩ : Recorded σ)
    rw [h] at hread
    exact .done hread
  | failed => cases hnone
  | @line s t u c line lines failure h _ ih =>
    have hread := readLine_eq (⟨s, reads⟩ : Recorded σ)
    rw [h] at hread
    have hrest := ih (reads ++ [c :: line]) hnone
    rw [List.append_assoc] at hrest
    subst hnone
    exact .line hread hrest

end Recorded

namespace Scanner

def plain (s : Scanner (Recorded σ)) : Scanner σ :=
  { s with source := s.source.source }

omit [LineSource σ] in
theorem found?_plain (s : Scanner (Recorded σ)) : s.plain.found? = s.found? := rfl

theorem readLine_plain {s : Scanner (Recorded σ)} {r : Recorded σ}
    {answer : Except ReadError Line} (h : LineSource.readLine s.source = (answer, r)) :
    LineSource.readLine s.plain.source = (answer, r.source) := by
  obtain ⟨rfl, rfl⟩ := Prod.mk.inj (Recorded.readLine_eq s.source ▸ h)
  rfl

theorem nextTestFirst_plain (s : Scanner (Recorded σ)) :
    s.plain.nextTestFirst = (s.nextTestFirst.1, s.nextTestFirst.2.plain) := by
  fun_induction nextTestFirst s with
  | case1 s t h =>
    rw [nextTestFirst_eq, found?_plain, h]
    rfl
  | case2 s h e r hr =>
    rw [nextTestFirst_eq, found?_plain, h, readLine_plain hr]
    rfl
  | case3 s h r hr =>
    rw [nextTestFirst_eq, found?_plain, h, readLine_plain hr]
    rfl
  | case4 s h c line r hr ih =>
    rw [nextTestFirst_eq, found?_plain, h, readLine_plain hr]
    exact ih

theorem nextReadFirst_plain (s : Scanner (Recorded σ)) :
    s.plain.nextReadFirst = (s.nextReadFirst.1, s.nextReadFirst.2.plain) := by
  fun_induction nextReadFirst s with
  | case1 s e r hr =>
    rw [nextReadFirst_eq, readLine_plain hr]
    rfl
  | case2 s r hr =>
    rw [nextReadFirst_eq, readLine_plain hr]
    rfl
  | case3 s c line r hr t h =>
    have hfound : (s.plain.load r.source (c :: line)).found? = some t := h
    rw [nextReadFirst_eq, readLine_plain hr]
    dsimp only
    rw [hfound]
    rfl
  | case4 s c line r hr h ih =>
    have hfound : (s.plain.load r.source (c :: line)).found? = none := h
    rw [nextReadFirst_eq, readLine_plain hr]
    dsimp only
    rw [hfound]
    exact ih

theorem next_plain (s : Scanner (Recorded σ)) : s.plain.next = (s.next.1, s.next.2.plain) := by
  cases hg : s.grammar with
  | rust => rw [next_of_rust hg, next_of_rust (s := s.plain) hg, nextTestFirst_plain]
  | cLike => rw [next_of_cLike hg, next_of_cLike (s := s.plain) hg, nextReadFirst_plain]

theorem collect_plain (s : Scanner (Recorded σ)) :
    s.plain.collect = (s.collect.1, s.collect.2.1, s.collect.2.2.plain) := by
  fun_induction collect s with
  | case1 s e s' h => rw [collect_eq, next_plain, h]
  | case2 s s' h => rw [collect_eq, next_plain, h]
  | case3 s t s' h tags failure hrest ih =>
    rw [collect_eq, next_plain, h]
    dsimp only
    rw [ih, hrest]

end Scanner

end CommentTags

import CommentTags.Proofs.Files.Edit

namespace CommentTags.Path

variable {s w : List Char} {p : Path} {name : String} {names : List String}

theorem splitSlashes_cons (c : Char) (hc : c ≠ '/') {pieces : List (List Char)} {piece : List Char}
    (h : splitSlashes s = piece :: pieces) :
    splitSlashes (c :: s) = (c :: piece) :: pieces := by
  rw [splitSlashes, if_neg hc, h]

theorem splitSlashes_of_not_mem (h : '/' ∉ s) : splitSlashes s = [s] := by
  induction s with
  | nil => rfl
  | cons c s ih =>
    rw [List.mem_cons, not_or] at h
    obtain ⟨hc, hs⟩ := h
    exact splitSlashes_cons c (Ne.symm hc) (ih hs)

theorem splitSlashes_ne_nil (s : List Char) : splitSlashes s ≠ [] := by
  cases s with
  | nil => exact List.cons_ne_nil _ _
  | cons c s =>
    rw [splitSlashes]
    split
    · exact List.cons_ne_nil _ _
    · split <;> exact List.cons_ne_nil _ _

theorem splitSlashes_append (s w : List Char) :
    splitSlashes (s ++ '/' :: w) = splitSlashes s ++ splitSlashes w := by
  induction s with
  | nil => rfl
  | cons c s ih =>
    by_cases hc : c = '/'
    · rw [hc, List.cons_append, splitSlashes, if_pos rfl, splitSlashes, if_pos rfl, ih,
        List.cons_append]
    · obtain ⟨piece, pieces, hs⟩ := List.exists_cons_of_ne_nil (splitSlashes_ne_nil s)
      rw [hs, List.cons_append] at ih
      rw [List.cons_append, splitSlashes_cons c hc ih, splitSlashes_cons c hc hs, List.cons_append]

theorem splitSlashes_intercalate {pieces : List (List Char)} (hne : pieces ≠ [])
    (h : ∀ piece ∈ pieces, '/' ∉ piece) : splitSlashes (['/'].intercalate pieces) = pieces := by
  induction pieces with
  | nil => exact absurd rfl hne
  | cons piece pieces ih =>
    obtain ⟨hpiece, hpieces⟩ := List.forall_mem_cons.mp h
    cases pieces with
    | nil => rw [List.intercalate_singleton, splitSlashes_of_not_mem hpiece]
    | cons next pieces =>
      rw [List.intercalate_cons_cons, List.append_assoc, List.singleton_append,
        splitSlashes_append, splitSlashes_of_not_mem hpiece,
        ih (List.cons_ne_nil _ _) hpieces, List.singleton_append]

theorem mem_of_mem_splitSlashes {piece : List Char} {c : Char} (h : piece ∈ splitSlashes s)
    (hc : c ∈ piece) : c ∈ s := by
  induction s generalizing piece with
  | nil =>
    rw [List.mem_singleton.mp h] at hc
    cases hc
  | cons d s ih =>
    rw [splitSlashes] at h
    split at h
    · obtain rfl | h := List.mem_cons.mp h
      · cases hc
      · exact List.mem_cons_of_mem d (ih h hc)
    · obtain ⟨first, pieces, hsplit⟩ := List.exists_cons_of_ne_nil (splitSlashes_ne_nil s)
      rw [hsplit] at h ih
      obtain rfl | h := List.mem_cons.mp h
      · obtain rfl | hc := List.mem_cons.mp hc
        · exact List.mem_cons_self
        · exact List.mem_cons_of_mem d (ih List.mem_cons_self hc)
      · exact List.mem_cons_of_mem d (ih (List.mem_cons_of_mem _ h) hc)

theorem mem_of_mem_namesOf {name : String} {c : Char} (h : name ∈ namesOf s)
    (hc : c ∈ name.toList) : c ∈ s := by
  obtain ⟨piece, hpiece, rfl⟩ := List.mem_map.mp h
  rw [String.toList_ofList] at hc
  exact mem_of_mem_splitSlashes ((List.mem_filter.mp hpiece).1) hc

theorem namesOf_append_slash (s w : List Char) :
    namesOf (s ++ '/' :: w) = namesOf s ++ namesOf w := by
  rw [namesOf, splitSlashes_append, List.filter_append, List.map_append]
  rfl

theorem namesOf_slash (s : List Char) : namesOf ('/' :: s) = namesOf s :=
  namesOf_append_slash [] s

def joined (names : List String) : List Char :=
  ['/'].intercalate (names.map String.toList)

theorem joined_cons_cons (name next : String) (names : List String) :
    joined (name :: next :: names) = name.toList ++ '/' :: joined (next :: names) := by
  rw [joined, List.map_cons, List.map_cons, List.intercalate_cons_cons, List.append_assoc]
  rfl

theorem splitSlashes_joined (hne : names ≠ []) (h : ∀ name ∈ names, IsComponent name) :
    splitSlashes (joined names) = names.map String.toList := by
  refine splitSlashes_intercalate (mt List.map_eq_nil_iff.mp hne) fun piece hpiece => ?_
  obtain ⟨n, hn, rfl⟩ := List.mem_map.mp hpiece
  exact (h n hn).slash_not_mem

theorem namesOf_joined (h : ∀ name ∈ names, IsComponent name ∧ name ≠ ".") :
    namesOf (joined names) = names := by
  cases names with
  | nil => rfl
  | cons name rest =>
    rw [namesOf, splitSlashes_joined (List.cons_ne_nil _ _) fun n hn => (h n hn).1,
      List.filter_eq_self.mpr, List.map_map]
    · exact (List.map_congr_left fun n _ => String.ofList_toList).trans (List.map_id _)
    · intro piece hpiece
      obtain ⟨n, hn, rfl⟩ := List.mem_map.mp hpiece
      obtain ⟨hcomponent, hdot⟩ := h n hn
      refine decide_eq_true ⟨fun hnil => hcomponent.ne_empty ?_, fun heq => hdot ?_⟩
      · exact String.toList_injective hnil
      · exact String.toList_injective heq

theorem head?_joined (h : ∀ name ∈ names, IsComponent name) : (joined names).head? ≠ some '/' := by
  cases names with
  | nil => exact fun h => by cases h
  | cons name rest =>
    have hname := h name List.mem_cons_self
    obtain ⟨c, s, hcs⟩ : ∃ c s, name.toList = c :: s := by
      refine List.exists_cons_of_ne_nil fun hnil => hname.ne_empty ?_
      exact String.toList_injective hnil
    have hhead : (joined (name :: rest)).head? = some c := by
      cases rest with
      | nil => rw [joined, List.map_singleton, List.intercalate_singleton, hcs]; rfl
      | cons next rest => rw [joined_cons_cons, hcs]; rfl
    rw [hhead]
    intro hc
    refine hname.slash_not_mem ?_
    rw [hcs, Option.some.inj hc]
    exact List.mem_cons_self

theorem anchorOf_append (anchor : Anchor) (h : s.head? ≠ some '/') :
    anchorOf ((anchorText anchor).toList ++ s) = anchor := by
  cases s with
  | nil => cases anchor <;> rfl
  | cons c s =>
    have hc : c ≠ '/' := fun hc => h (congrArg some hc)
    cases anchor <;> simp [anchorText, anchorOf, hc]

theorem namesOf_append (anchor : Anchor) (s : List Char) :
    namesOf ((anchorText anchor).toList ++ s) = namesOf s := by
  cases anchor with
  | here => rfl
  | root => exact namesOf_slash s
  | doubleRoot => exact (namesOf_slash ('/' :: s)).trans (namesOf_slash s)

theorem toList_toString (h : ¬ (p.anchor = .here ∧ p.names = [])) :
    p.toString.toList = (anchorText p.anchor).toList ++ joined p.names := by
  rw [toString, if_neg h, String.toList_append, String.toList_intercalate]
  rfl

theorem ofString_toString (h : p.Normal) : ofString p.toString = p := by
  by_cases hempty : p.anchor = .here ∧ p.names = []
  · obtain ⟨anchor, names⟩ := p
    obtain ⟨rfl, rfl⟩ := hempty
    rfl
  · have hhead := head?_joined fun name hname => (h name hname).1
    rw [ofString, toList_toString hempty, anchorOf_append _ hhead, namesOf_append, namesOf_joined h]

theorem toString_injective {q : Path} (hp : p.Normal) (hq : q.Normal)
    (h : p.toString = q.toString) : p = q := by
  rw [← ofString_toString hp, h, ofString_toString hq]

theorem exists_joined_append (before : List String) :
    ∃ s, ∀ names, names ≠ [] → joined (before ++ names) = s ++ joined names := by
  induction before with
  | nil => exact ⟨[], fun _ _ => rfl⟩
  | cons name before ih =>
    obtain ⟨s, hs⟩ := ih
    refine ⟨name.toList ++ '/' :: s, fun names hne => ?_⟩
    obtain ⟨next, rest, hrest⟩ :=
      List.exists_cons_of_ne_nil (List.append_ne_nil_of_right_ne_nil before hne)
    rw [List.cons_append, hrest, joined_cons_cons, ← hrest, hs names hne, List.append_assoc]
    rfl

theorem toString_below_injective {names' : List String} (hne : names ≠ []) (hne' : names' ≠ [])
    (h : ∀ name ∈ names, IsName name) (h' : ∀ name ∈ names', IsName name)
    (heq : (p.below names).toString = (p.below names').toString) : names = names' := by
  have hlist : ∀ {more}, more ≠ [] → (p.below more).toString.toList =
      (anchorText p.anchor).toList ++ joined (p.names ++ more) := fun hmore =>
    toList_toString fun hempty => hmore (List.append_eq_nil_iff.mp hempty.2).2
  obtain ⟨s, hs⟩ := exists_joined_append p.names
  have hjoined := congrArg String.toList heq
  rw [hlist hne, hlist hne', hs names hne, hs names' hne'] at hjoined
  have hsame := congrArg namesOf (List.append_cancel_left (List.append_cancel_left hjoined))
  rwa [namesOf_joined fun n hn => ⟨(h n hn).toIsComponent, (h n hn).ne_dot⟩,
    namesOf_joined fun n hn => ⟨(h' n hn).toIsComponent, (h' n hn).ne_dot⟩] at hsame

theorem toList_toString_ne (h : p.Normal) (rest : List Char) :
    p.toString.toList ≠ '.' :: '/' :: rest := by
  intro heq
  by_cases hempty : p.anchor = .here ∧ p.names = []
  · rw [toString, if_pos hempty] at heq
    cases (List.cons.inj heq).2
  · rw [toList_toString hempty] at heq
    cases hanchor : p.anchor with
    | here =>
      rw [hanchor] at heq
      have hnames : p.names ≠ [] := fun hnil => hempty ⟨hanchor, hnil⟩
      have hsplit : p.names.map String.toList = ['.'] :: splitSlashes rest :=
        (splitSlashes_joined hnames fun n hn => (h n hn).1).symm.trans
          ((congrArg splitSlashes heq).trans (splitSlashes_append ['.'] rest))
      obtain ⟨n, ns, hp, hn, -⟩ := List.map_eq_cons_iff.mp hsplit
      exact (h n (hp ▸ List.mem_cons_self)).2 (String.toList_injective hn)
    | root =>
      rw [hanchor] at heq
      exact absurd (List.cons.inj heq).1 (by decide)
    | doubleRoot =>
      rw [hanchor] at heq
      exact absurd (List.cons.inj heq).1 (by decide)

theorem withoutLeadingDot_toString (h : p.Normal) : withoutLeadingDot p.toString = p.toString := by
  unfold withoutLeadingDot
  split
  · rename_i rest heq
    exact absurd heq (toList_toString_ne h rest)
  · rfl

theorem normal_of_isName (anchor : Anchor) (h : ∀ name ∈ names, IsName name) :
    (Path.mk anchor names).Normal :=
  fun name hname => ⟨(h name hname).toIsComponent, (h name hname).ne_dot⟩

end CommentTags.Path

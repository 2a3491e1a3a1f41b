import CommentTags.Files.Walk
import Mathlib

-- All of Mathlib, because `cbv`, by which the modules from here on evaluate trees and searches, makes
-- use of every equation that is in scope.

namespace CommentTags

/-- A part of a path between slashes. -/
structure IsComponent (name : String) : Prop where
  ne_empty : name ≠ ""
  slash_not_mem : '/' ∉ name.toList

structure IsName (name : String) : Prop extends IsComponent name where
  ne_dot : name ≠ "."
  ne_dotdot : name ≠ ".."

/-- A name that an entry of a directory can have. -/
structure IsEntryName (name : String) : Prop extends IsName name where
  noNul : hasNul name = false
  short : isTooLong name = false

namespace Path

def below (p : Path) (names : List String) : Path := { p with names := p.names ++ names }

@[simp] theorem below_nil (p : Path) : p.below [] = p :=
  congrArg (Path.mk p.anchor) (List.append_nil _)

theorem below_cons (p : Path) (name : String) (names : List String) :
    p.below (name :: names) = (p.child name).below names := by
  rw [below, below, child, List.append_assoc, List.singleton_append]

theorem below_injective (p : Path) : Function.Injective p.below := fun _ _ h =>
  List.append_cancel_left (congrArg Path.names h)

end Path

/-- A tree as a file system can hold it. The entries of a directory have different names, in
whatever order it lists them. -/
inductive Node.WellFormed : Node → Prop
  | file (content : List UInt8) : WellFormed (.file content)
  | link {target : String} (noNul : hasNul target = false) : WellFormed (.link target)
  | dir {entries : List (String × Node)} {info : DirInfo}
    (nodup : (entries.map Prod.fst).Nodup) (names : ∀ e ∈ entries, IsEntryName e.1)
    (nodes : ∀ e ∈ entries, WellFormed e.2) : WellFormed (.dir entries info)

theorem isName_iff {name : String} :
    IsName name ↔ name ≠ "" ∧ '/' ∉ name.toList ∧ name ≠ "." ∧ name ≠ ".." :=
  ⟨fun ⟨⟨h1, h2⟩, h3, h4⟩ => ⟨h1, h2, h3, h4⟩, fun ⟨h1, h2, h3, h4⟩ => ⟨⟨h1, h2⟩, h3, h4⟩⟩

instance (name : String) : Decidable (IsName name) :=
  decidable_of_iff _ isName_iff.symm

theorem isEntryName_iff {name : String} :
    IsEntryName name ↔ IsName name ∧ hasNul name = false ∧ isTooLong name = false :=
  ⟨fun ⟨h1, h2, h3⟩ => ⟨h1, h2, h3⟩, fun ⟨h1, h2, h3⟩ => ⟨h1, h2, h3⟩⟩

instance (name : String) : Decidable (IsEntryName name) :=
  decidable_of_iff _ isEntryName_iff.symm

namespace Node

mutual

def check : Node → Bool
  | file _ => true
  | link target => !hasNul target
  | dir entries _ => decide (entries.map Prod.fst).Nodup && checks entries

def checks : List (String × Node) → Bool
  | [] => true
  | (name, n) :: rest => decide (IsEntryName name) && check n && checks rest

end

mutual

theorem check_iff : (n : Node) → (n.check = true ↔ n.WellFormed)
  | file content => ⟨fun _ => .file content, fun _ => rfl⟩
  | link target => by
    rw [check, Bool.not_eq_true']
    exact ⟨.link, fun (.link h) => h⟩
  | dir entries info => by
    rw [check, Bool.and_eq_true, decide_eq_true_eq, checks_iff entries]
    constructor
    · rintro ⟨hnodup, h⟩
      exact .dir hnodup (fun e he => (h e he).1) fun e he => (h e he).2
    · rintro (_ | _ | ⟨hnodup, hnames, hnodes⟩)
      exact ⟨hnodup, fun e he => ⟨hnames e he, hnodes e he⟩⟩

theorem checks_iff : (entries : List (String × Node)) →
    (checks entries = true ↔ ∀ e ∈ entries, IsEntryName e.1 ∧ e.2.WellFormed)
  | [] => ⟨fun _ e he => absurd he List.not_mem_nil, fun _ => rfl⟩
  | (name, n) :: rest => by
    rw [checks, Bool.and_eq_true, Bool.and_eq_true, decide_eq_true_eq, check_iff n,
      checks_iff rest, List.forall_mem_cons]

end

instance (n : Node) : Decidable n.WellFormed :=
  decidable_of_iff _ n.check_iff

end Node

namespace Node.WellFormed

variable {entries : List (String × Node)} {info : DirInfo} {e : String × Node}

theorem nodup_names (h : (Node.dir entries info).WellFormed) : (entries.map Prod.fst).Nodup := by
  cases h with
  | dir nodup _ _ => exact nodup

theorem isEntryName_of_mem (h : (Node.dir entries info).WellFormed) (he : e ∈ entries) :
    IsEntryName e.1 := by
  cases h with
  | dir _ names _ => exact names e he

theorem of_mem (h : (Node.dir entries info).WellFormed) (he : e ∈ entries) : e.2.WellFormed := by
  cases h with
  | dir _ _ nodes => exact nodes e he

end Node.WellFormed

theorem Node.lookup_of_mem {entries : List (String × Node)} {e : String × Node}
    (h : (entries.map Prod.fst).Nodup) (he : e ∈ entries) : entries.lookup e.1 = some e.2 := by
  induction entries with
  | nil => cases he
  | cons a entries ih =>
    rw [List.map_cons, List.nodup_cons] at h
    obtain rfl | he := List.mem_cons.mp he
    · rw [lookup_cons_eq, if_pos rfl]
    · have hne : e.1 ≠ a.1 := by
        intro heq
        exact h.1 (heq ▸ List.mem_map_of_mem he)
      rw [lookup_cons_eq, if_neg hne, ih h.2 he]

theorem mem_of_lookup {α β : Type} [BEq α] [LawfulBEq α] {l : List (α × β)} {a : α} {b : β}
    (h : l.lookup a = some b) : (a, b) ∈ l := by
  obtain ⟨l₁, l₂, rfl, -⟩ := List.lookup_eq_some_iff.mp h
  exact List.mem_append_right l₁ List.mem_cons_self

theorem Node.isLink_eq_false {n : Node} (h : ∀ target, n = .link target → False) :
    n.isLink = false := by
  cases n with
  | link target => exact absurd rfl (h target)
  | file content => rfl
  | dir entries info => rfl

theorem Node.child?_eq_some {n m : Node} {name : String} (h : n.child? name = some m) :
    ∃ entries info, n = .dir entries info ∧ entries.lookup name = some m := by
  cases n with
  | dir entries info => exact ⟨entries, info, rfl, h⟩
  | file content => cases h
  | link target => cases h

theorem Node.reach?_cons_eq_some_iff {n m : Node} {name : String} {loc : Location} :
    n.reach? (name :: loc) = some m ↔
      n.info.searchable = true ∧
        ∃ child, n.child? name = some child ∧ child.reach? loc = some m := by
  rw [reach?, Option.ite_none_right_eq_some, Option.bind_eq_some_iff]

theorem Node.reach?_dir_cons (entries : List (String × Node)) (info : DirInfo) (name : String)
    (loc : Location) :
    (Node.dir entries info).reach? (name :: loc) =
      if info.searchable then (entries.lookup name).bind (Node.reach? · loc) else none := rfl

theorem Node.reach?_append (n : Node) (loc loc' : Location) :
    n.reach? (loc ++ loc') = (n.reach? loc).bind fun m => m.reach? loc' := by
  induction loc generalizing n with
  | nil => rfl
  | cons name loc ih =>
    rw [List.cons_append, reach?, reach?]
    split
    · cases n.child? name with
      | none => rfl
      | some m => exact ih m
    · rfl

theorem Node.get?_of_reach? {n m : Node} {loc : Location} (h : n.reach? loc = some m) :
    n.get? loc = some m := by
  induction loc generalizing n with
  | nil => exact h
  | cons name loc ih =>
    obtain ⟨-, child, hchild, h⟩ := reach?_cons_eq_some_iff.mp h
    rw [get?, hchild]
    exact ih h

theorem Node.WellFormed.get? {n m : Node} {loc : Location} (h : n.WellFormed)
    (hm : n.get? loc = some m) : m.WellFormed ∧ ∀ name ∈ loc, IsEntryName name := by
  induction loc generalizing n with
  | nil => exact ⟨Option.some.inj hm ▸ h, List.forall_mem_nil _⟩
  | cons name loc ih =>
    rw [Node.get?, Option.bind_eq_some_iff] at hm
    obtain ⟨child, hchild, hm⟩ := hm
    obtain ⟨entries, info, rfl, hmem⟩ := Node.child?_eq_some hchild
    have hmem := mem_of_lookup hmem
    obtain ⟨hwf, hnames⟩ := ih (h.of_mem hmem) hm
    exact ⟨hwf, List.forall_mem_cons.mpr ⟨h.isEntryName_of_mem hmem, hnames⟩⟩

theorem Node.WellFormed.reach? {n m : Node} {loc : Location} (h : n.WellFormed)
    (hm : n.reach? loc = some m) : m.WellFormed :=
  (h.get? (get?_of_reach? hm)).1

theorem Node.WellFormed.isEntryName_of_reach? {n m : Node} {loc : Location} (h : n.WellFormed)
    (hm : n.reach? loc = some m) : ∀ name ∈ loc, IsEntryName name :=
  (h.get? (get?_of_reach? hm)).2

namespace FileSystem

variable (fs : FileSystem) {follow : Bool} {links : Nat} {loc loc' : Location}
  {names : List String} {entries : List (String × Node)} {info : DirInfo} {name : String}
  {node : Node}

theorem lookupFrom_nil (hn : fs.root.reach? loc = some node) :
    fs.lookupFrom follow links loc [] = .ok (loc, node) := by
  rw [lookupFrom, hn]

theorem lookupFrom_of_unsearchable (hd : fs.root.reach? loc = some (.dir entries info))
    (hs : info.searchable = false) :
    fs.lookupFrom follow links loc (name :: names) = .error .denied := by
  rw [lookupFrom, hd]
  simp only [hs, Bool.not_false, if_true]

theorem lookupFrom_dot (hd : fs.root.reach? loc = some (.dir entries info))
    (hs : info.searchable = true) :
    fs.lookupFrom follow links loc ("." :: names) = fs.lookupFrom follow links loc names := by
  rw [lookupFrom, hd]
  simp only [hs, Bool.not_true, Bool.false_eq_true, if_false, if_true]

theorem lookupFrom_dotdot (hd : fs.root.reach? loc = some (.dir entries info))
    (hs : info.searchable = true) :
    fs.lookupFrom follow links loc (".." :: names) =
      fs.lookupFrom follow links loc.dropLast names := by
  have hne : ".." ≠ "." := by decide
  rw [lookupFrom, hd]
  simp only [hs, Bool.not_true, Bool.false_eq_true, hne, if_false, if_true]

theorem lookupFrom_none (hd : fs.root.reach? loc = some (.dir entries info))
    (hs : info.searchable = true) (h1 : name ≠ ".") (h2 : name ≠ "..")
    (he : entries.lookup name = none) :
    fs.lookupFrom follow links loc (name :: names) =
      .error (if isTooLong name then .nameTooLong else .missing) := by
  rw [lookupFrom, hd]
  simp only [hs, Bool.not_true, Bool.false_eq_true, h1, h2, if_false, he]

theorem lookupFrom_link {target : String} (hd : fs.root.reach? loc = some (.dir entries info))
    (hs : info.searchable = true) (h1 : name ≠ ".") (h2 : name ≠ "..")
    (he : entries.lookup name = some (.link target)) (hn : ¬ (names = [] ∧ (!follow) = true)) :
    fs.lookupFrom follow (links + 1) loc (name :: names) =
      fs.lookupFrom follow links (linkStart target loc) (linkNames target ++ names) := by
  rw [lookupFrom, hd]
  simp only [hs, Bool.not_true, Bool.false_eq_true, h1, h2, if_false, he, hn]

theorem lookupFrom_last_link {target : String}
    (hd : fs.root.reach? loc = some (.dir entries info)) (hs : info.searchable = true)
    (h1 : name ≠ ".") (h2 : name ≠ "..") (he : entries.lookup name = some (.link target)) :
    fs.lookupFrom false links loc [name] = .ok (loc ++ [name], .link target) := by
  rw [lookupFrom, hd]
  simp only [hs, Bool.not_true, Bool.false_eq_true, h1, h2, if_false, he, Bool.not_false,
    and_self, if_true]

theorem lookupFrom_entry (hd : fs.root.reach? loc = some (.dir entries info))
    (hs : info.searchable = true) (h1 : name ≠ ".") (h2 : name ≠ "..")
    (he : entries.lookup name = some node) (hl : node.isLink = false) :
    fs.lookupFrom follow links loc (name :: names) =
      fs.lookupFrom follow links (loc ++ [name]) names := by
  rw [lookupFrom, hd]
  cases node with
  | link target => cases hl
  | file content =>
    simp only [hs, Bool.not_true, Bool.false_eq_true, h1, h2, if_false, he]
  | dir entries' info' =>
    simp only [hs, Bool.not_true, Bool.false_eq_true, h1, h2, if_false, he]

variable {fs} in
theorem lookupFrom_reach? (h : fs.lookupFrom true links loc names = .ok (loc', node)) :
    fs.root.reach? loc' = some node := by
  fun_induction lookupFrom fs true links loc names with
  | case1 links loc n hd =>
    obtain ⟨rfl, rfl⟩ := Prod.mk.inj (Except.ok.inj h)
    exact hd
  | case7 => rename_i ih; exact ih h
  | case8 => rename_i ih; exact ih h
  | case10 => rename_i hn; exact absurd hn.2 (by decide)
  | case12 => rename_i ih; exact ih h
  | case13 => rename_i ih; exact ih h
  | _ => cases h

theorem searchable_of_not {info : DirInfo} (h : ¬ (!info.searchable) = true) :
    info.searchable = true := by
  simpa using h

theorem lookupFrom_append (h : fs.lookupFrom true links loc names = .ok (loc', node)) :
    ∃ links', ∀ (follow : Bool) (more : List String), more ≠ [] →
      fs.lookupFrom follow links loc (names ++ more) = fs.lookupFrom follow links' loc' more := by
  fun_induction lookupFrom fs true links loc names with
  | case1 links loc n hd =>
    cases h
    exact ⟨links, fun _ _ _ => rfl⟩
  | case7 links loc names es info hd hs ih =>
    obtain ⟨links', hrest⟩ := ih h
    refine ⟨links', fun follow more hmore => ?_⟩
    rw [List.cons_append, lookupFrom_dot fs hd (searchable_of_not hs), hrest follow more hmore]
  | case8 links loc names es info hd hs _ ih =>
    obtain ⟨links', hrest⟩ := ih h
    refine ⟨links', fun follow more hmore => ?_⟩
    rw [List.cons_append, lookupFrom_dotdot fs hd (searchable_of_not hs), hrest follow more hmore]
  | case10 => rename_i hn; exact absurd hn.2 (by decide)
  | case12 loc name names es info hd hs h1 h2 target he _ links ih =>
    obtain ⟨links', hrest⟩ := ih h
    refine ⟨links', fun follow more hmore => ?_⟩
    have hn : ¬ (names ++ more = [] ∧ (!follow) = true) :=
      fun hn => hmore (List.append_eq_nil_iff.mp hn.1).2
    rw [List.cons_append, lookupFrom_link fs hd (searchable_of_not hs) h1 h2 he hn,
      ← List.append_assoc, hrest follow more hmore]
  | case13 links loc name names es info hd hs h1 h2 n hl he ih =>
    obtain ⟨links', hrest⟩ := ih h
    refine ⟨links', fun follow more hmore => ?_⟩
    rw [List.cons_append, lookupFrom_entry fs hd (searchable_of_not hs) h1 h2 he
      (Node.isLink_eq_false hl), hrest follow more hmore]
  | _ => cases h

theorem reach?_concat (hd : fs.root.reach? loc = some (.dir entries info))
    (hs : info.searchable = true) : fs.root.reach? (loc ++ [name]) = entries.lookup name := by
  rw [Node.reach?_append, hd, Option.bind_some, Node.reach?]
  exact (if_pos hs).trans (Option.bind_fun_some _)

theorem reach?_concat_of_unsearchable (hd : fs.root.reach? loc = some (.dir entries info))
    (hs : info.searchable = false) : fs.root.reach? (loc ++ [name]) = none := by
  rw [Node.reach?_append, hd, Option.bind_some, Node.reach?]
  exact if_neg (Bool.eq_false_iff.mp hs)

theorem lookupFrom_singleton (hd : fs.root.reach? loc = some (.dir entries info))
    (hs : info.searchable = true) (h1 : name ≠ ".") (h2 : name ≠ "..")
    (he : entries.lookup name = some node) (hlink : node.isLink = true → follow = false) :
    fs.lookupFrom follow links loc [name] = .ok (loc ++ [name], node) := by
  by_cases hl : node.isLink = true
  · rw [hlink hl]
    cases node with
    | link target => exact lookupFrom_last_link fs hd hs h1 h2 he
    | file content => cases hl
    | dir entries' info' => cases hl
  · rw [lookupFrom_entry fs hd hs h1 h2 he (Bool.eq_false_iff.mpr hl)]
    exact lookupFrom_nil fs ((reach?_concat fs hd hs).trans he)

variable {fs} {p : Path}

theorem hasNul_child (p : Path) (name : String) :
    (p.child name).hasNul = (p.hasNul || hasNul name) := by
  rw [Path.hasNul, Path.child, List.any_append, List.any_cons, List.any_nil, Bool.or_false,
    Path.hasNul]

theorem lookup_eq_ok_iff {found : Location × Node} :
    fs.lookup follow p = .ok found ↔
      p.hasNul = false ∧ fs.lookupFrom follow maxLinks (fs.start p) p.names = .ok found := by
  rw [lookup]
  cases p.hasNul with
  | true => exact ⟨fun h => (by cases h), fun h => absurd h.1 (by decide)⟩
  | false => exact (and_iff_right rfl).symm

theorem exists_lookup_child (h : fs.lookup true p = .ok (loc, node)) (hname : IsEntryName name) :
    ∃ links, ∀ follow, fs.lookup follow (p.child name) = fs.lookupFrom follow links loc [name] := by
  obtain ⟨hnul, hlookup⟩ := lookup_eq_ok_iff.mp h
  obtain ⟨links, hrest⟩ := fs.lookupFrom_append hlookup
  have hchild : (p.child name).hasNul = false := by
    rw [hasNul_child, hnul, hname.noNul]
    rfl
  refine ⟨links, fun follow => ?_⟩
  rw [lookup, hchild]
  exact hrest follow [name] (List.cons_ne_nil _ _)

theorem lookup_reach? (h : fs.lookup true p = .ok (loc, node)) : fs.root.reach? loc = some node :=
  lookupFrom_reach? (lookup_eq_ok_iff.mp h).2

theorem lookup_child (h : fs.lookup true p = .ok (loc, .dir entries info))
    (hs : info.searchable = true) (hname : IsEntryName name) (he : entries.lookup name = some node)
    (hlink : node.isLink = true → follow = false) :
    fs.lookup follow (p.child name) = .ok (loc ++ [name], node) := by
  obtain ⟨links, hchild⟩ := exists_lookup_child h hname
  rw [hchild]
  exact lookupFrom_singleton fs (lookup_reach? h) hs hname.ne_dot hname.ne_dotdot he hlink

theorem lookup_child_of_none (h : fs.lookup true p = .ok (loc, .dir entries info))
    (hs : info.searchable = true) (hname : IsEntryName name) (he : entries.lookup name = none) :
    fs.lookup follow (p.child name) = .error .missing := by
  obtain ⟨links, hchild⟩ := exists_lookup_child h hname
  rw [hchild, lookupFrom_none fs (lookup_reach? h) hs hname.ne_dot hname.ne_dotdot he, hname.short]
  rfl

theorem lookup_child_of_unsearchable (h : fs.lookup true p = .ok (loc, .dir entries info))
    (hs : info.searchable = false) (hname : IsEntryName name) :
    fs.lookup follow (p.child name) = .error .denied := by
  obtain ⟨links, hchild⟩ := exists_lookup_child h hname
  rw [hchild, lookupFrom_of_unsearchable fs (lookup_reach? h) hs]

theorem isLink_child (h : fs.lookup true p = .ok (loc, .dir entries info))
    (hs : info.searchable = true) (hname : IsEntryName name)
    (he : entries.lookup name = some node) : fs.isLink (p.child name) = node.isLink := by
  rw [isLink, nodeItself?, lookup_child h hs hname he fun _ => rfl]
  rfl

theorem node?_child (h : fs.lookup true p = .ok (loc, .dir entries info))
    (hs : info.searchable = true) (hname : IsEntryName name)
    (he : entries.lookup name = some node) (hlink : node.isLink = false) :
    fs.node? (p.child name) = some node := by
  rw [node?, lookup_child h hs hname he fun h => absurd h (Bool.eq_false_iff.mp hlink)]
  rfl

theorem isPlainFile_child (h : fs.lookup true p = .ok (loc, .dir entries info))
    (hs : info.searchable = true) (hname : IsEntryName name)
    (he : entries.lookup name = some node) : fs.isPlainFile (p.child name) = node.isFile := by
  rw [isPlainFile, isLink_child h hs hname he]
  cases hlink : node.isLink with
  | true =>
    cases node with
    | link target => exact Bool.and_false _
    | file content => cases hlink
    | dir entries' info' => cases hlink
  | false =>
    rw [isFile, node?_child h hs hname he hlink]
    exact Bool.and_true _

theorem toOption_lookup_eq_some_iff :
    ((fs.lookup follow p).toOption.map Prod.snd) = some node ↔
      ∃ loc, fs.lookup follow p = .ok (loc, node) := by
  cases fs.lookup follow p with
  | error e => exact ⟨fun h => (by cases h), fun ⟨_, h⟩ => by cases h⟩
  | ok r =>
    obtain ⟨loc, n⟩ := r
    constructor
    · intro h
      cases h
      exact ⟨loc, rfl⟩
    · rintro ⟨_, h⟩
      cases h
      rfl

theorem node?_eq_some_iff : fs.node? p = some node ↔ ∃ loc, fs.lookup true p = .ok (loc, node) :=
  toOption_lookup_eq_some_iff

theorem nodeItself?_eq_some_iff :
    fs.nodeItself? p = some node ↔ ∃ loc, fs.lookup false p = .ok (loc, node) :=
  toOption_lookup_eq_some_iff

theorem pathExists_of_isDir (h : fs.isDir p = true) : fs.pathExists p = true := by
  rw [isDir] at h
  rw [pathExists]
  cases hnode : fs.node? p with
  | none => rw [hnode] at h; cases h
  | some node => rfl

theorem lookup_wellFormed (hfs : fs.root.WellFormed) (h : fs.lookup true p = .ok (loc, node)) :
    node.WellFormed :=
  hfs.reach? (lookup_reach? h)

end FileSystem

end CommentTags

import CommentTags.Proofs.Files.WellFormed
import Mathlib.Data.List.Induction

namespace CommentTags

def Path.linkTarget (p : Path) (target : String) : Path :=
  if target.toList.head? = some '/' then .ofString target else p.below (namesOf target.toList)

namespace FileSystem

/-- The target of the link at a location, if there is one. -/
def linkAt? (fs : FileSystem) (loc : Location) : Option String :=
  match fs.root.reach? loc with
  | some (.link target) => some target
  | _ => none

/-- Names lead from one location to another, and `n` links are followed on the way. If `strict` is
set every name has to exist, and otherwise a name that does not exist is gone through like one that
does. In both cases `..` takes back the last name, whatever that name stands for. -/
inductive Leads (fs : FileSystem) (strict : Bool) : Nat → Location → List String → Location → Prop
  | nil {loc : Location} : Leads fs strict 0 loc [] loc
  | dot {n : Nat} {loc dest : Location} {names : List String}
    (rest : Leads fs strict n loc names dest) : Leads fs strict n loc ("." :: names) dest
  | dotdot {n : Nat} {loc dest : Location} {names : List String}
    (rest : Leads fs strict n loc.dropLast names dest) : Leads fs strict n loc (".." :: names) dest
  | entry {n : Nat} {loc dest : Location} {name : String} {names : List String} (h1 : name ≠ ".")
    (h2 : name ≠ "..") (hnul : hasNul name = false) (hlink : fs.linkAt? (loc ++ [name]) = none)
    (hstrict : strict = true → fs.root.reach? (loc ++ [name]) ≠ none)
    (rest : Leads fs strict n (loc ++ [name]) names dest) :
    Leads fs strict n loc (name :: names) dest
  | link {m n : Nat} {loc via dest : Location} {name target : String} {names : List String}
    (h1 : name ≠ ".") (h2 : name ≠ "..") (hnul : hasNul name = false)
    (hlink : fs.linkAt? (loc ++ [name]) = some target)
    (inner : Leads fs strict m (linkStart target loc) (linkNames target) via)
    (rest : Leads fs strict n via names dest) : Leads fs strict (m + 1 + n) loc (name :: names) dest

/-- Names cannot be followed beyond a location, where some of them are left. Either the location
does not exist and has to, or it is a link that is met while its own target is being gone through:
`entered` holds the links for which this is so. -/
inductive Blocked (fs : FileSystem) (strict : Bool) :
    List Location → Location → List String → Location → List String → Prop
  | dot {entered : List Location} {loc stop : Location} {names left : List String}
    (rest : Blocked fs strict entered loc names stop left) :
    Blocked fs strict entered loc ("." :: names) stop left
  | dotdot {entered : List Location} {loc stop : Location} {names left : List String}
    (rest : Blocked fs strict entered loc.dropLast names stop left) :
    Blocked fs strict entered loc (".." :: names) stop left
  | entry {entered : List Location} {loc stop : Location} {name : String} {names left : List String}
    (h1 : name ≠ ".") (h2 : name ≠ "..") (hnul : hasNul name = false)
    (hlink : fs.linkAt? (loc ++ [name]) = none)
    (hstrict : strict = true → fs.root.reach? (loc ++ [name]) ≠ none)
    (rest : Blocked fs strict entered (loc ++ [name]) names stop left) :
    Blocked fs strict entered loc (name :: names) stop left
  | nul {entered : List Location} {loc : Location} {name : String} {names : List String}
    (h1 : name ≠ ".") (h2 : name ≠ "..") (hnul : hasNul name = true) :
    Blocked fs strict entered loc (name :: names) (loc ++ [name]) names
  | missing {entered : List Location} {loc : Location} {name : String} {names : List String}
    (h1 : name ≠ ".") (h2 : name ≠ "..") (hnul : hasNul name = false) (hstrict : strict = true)
    (hnone : fs.root.reach? (loc ++ [name]) = none) :
    Blocked fs strict entered loc (name :: names) (loc ++ [name]) names
  | again {entered : List Location} {loc : Location} {name target : String} {names : List String}
    (h1 : name ≠ ".") (h2 : name ≠ "..") (hnul : hasNul name = false)
    (hlink : fs.linkAt? (loc ++ [name]) = some target) (hmem : loc ++ [name] ∈ entered) :
    Blocked fs strict entered loc (name :: names) (loc ++ [name]) names
  | inside {entered : List Location} {loc stop : Location} {name target : String}
    {names left : List String} (h1 : name ≠ ".") (h2 : name ≠ "..") (hnul : hasNul name = false)
    (hlink : fs.linkAt? (loc ++ [name]) = some target) (hmem : loc ++ [name] ∉ entered)
    (inner : Blocked fs strict ((loc ++ [name]) :: entered) (linkStart target loc)
      (linkNames target) stop left) :
    Blocked fs strict entered loc (name :: names) stop (left ++ names)
  | behind {m : Nat} {entered : List Location} {loc via stop : Location} {name target : String}
    {names left : List String} (h1 : name ≠ ".") (h2 : name ≠ "..") (hnul : hasNul name = false)
    (hlink : fs.linkAt? (loc ++ [name]) = some target) (hmem : loc ++ [name] ∉ entered)
    (inner : Leads fs strict m (linkStart target loc) (linkNames target) via)
    (rest : Blocked fs strict entered via names stop left) :
    Blocked fs strict entered loc (name :: names) stop left

/-- The names of a path lead to a location. If `strict` is set, every one of them exists. -/
def Denotes (fs : FileSystem) (strict : Bool) (p : Path) (loc : Location) : Prop :=
  ∃ n, fs.Leads strict n (fs.start p) p.names loc

variable {fs : FileSystem} {strict : Bool} {m n k : Nat} {loc loc' via dest stop : Location}
  {name target : String} {names more left : List String} {entered : List Location}

theorem reach?_of_linkAt? (h : fs.linkAt? loc = some target) :
    fs.root.reach? loc = some (.link target) := by
  unfold linkAt? at h
  split at h
  · rename_i hget
    rw [hget, Option.some.inj h]
  · cases h

theorem linkAt?_eq_some_iff :
    fs.linkAt? loc = some target ↔ fs.root.reach? loc = some (.link target) := by
  refine ⟨reach?_of_linkAt?, fun h => ?_⟩
  rw [linkAt?, h]

theorem reach?_ne_none_of_linkAt? (h : fs.linkAt? loc = some target) : fs.root.reach? loc ≠ none :=
  Option.ne_none_iff_exists'.mpr ⟨_, reach?_of_linkAt? h⟩

theorem linkAt?_eq_none {node : Node} (hget : fs.root.reach? loc = some node)
    (hnode : ∀ target, node = .link target → False) : fs.linkAt? loc = none := by
  refine Option.eq_none_iff_forall_ne_some.mpr fun target htarget => hnode target ?_
  exact Option.some.inj (hget.symm.trans (reach?_of_linkAt? htarget))

namespace Leads

theorem append (h : fs.Leads strict m loc names via) (h' : fs.Leads strict n via more dest) :
    fs.Leads strict (m + n) loc (names ++ more) dest := by
  induction h with
  | nil =>
    rw [Nat.zero_add]
    exact h'
  | dot _ ih => exact .dot (ih h')
  | dotdot _ ih => exact .dotdot (ih h')
  | entry h1 h2 hnul hlink hstrict _ ih => exact .entry h1 h2 hnul hlink hstrict (ih h')
  | link h1 h2 hnul hlink inner _ _ ih =>
    rw [Nat.add_assoc]
    exact .link h1 h2 hnul hlink inner (ih h')

theorem link_inv (hlink : fs.linkAt? (loc ++ [name]) = some target) (h1 : name ≠ ".")
    (h2 : name ≠ "..") (h : fs.Leads strict n loc (name :: names) dest) :
    ∃ m k via, n = m + 1 + k ∧ fs.Leads strict m (linkStart target loc) (linkNames target) via ∧
      fs.Leads strict k via names dest := by
  cases h with
  | dot => exact absurd rfl h1
  | dotdot => exact absurd rfl h2
  | entry _ _ _ hnone => rw [hlink] at hnone; cases hnone
  | @link m k _ via _ _ target' _ _ _ _ hlink' inner rest =>
    obtain rfl : target = target' := Option.some.inj (hlink.symm.trans hlink')
    exact ⟨m, k, via, rfl, inner, rest⟩

theorem entry_inv (hlink : fs.linkAt? (loc ++ [name]) = none) (h1 : name ≠ ".") (h2 : name ≠ "..")
    (h : fs.Leads strict n loc (name :: names) dest) :
    (strict = true → fs.root.reach? (loc ++ [name]) ≠ none) ∧
      fs.Leads strict n (loc ++ [name]) names dest := by
  cases h with
  | dot => exact absurd rfl h1
  | dotdot => exact absurd rfl h2
  | entry _ _ _ _ hstrict rest => exact ⟨hstrict, rest⟩
  | link _ _ _ hlink' => rw [hlink] at hlink'; cases hlink'

theorem hasNul_inv (h1 : name ≠ ".") (h2 : name ≠ "..")
    (h : fs.Leads strict n loc (name :: names) dest) : hasNul name = false := by
  cases h with
  | dot => exact absurd rfl h1
  | dotdot => exact absurd rfl h2
  | entry _ _ hnul => exact hnul
  | link _ _ hnul => exact hnul

theorem dot_inv (h : fs.Leads strict n loc ("." :: names) dest) :
    fs.Leads strict n loc names dest := by
  generalize hall : "." :: names = all at h
  cases h with
  | nil => cases hall
  | dot rest => exact (List.cons.inj hall).2 ▸ rest
  | dotdot => exact absurd (List.cons.inj hall).1 (by decide)
  | entry h1 => exact absurd (List.cons.inj hall).1.symm h1
  | link h1 => exact absurd (List.cons.inj hall).1.symm h1

theorem dotdot_inv (h : fs.Leads strict n loc (".." :: names) dest) :
    fs.Leads strict n loc.dropLast names dest := by
  generalize hall : ".." :: names = all at h
  cases h with
  | nil => cases hall
  | dot => exact absurd (List.cons.inj hall).1 (by decide)
  | dotdot rest => exact (List.cons.inj hall).2 ▸ rest
  | entry _ h2 => exact absurd (List.cons.inj hall).1.symm h2
  | link _ h2 => exact absurd (List.cons.inj hall).1.symm h2

theorem unique (h : fs.Leads strict m loc names dest) (h' : fs.Leads strict n loc names loc') :
    m = n ∧ dest = loc' := by
  induction h generalizing n loc' with
  | nil => cases h' with | nil => exact ⟨rfl, rfl⟩
  | dot _ ih => exact ih h'.dot_inv
  | dotdot _ ih => exact ih h'.dotdot_inv
  | entry h1 h2 hnul hlink _ _ ih => exact ih (entry_inv hlink h1 h2 h').2
  | link h1 h2 hnul hlink _ _ ihinner ih =>
    obtain ⟨m', k', via', rfl, hinner, hrest⟩ := link_inv hlink h1 h2 h'
    obtain ⟨rfl, rfl⟩ := ihinner hinner
    obtain ⟨rfl, rfl⟩ := ih hrest
    exact ⟨rfl, rfl⟩

theorem of_append (h : fs.Leads strict n loc (names ++ more) dest) :
    ∃ m k via, n = m + k ∧ fs.Leads strict m loc names via ∧ fs.Leads strict k via more dest := by
  induction names generalizing n loc with
  | nil => exact ⟨0, n, loc, (Nat.zero_add n).symm, .nil, h⟩
  | cons name names ih =>
    cases h with
    | dot rest =>
      obtain ⟨m, k, via, rfl, hnames, hmore⟩ := ih rest
      exact ⟨m, k, via, rfl, .dot hnames, hmore⟩
    | dotdot rest =>
      obtain ⟨m, k, via, rfl, hnames, hmore⟩ := ih rest
      exact ⟨m, k, via, rfl, .dotdot hnames, hmore⟩
    | entry h1 h2 hnul hlink hstrict rest =>
      obtain ⟨m, k, via, rfl, hnames, hmore⟩ := ih rest
      exact ⟨m, k, via, rfl, .entry h1 h2 hnul hlink hstrict hnames, hmore⟩
    | link h1 h2 hnul hlink inner rest =>
      obtain ⟨m, k, via, rfl, hnames, hmore⟩ := ih rest
      exact ⟨_, k, via, (Nat.add_assoc ..).symm, .link h1 h2 hnul hlink inner hnames, hmore⟩

theorem append_iff (h : fs.Leads strict m loc names via) :
    (∃ n, fs.Leads strict n loc (names ++ more) dest) ↔ ∃ n, fs.Leads strict n via more dest := by
  refine ⟨fun ⟨n, hn⟩ => ?_, fun ⟨n, hn⟩ => ⟨m + n, h.append hn⟩⟩
  obtain ⟨m', k, via', -, hnames, hmore⟩ := hn.of_append
  obtain ⟨-, rfl⟩ := h.unique hnames
  exact ⟨k, hmore⟩

theorem of_node {node : Node} (h1 : name ≠ ".") (h2 : name ≠ "..") (hnul : hasNul name = false)
    (hget : fs.root.reach? (loc ++ [name]) = some node) (hl : ∀ target, node = .link target → False)
    (h : fs.Leads strict n (loc ++ [name]) names dest) :
    fs.Leads strict n loc (name :: names) dest :=
  .entry h1 h2 hnul (linkAt?_eq_none hget hl)
    (fun _ => Option.ne_none_iff_exists'.mpr ⟨node, hget⟩) h

theorem of_link (h1 : name ≠ ".") (h2 : name ≠ "..") (hnul : hasNul name = false)
    (hget : fs.root.reach? (loc ++ [name]) = some (.link target))
    (h : fs.Leads strict n (linkStart target loc) (linkNames target ++ names) dest) :
    ∃ n, fs.Leads strict n loc (name :: names) dest := by
  obtain ⟨m, k, via, -, hinner, hrest⟩ := h.of_append
  exact ⟨_, .link h1 h2 hnul (linkAt?_eq_some_iff.mpr hget) hinner hrest⟩

theorem linkNames_iff :
    (∃ n, fs.Leads strict n loc (linkNames target) dest) ↔
      ∃ n, fs.Leads strict n loc (Path.namesOf target.toList) dest := by
  unfold linkNames
  split
  · refine ⟨fun ⟨n, hn⟩ => ?_, fun ⟨n, hn⟩ => ⟨_, hn.append (.dot .nil)⟩⟩
    obtain ⟨m, k, via, -, hnames, hdot⟩ := hn.of_append
    cases hdot.dot_inv
    exact ⟨m, hnames⟩
  · rw [List.append_nil]

end Leads

theorem hasNul_of_lookup {entries : List (String × Node)} {info : DirInfo} {node : Node}
    (hfs : fs.root.WellFormed) (hd : fs.root.reach? loc = some (.dir entries info))
    (he : entries.lookup name = some node) : hasNul name = false :=
  ((hfs.reach? hd).isEntryName_of_mem (mem_of_lookup he)).noNul

/-- Where the system finds a node, there the names lead. -/
theorem leads_of_lookupFrom (hfs : fs.root.WellFormed) {links : Nat} {node : Node}
    (h : fs.lookupFrom true links loc names = .ok (dest, node)) :
    ∃ n, fs.Leads strict n loc names dest := by
  fun_induction lookupFrom fs true links loc names with
  | case1 =>
    obtain ⟨rfl, -⟩ := Prod.mk.inj (Except.ok.inj h)
    exact ⟨0, .nil⟩
  | case7 links loc names es info hd hs ih =>
    obtain ⟨n, hn⟩ := ih h
    exact ⟨n, .dot hn⟩
  | case8 links loc names es info hd hs _ ih =>
    obtain ⟨n, hn⟩ := ih h
    exact ⟨n, .dotdot hn⟩
  | case10 => rename_i hn; exact absurd hn.2 (by decide)
  | case12 loc name names es info hd hs h1 h2 target he _ links ih =>
    obtain ⟨n, hn⟩ := ih h
    exact hn.of_link h1 h2 (hasNul_of_lookup hfs hd he)
      ((reach?_concat fs hd (searchable_of_not hs)).trans he)
  | case13 links loc name names es info hd hs h1 h2 node' hl he ih =>
    obtain ⟨n, hn⟩ := ih h
    exact ⟨n, hn.of_node h1 h2 (hasNul_of_lookup hfs hd he)
      ((reach?_concat fs hd (searchable_of_not hs)).trans he) hl⟩
  | _ => cases h

theorem lookupFrom_before_last (hfs : fs.root.WellFormed) (strict : Bool) {follow : Bool}
    {links : Nat} {found : Location × Node} (h1 : name ≠ ".") (h2 : name ≠ "..")
    (h : fs.lookupFrom follow links loc (names ++ [name]) = .ok found) :
    ∃ n dir links', fs.Leads strict n loc names dir ∧ ∀ follow',
      fs.lookupFrom follow' links loc (names ++ [name]) =
        fs.lookupFrom follow' links' dir [name] := by
  generalize hall : names ++ [name] = all at h
  fun_induction lookupFrom fs follow links loc all generalizing names with
  | case1 => exact absurd hall (List.append_ne_nil_of_right_ne_nil _ (List.cons_ne_nil _ _))
  | case7 links loc rest es info hd hs ih =>
    cases names with
    | nil => exact absurd (List.cons.inj hall).1 h1
    | cons first names =>
      rw [List.cons_append, List.cons.injEq] at hall
      obtain ⟨rfl, rfl⟩ := hall
      obtain ⟨n, dir, links', hn, hlast⟩ := ih rfl h
      refine ⟨n, dir, links', .dot hn, fun follow' => ?_⟩
      rw [lookupFrom_dot fs hd (searchable_of_not hs), hlast]
  | case8 links loc rest es info hd hs _ ih =>
    cases names with
    | nil => exact absurd (List.cons.inj hall).1 h2
    | cons first names =>
      rw [List.cons_append, List.cons.injEq] at hall
      obtain ⟨rfl, rfl⟩ := hall
      obtain ⟨n, dir, links', hn, hlast⟩ := ih rfl h
      refine ⟨n, dir, links', .dotdot hn, fun follow' => ?_⟩
      rw [lookupFrom_dotdot fs hd (searchable_of_not hs), hlast]
  | case10 links loc last rest es info hd hs _ _ target' he hn =>
    obtain rfl := hn.1
    obtain ⟨rfl, hlast⟩ := List.append_inj' (show names ++ [name] = [] ++ [last] from hall) rfl
    exact ⟨0, loc, links, .nil, fun _ => congrArg _ hall.symm⟩
  | case12 loc first rest es info hd hs h1' h2' target' he hn links ih =>
    cases names with
    | nil => exact ⟨0, loc, links + 1, .nil, fun _ => congrArg _ hall.symm⟩
    | cons first' names =>
      rw [List.cons_append, List.cons.injEq] at hall
      obtain ⟨rfl, rfl⟩ := hall
      -- the names of the target stand before those that are left, and the last one stays the last
      obtain ⟨n, dir, links', hleads, hlast⟩ := @ih (linkNames target' ++ names)
        (List.append_assoc ..) h
      have hs := searchable_of_not hs
      obtain ⟨n', hleads'⟩ := hleads.of_link h1' h2' (hasNul_of_lookup hfs hd he)
        ((reach?_concat fs hd hs).trans he)
      refine ⟨n', dir, links', hleads', fun follow' => ?_⟩
      have hmore : ¬ (names ++ [name] = [] ∧ (!follow') = true) := fun hnil =>
        List.append_ne_nil_of_right_ne_nil _ (List.cons_ne_nil _ _) hnil.1
      rw [lookupFrom_link fs hd hs h1' h2' he hmore, hlast]
  | case13 links loc first rest es info hd hs h1' h2' node hl he ih =>
    cases names with
    | nil => exact ⟨0, loc, links, .nil, fun _ => congrArg _ hall.symm⟩
    | cons first' names =>
      rw [List.cons_append, List.cons.injEq] at hall
      obtain ⟨rfl, rfl⟩ := hall
      obtain ⟨n, dir, links', hn, hlast⟩ := ih rfl h
      have hs := searchable_of_not hs
      have hleads := hn.of_node h1' h2' (hasNul_of_lookup hfs hd he)
        ((reach?_concat fs hd hs).trans he) hl
      refine ⟨n, dir, links', hleads, fun follow' => ?_⟩
      rw [lookupFrom_entry fs hd hs h1' h2' he (Node.isLink_eq_false hl), hlast]
  | _ => cases h

theorem lookup_of_lookupFrom_singleton {follow : Bool} {links : Nat} {found : Location × Node}
    (h1 : name ≠ ".") (h2 : name ≠ "..")
    (h : fs.lookupFrom follow links loc [name] = .ok found) :
    ∃ entries info node, fs.root.reach? loc = some (.dir entries info) ∧
      info.searchable = true ∧ entries.lookup name = some node := by
  cases hget : fs.root.reach? loc with
  | none => rw [lookupFrom, hget] at h; cases h
  | some n =>
    cases n with
    | file content => rw [lookupFrom, hget] at h; cases h
    | link target => rw [lookupFrom, hget] at h; cases h
    | dir entries info =>
      cases hs : info.searchable with
      | false => rw [lookupFrom_of_unsearchable fs hget hs] at h; cases h
      | true =>
        cases he : entries.lookup name with
        | none => rw [lookupFrom_none fs hget hs h1 h2 he] at h; cases h
        | some node => exact ⟨entries, info, node, rfl, hs, he⟩

/-- What the system finds at a path, a link at its end not followed, is in the directory that the
names before the last one lead to. -/
theorem leads_of_nodeItself? (hfs : fs.root.WellFormed) (strict : Bool) {p : Path} {node : Node}
    (h1 : name ≠ ".") (h2 : name ≠ "..") (h : fs.nodeItself? (p.child name) = some node) :
    ∃ n dir, fs.Leads strict n (fs.start p) p.names dir ∧ hasNul name = false ∧
      fs.root.reach? (dir ++ [name]) = some node := by
  obtain ⟨found, hlookup⟩ := nodeItself?_eq_some_iff.mp h
  have hlookup := (lookup_eq_ok_iff.mp hlookup).2
  obtain ⟨n, dir, links, hleads, hlast⟩ := lookupFrom_before_last hfs strict h1 h2 hlookup
  have hsingle := (hlast false).symm.trans hlookup
  obtain ⟨entries, info, node', hd, hs, he⟩ := lookup_of_lookupFrom_singleton h1 h2 hsingle
  have hfound := (lookupFrom_singleton fs hd hs h1 h2 he fun _ => rfl).symm.trans hsingle
  obtain ⟨-, rfl⟩ := Prod.mk.inj (Except.ok.inj hfound)
  exact ⟨n, dir, hleads, hasNul_of_lookup hfs hd he, (reach?_concat fs hd hs).trans he⟩

theorem leads_of_not_isLink (hfs : fs.root.WellFormed) (strict : Bool) {p : Path} (h1 : name ≠ ".")
    (h2 : name ≠ "..") (hexists : fs.pathExists (p.child name) = true)
    (hlink : fs.isLink (p.child name) = false) :
    ∃ n dir, fs.Leads strict n (fs.start p) p.names dir ∧ hasNul name = false ∧
      fs.root.reach? (dir ++ [name]) ≠ none ∧ fs.linkAt? (dir ++ [name]) = none := by
  obtain ⟨node, hnode⟩ := Option.isSome_iff_exists.mp hexists
  obtain ⟨found, hlookup⟩ := node?_eq_some_iff.mp hnode
  obtain ⟨hnul, hlookup⟩ := lookup_eq_ok_iff.mp hlookup
  obtain ⟨n, dir, links, hleads, hlast⟩ := lookupFrom_before_last hfs strict h1 h2 hlookup
  obtain ⟨entries, info, node', hd, hs, he⟩ :=
    lookup_of_lookupFrom_singleton h1 h2 ((hlast true).symm.trans hlookup)
  have hself : fs.nodeItself? (p.child name) = some node' :=
    nodeItself?_eq_some_iff.mpr ⟨_, lookup_eq_ok_iff.mpr ⟨hnul, (hlast false).trans
      (lookupFrom_singleton fs hd hs h1 h2 he fun _ => rfl)⟩⟩
  have hget := (reach?_concat fs hd hs).trans he
  refine ⟨n, dir, hleads, hasNul_of_lookup hfs hd he, Option.ne_none_iff_exists'.mpr ⟨node', hget⟩,
    linkAt?_eq_none hget fun target htarget => ?_⟩
  rw [isLink, hself, htarget] at hlink
  cases hlink

theorem denotes_of_pathExists (hfs : fs.root.WellFormed) {p : Path}
    (h : fs.pathExists p = true) : ∃ loc, fs.Denotes strict p loc := by
  obtain ⟨node, hnode⟩ := Option.isSome_iff_exists.mp h
  obtain ⟨loc, hlookup⟩ := node?_eq_some_iff.mp hnode
  exact ⟨loc, leads_of_lookupFrom hfs (lookup_eq_ok_iff.mp hlookup).2⟩

theorem isAbsolute_ofString_iff (s : String) :
    (Path.ofString s).isAbsolute = true ↔ s.toList.head? = some '/' := by
  rw [Path.isAbsolute, Path.ofString]
  dsimp only
  cases s.toList with
  | nil => decide
  | cons c rest =>
    by_cases hc : c = '/'
    · subst hc
      unfold Path.anchorOf
      split <;> simp_all
    · unfold Path.anchorOf
      split <;> simp_all

theorem start_ofString (fs : FileSystem) (s : String) :
    fs.start (.ofString s) = linkStart s fs.here := by
  unfold start linkStart
  exact if_congr (isAbsolute_ofString_iff s) rfl rfl

theorem denotes_link_iff (hfs : fs.root.WellFormed) {p : Path} (h1 : name ≠ ".")
    (h2 : name ≠ "..") (hlink : fs.nodeItself? (p.child name) = some (.link target)) :
    fs.Denotes strict (p.child name) loc ↔ fs.Denotes strict (p.linkTarget target) loc := by
  obtain ⟨n, dir, hdir, hnul, hget⟩ := leads_of_nodeItself? hfs strict h1 h2 hlink
  have hlinkAt := linkAt?_eq_some_iff.mpr hget
  have hinner : fs.Denotes strict (p.child name) loc ↔
      ∃ m, fs.Leads strict m (linkStart target dir) (linkNames target) loc := by
    refine hdir.append_iff.trans ⟨fun ⟨k, hk⟩ => ?_, fun ⟨m, hm⟩ => ?_⟩
    · obtain ⟨m, k', via, -, hvia, hrest⟩ := hk.link_inv hlinkAt h1 h2
      cases hrest
      exact ⟨m, hvia⟩
    · exact ⟨_, .link h1 h2 hnul hlinkAt hm .nil⟩
  rw [hinner, Leads.linkNames_iff]
  unfold Path.linkTarget linkStart
  split
  · rename_i habsolute
    rw [Denotes, start_ofString, linkStart, if_pos habsolute]
    rfl
  · exact hdir.append_iff.symm

structure IsClear (fs : FileSystem) (loc : Location) : Prop where
  names : ∀ name ∈ loc, name ≠ "." ∧ name ≠ ".." ∧ hasNul name = false
  noLink : ∀ pre, pre <+: loc → fs.linkAt? pre = none

theorem reach?_ne_none_of_above {pre : Location} (h : fs.root.reach? loc ≠ none)
    (hpre : pre <+: loc) : fs.root.reach? pre ≠ none := by
  obtain ⟨rest, rfl⟩ := hpre
  intro hnone
  rw [Node.reach?_append, hnone] at h
  exact h rfl

def HasHere (fs : FileSystem) : Prop :=
  ∃ entries info, fs.root.reach? fs.here = some (.dir entries info)

theorem HasHere.reach?_start (h : fs.HasHere) (p : Path) : fs.root.reach? (fs.start p) ≠ none := by
  obtain ⟨entries, info, hget⟩ := h
  have hhere : fs.root.reach? fs.here ≠ none := Option.ne_none_iff_exists'.mpr ⟨_, hget⟩
  unfold FileSystem.start
  split
  · exact Option.some_ne_none _
  · exact hhere

namespace IsClear

theorem of_append (h : fs.IsClear (loc ++ loc')) : fs.IsClear loc :=
  ⟨fun name hname => h.names name (List.mem_append_left _ hname),
    fun pre hpre => h.noLink pre (hpre.trans (List.prefix_append _ _))⟩

theorem dropLast (h : fs.IsClear loc) : fs.IsClear loc.dropLast :=
  ⟨fun name hname => h.names name (List.dropLast_subset loc hname),
    fun pre hpre => h.noLink pre (hpre.trans (List.dropLast_prefix loc))⟩

theorem concat (h : fs.IsClear loc) (h1 : name ≠ ".") (h2 : name ≠ "..")
    (hnul : hasNul name = false) (hlink : fs.linkAt? (loc ++ [name]) = none) :
    fs.IsClear (loc ++ [name]) := by
  refine ⟨List.forall_mem_append.mpr ⟨h.names, List.forall_mem_singleton.mpr ⟨h1, h2, hnul⟩⟩,
    fun pre hpre => ?_⟩
  obtain rfl | hpre := List.prefix_concat_iff.mp hpre
  · exact hlink
  · exact h.noLink pre hpre

theorem linkStart (h : fs.IsClear loc) (target : String) : fs.IsClear (linkStart target loc) := by
  unfold CommentTags.linkStart
  split
  · exact of_append (show fs.IsClear ([] ++ _) from h)
  · exact h

theorem of_reach? {node : Node} (hfs : fs.root.WellFormed) (h : fs.root.reach? loc = some node)
    (hnode : node.isLink = false) : fs.IsClear loc := by
  refine ⟨fun name hname => ?_, fun pre hpre => ?_⟩
  · have hn := hfs.isEntryName_of_reach? h name hname
    exact ⟨hn.ne_dot, hn.ne_dotdot, hn.noNul⟩
  · obtain ⟨rest, rfl⟩ := hpre
    refine Option.eq_none_iff_forall_ne_some.mpr fun target hlink => ?_
    rw [Node.reach?_append, reach?_of_linkAt? hlink, Option.bind_some] at h
    cases rest with
    | nil =>
      obtain rfl := Option.some.inj h
      cases hnode
    | cons name rest =>
      obtain ⟨-, child, hchild, -⟩ := Node.reach?_cons_eq_some_iff.mp h
      cases hchild

theorem start (hfs : fs.root.WellFormed) (hhere : fs.HasHere) (p : Path) :
    fs.IsClear (fs.start p) := by
  obtain ⟨entries, info, hget⟩ := hhere
  have h := of_reach? hfs hget rfl
  unfold FileSystem.start
  split
  · exact of_append (show fs.IsClear ([] ++ _) from h)
  · exact h

theorem leads (h : fs.IsClear loc) (hget : strict = true → fs.root.reach? loc ≠ none) :
    fs.Leads strict 0 [] loc loc := by
  induction loc using List.reverseRecOn with
  | nil => exact .nil
  | append_singleton loc name ih =>
    obtain ⟨h1, h2, hnul⟩ := h.names name List.mem_concat_self
    have hlast : fs.Leads strict 0 loc [name] (loc ++ [name]) :=
      .entry h1 h2 hnul (h.noLink _ List.prefix_rfl) hget .nil
    have hbefore (hs : strict = true) : fs.root.reach? loc ≠ none :=
      reach?_ne_none_of_above (hget hs) (List.prefix_append loc [name])
    exact (ih h.of_append hbefore).append hlast

theorem lookup_ne {entries : List (String × Node)} {info : DirInfo}
    (h : fs.IsClear (loc ++ name :: names)) (hd : fs.root.reach? loc = some (.dir entries info))
    (hs : info.searchable = true) : entries.lookup name ≠ some (.link target) := by
  intro he
  have hlink := h.noLink (loc ++ [name]) ⟨names, List.append_assoc ..⟩
  rw [linkAt?_eq_some_iff.mpr ((reach?_concat fs hd hs).trans he)] at hlink
  cases hlink

theorem lookup_ne_tooManyLinks (h : fs.IsClear loc) :
    fs.lookup true ⟨.root, loc⟩ ≠ .error .tooManyLinks := by
  have hfrom : ∀ links base names, fs.IsClear (base ++ names) →
      fs.lookupFrom true links base names ≠ .error .tooManyLinks := by
    intro links base names h
    fun_induction lookupFrom fs true links base names with
    | case7 => exact absurd rfl (h.names _ (List.mem_append_right _ List.mem_cons_self)).1
    | case8 => exact absurd rfl (h.names _ (List.mem_append_right _ List.mem_cons_self)).2.1
    | case9 =>
      intro h
      split at h <;> cases h
    | case11 base name names entries info hd hs _ _ target he =>
      exact absurd he (h.lookup_ne hd (searchable_of_not hs))
    | case12 base name names entries info hd hs _ _ target he =>
      exact absurd he (h.lookup_ne hd (searchable_of_not hs))
    | case13 links base name names entries info hd hs h1 h2 node hl he ih =>
      refine ih ?_
      rwa [List.append_assoc]
    | _ => exact fun h => by cases h
  rw [lookup]
  split
  · exact fun h => by cases h
  · exact hfrom _ [] loc h

theorem hasNul_eq_false (h : fs.IsClear loc) : (Path.mk .root loc).hasNul = false :=
  List.any_eq_false.mpr fun name hname => Bool.eq_false_iff.mp (h.names name hname).2.2

end IsClear

namespace Leads

theorem isClear (h : fs.Leads strict n loc names dest) (hloc : fs.IsClear loc) :
    fs.IsClear dest := by
  induction h with
  | nil => exact hloc
  | dot _ ih => exact ih hloc
  | dotdot _ ih => exact ih hloc.dropLast
  | entry h1 h2 hnul hlink _ _ ih => exact ih (hloc.concat h1 h2 hnul hlink)
  | link _ _ _ _ _ _ ihinner ih => exact ih (ihinner (hloc.linkStart _))

theorem reach?_ne_none (h : fs.Leads true n loc names dest) (hloc : fs.root.reach? loc ≠ none) :
    fs.root.reach? dest ≠ none := by
  induction h with
  | nil => exact hloc
  | dot _ ih => exact ih hloc
  | dotdot _ ih => exact ih (reach?_ne_none_of_above hloc (List.dropLast_prefix _))
  | entry _ _ _ _ hstrict _ ih => exact ih (hstrict rfl)
  | link _ _ _ _ _ _ ihinner ih =>
    refine ih (ihinner (reach?_ne_none_of_above hloc ?_))
    unfold linkStart
    split
    · exact List.nil_prefix
    · exact List.prefix_rfl

end Leads

end FileSystem

end CommentTags

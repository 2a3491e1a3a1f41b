import CommentTags.Files.Resolve
import CommentTags.Proofs.Files.Leads
import CommentTags.Proofs.Path
import Mathlib.Data.List.Perm.Subperm

namespace CommentTags

namespace Node

mutual

def places : Node → List Location
  | file _ => [[]]
  | link _ => [[]]
  | dir entries _ => [] :: placesIn entries

def placesIn : List (String × Node) → List Location
  | [] => []
  | (name, n) :: rest => (places n).map (name :: ·) ++ placesIn rest

end

mutual

theorem length_places : (n : Node) → n.places.length = n.size
  | file _ => rfl
  | link _ => rfl
  | dir entries _ => by rw [places, size, List.length_cons, length_placesIn entries]

theorem length_placesIn : (entries : List (String × Node)) →
    (placesIn entries).length = sizes entries
  | [] => rfl
  | (name, n) :: rest => by
    rw [placesIn, sizes, List.length_append, List.length_map, length_places n,
      length_placesIn rest]

end

theorem mem_placesIn {entries : List (String × Node)} {e : String × Node} {loc : Location}
    (he : e ∈ entries) (hloc : loc ∈ e.2.places) : e.1 :: loc ∈ placesIn entries := by
  induction entries with
  | nil => cases he
  | cons a entries ih =>
    rw [placesIn]
    obtain rfl | he := List.mem_cons.mp he
    · exact List.mem_append_left _ (List.mem_map_of_mem hloc)
    · exact List.mem_append_right _ (ih he)

theorem mem_places {n m : Node} {loc : Location} (h : n.get? loc = some m) : loc ∈ n.places := by
  induction loc generalizing n with
  | nil => cases n <;> exact List.mem_cons_self
  | cons name loc ih =>
    rw [get?, Option.bind_eq_some_iff] at h
    obtain ⟨child, hchild, h⟩ := h
    cases n with
    | dir entries info =>
      exact List.mem_cons_of_mem _ (mem_placesIn (mem_of_lookup hchild) (ih h))
    | file content => cases hchild
    | link target => cases hchild

theorem length_le_size {n : Node} {locs : List Location} (hnodup : locs.Nodup)
    (h : ∀ loc ∈ locs, n.reach? loc ≠ none) : locs.length ≤ n.size := by
  rw [← n.length_places]
  refine (List.subperm_of_subset hnodup fun loc hloc => ?_).length_le
  obtain ⟨m, hm⟩ := Option.ne_none_iff_exists'.mp (h loc hloc)
  exact mem_places (get?_of_reach? hm)

end Node

namespace FileSystem

variable {fs : FileSystem} {strict : Bool} {fuel : Nat} {links : List (Location × Option Location)}
  {entered : List Location} {m n : Nat} {loc via dest stop : Location} {name target : String}
  {names more left : List String} {steps : List ResolveStep}

theorem resolveFrom_dot :
    fs.resolveFrom strict fuel links loc (.enter "." :: steps) =
      fs.resolveFrom strict fuel links loc steps := by
  rw [resolveFrom]
  exact if_pos rfl

theorem resolveFrom_dotdot :
    fs.resolveFrom strict fuel links loc (.enter ".." :: steps) =
      fs.resolveFrom strict fuel links loc.dropLast steps := by
  rw [resolveFrom]
  exact (if_neg (by decide)).trans (if_pos rfl)

theorem resolveFrom_entry (h1 : name ≠ ".") (h2 : name ≠ "..") (hnul : hasNul name = false)
    (hlink : fs.linkAt? (loc ++ [name]) = none)
    (hstrict : strict = true → fs.root.reach? (loc ++ [name]) ≠ none) :
    fs.resolveFrom strict fuel links loc (.enter name :: steps) =
      fs.resolveFrom strict fuel links (loc ++ [name]) steps := by
  rw [resolveFrom]
  simp only [h1, h2, hnul, if_false]
  cases hget : fs.root.reach? (loc ++ [name]) with
  | none => exact if_neg fun hs => hstrict hs hget
  | some node =>
    cases node with
    | link target => rw [linkAt?_eq_some_iff.mpr hget] at hlink; cases hlink
    | file content => rfl
    | dir entries info => rfl

theorem resolveFrom_nul (h1 : name ≠ ".") (h2 : name ≠ "..") (hnul : hasNul name = true) :
    fs.resolveFrom strict fuel links loc (.enter name :: steps) =
      .stuck (loc ++ [name]) (steps.filterMap ResolveStep.name?) := by
  rw [resolveFrom]
  simp only [h1, h2, hnul, if_false]

theorem resolveFrom_missing (h1 : name ≠ ".") (h2 : name ≠ "..") (hnul : hasNul name = false)
    (hnone : fs.root.reach? (loc ++ [name]) = none) :
    fs.resolveFrom true fuel links loc (.enter name :: steps) =
      .stuck (loc ++ [name]) (steps.filterMap ResolveStep.name?) := by
  rw [resolveFrom]
  simp only [h1, h2, hnul, if_false, hnone, if_true]

theorem resolveFrom_known (h1 : name ≠ ".") (h2 : name ≠ "..") (hnul : hasNul name = false)
    (hlink : fs.linkAt? (loc ++ [name]) = some target)
    (hknown : links.lookup (loc ++ [name]) = some (some via)) :
    fs.resolveFrom strict fuel links loc (.enter name :: steps) =
      fs.resolveFrom strict fuel links via steps := by
  rw [resolveFrom]
  simp only [h1, h2, hnul, if_false, reach?_of_linkAt? hlink, hknown]

theorem resolveFrom_again (h1 : name ≠ ".") (h2 : name ≠ "..") (hnul : hasNul name = false)
    (hlink : fs.linkAt? (loc ++ [name]) = some target)
    (hentered : links.lookup (loc ++ [name]) = some none) :
    fs.resolveFrom strict fuel links loc (.enter name :: steps) =
      .stuck (loc ++ [name]) (steps.filterMap ResolveStep.name?) := by
  rw [resolveFrom]
  simp only [h1, h2, hnul, if_false, reach?_of_linkAt? hlink, hentered]

theorem resolveFrom_enter (h1 : name ≠ ".") (h2 : name ≠ "..") (hnul : hasNul name = false)
    (hlink : fs.linkAt? (loc ++ [name]) = some target)
    (hnew : links.lookup (loc ++ [name]) = none) :
    fs.resolveFrom strict (fuel + 1) links loc (.enter name :: steps) =
      fs.resolveFrom strict fuel ((loc ++ [name], none) :: links) (linkStart target loc)
        ((linkNames target).map .enter ++ .leave (loc ++ [name]) :: steps) := by
  rw [resolveFrom]
  simp only [h1, h2, hnul, if_false, reach?_of_linkAt? hlink, hnew]

theorem resolveFrom_leave (link : Location) :
    fs.resolveFrom strict fuel links loc (.leave link :: steps) =
      fs.resolveFrom strict fuel ((link, some loc) :: links) loc steps := by
  rw [resolveFrom]

/-- How far resolving has come. What is known about a link is true, `entered` holds the links that
have not been left again, and the fuel lasts for all links that are still unseen. -/
structure Progress (fs : FileSystem) (strict : Bool) (fuel : Nat)
    (links : List (Location × Option Location)) (entered : List Location) : Prop where
  known : ∀ {link via target}, links.lookup link = some (some via) →
    fs.linkAt? link = some target →
      ∃ n, fs.Leads strict n (linkStart target link.dropLast) (linkNames target) via
  entered_iff : ∀ {link}, links.lookup link = some none ↔ link ∈ entered
  fuel_le : ∃ seen : List Location, seen.Nodup ∧
    (∀ link ∈ seen, links.lookup link ≠ none ∧ fs.root.reach? link ≠ none) ∧
      fs.root.size ≤ fuel + seen.length

/-- A link whose target is being gone through, if it leads anywhere, does so through no fewer links
than the names that are left of the target. So it is not met among these names. -/
def Ranked (fs : FileSystem) (strict : Bool) (entered : List Location) (loc : Location)
    (names : List String) : Prop :=
  ∀ link ∈ entered, ∀ target m via, fs.linkAt? link = some target →
    fs.Leads strict m (linkStart target link.dropLast) (linkNames target) via →
      ∃ n dest, fs.Leads strict n loc names dest ∧ n ≤ m

theorem lookup_cons_of_ne {link link' : Location} {known : Option Location} (h : link ≠ link') :
    ((link', known) :: links).lookup link = links.lookup link := by
  rw [List.lookup_cons, beq_eq_false_iff_ne.mpr h]

namespace Progress

theorem start (fs : FileSystem) (strict : Bool) : fs.Progress strict fs.root.size [] [] where
  known h := by cases h
  entered_iff := ⟨fun h => (by cases h), fun h => (by cases h)⟩
  fuel_le := ⟨[], List.nodup_nil, fun _ h => absurd h List.not_mem_nil, Nat.le_refl _⟩

theorem enter (h : fs.Progress strict fuel links entered) {link : Location}
    (hlink : fs.linkAt? link = some target) (hnew : links.lookup link = none) :
    ∃ fuel', fuel = fuel' + 1 ∧
      fs.Progress strict fuel' ((link, none) :: links) (link :: entered) := by
  obtain ⟨seen, hnodup, hseen, hfuel⟩ := h.fuel_le
  have hnodup' : (link :: seen).Nodup :=
    List.nodup_cons.mpr ⟨fun hmem => (hseen link hmem).1 hnew, hnodup⟩
  have hget := reach?_ne_none_of_linkAt? hlink
  have hlength : seen.length + 1 ≤ fs.root.size :=
    Node.length_le_size hnodup' (List.forall_mem_cons.mpr ⟨hget, fun l hl => (hseen l hl).2⟩)
  obtain ⟨fuel', rfl⟩ : ∃ fuel', fuel = fuel' + 1 := ⟨fuel - 1, by omega⟩
  refine ⟨fuel', rfl, fun {l via t} hl ht => ?_, fun {l} => ?_, link :: seen, hnodup', ?_, ?_⟩
  · by_cases hne : l = link
    · rw [hne, List.lookup_cons_self] at hl
      cases hl
    · rw [lookup_cons_of_ne hne] at hl
      exact h.known hl ht
  · by_cases hne : l = link
    · rw [hne, List.lookup_cons_self]
      exact ⟨fun _ => List.mem_cons_self, fun _ => rfl⟩
    · rw [lookup_cons_of_ne hne, h.entered_iff, List.mem_cons, or_iff_right hne]
  · refine List.forall_mem_cons.mpr ⟨⟨?_, hget⟩, fun l hl => ⟨?_, (hseen l hl).2⟩⟩
    · rw [List.lookup_cons_self]
      exact Option.some_ne_none _
    · have hne : l ≠ link := fun heq => (hseen l hl).1 (heq ▸ hnew)
      rw [lookup_cons_of_ne hne]
      exact (hseen l hl).1
  · rw [List.length_cons]
    omega

theorem leave {link : Location} (h : fs.Progress strict fuel links (link :: entered))
    (hmem : link ∉ entered) (hlink : fs.linkAt? link = some target)
    (hleads : fs.Leads strict n (linkStart target link.dropLast) (linkNames target) via) :
    fs.Progress strict fuel ((link, some via) :: links) entered := by
  obtain ⟨seen, hnodup, hseen, hfuel⟩ := h.fuel_le
  refine ⟨fun {l via' t} hl ht => ?_, fun {l} => ?_, seen, hnodup, fun l hl => ?_, hfuel⟩
  · by_cases hne : l = link
    · subst hne
      rw [List.lookup_cons_self] at hl
      obtain rfl : via = via' := Option.some.inj (Option.some.inj hl)
      obtain rfl : target = t := Option.some.inj (hlink.symm.trans ht)
      exact ⟨n, hleads⟩
    · rw [lookup_cons_of_ne hne] at hl
      exact h.known hl ht
  · by_cases hne : l = link
    · subst hne
      rw [List.lookup_cons_self]
      exact ⟨fun hl => (by cases hl), fun hl => absurd hl hmem⟩
    · rw [lookup_cons_of_ne hne, h.entered_iff, List.mem_cons, or_iff_right hne]
  · refine ⟨?_, (hseen l hl).2⟩
    by_cases hne : l = link
    · rw [hne, List.lookup_cons_self]
      exact Option.some_ne_none _
    · rw [lookup_cons_of_ne hne]
      exact (hseen l hl).1

end Progress

namespace Ranked

theorem nil (fs : FileSystem) (strict : Bool) (loc : Location) (names : List String) :
    fs.Ranked strict [] loc names :=
  fun _ h => absurd h List.not_mem_nil

theorem step {loc' : Location} (h : fs.Ranked strict entered loc names)
    (hstep : ∀ n dest, fs.Leads strict n loc names dest →
      ∃ m dest', fs.Leads strict m loc' more dest' ∧ m ≤ n) :
    fs.Ranked strict entered loc' more := by
  intro link hmem target m via hlink hleads
  obtain ⟨n, dest, hnames, hle⟩ := h link hmem target m via hlink hleads
  obtain ⟨k, dest', hmore, hle'⟩ := hstep n dest hnames
  exact ⟨k, dest', hmore, Nat.le_trans hle' hle⟩

theorem dot (h : fs.Ranked strict entered loc ("." :: names)) :
    fs.Ranked strict entered loc names :=
  h.step fun n dest hleads => ⟨n, dest, hleads.dot_inv, Nat.le_refl n⟩

theorem dotdot (h : fs.Ranked strict entered loc (".." :: names)) :
    fs.Ranked strict entered loc.dropLast names :=
  h.step fun n dest hleads => ⟨n, dest, hleads.dotdot_inv, Nat.le_refl n⟩

theorem entry (h : fs.Ranked strict entered loc (name :: names)) (h1 : name ≠ ".")
    (h2 : name ≠ "..") (hlink : fs.linkAt? (loc ++ [name]) = none) :
    fs.Ranked strict entered (loc ++ [name]) names :=
  h.step fun n dest hleads => ⟨n, dest, (hleads.entry_inv hlink h1 h2).2, Nat.le_refl n⟩

theorem inside (h : fs.Ranked strict entered loc (name :: names)) (h1 : name ≠ ".")
    (h2 : name ≠ "..") (hlink : fs.linkAt? (loc ++ [name]) = some target) :
    fs.Ranked strict ((loc ++ [name]) :: entered) (linkStart target loc) (linkNames target) := by
  have hold : fs.Ranked strict entered (linkStart target loc) (linkNames target) :=
    h.step fun n dest hleads => by
      obtain ⟨m, k, via, rfl, hinner, -⟩ := hleads.link_inv hlink h1 h2
      exact ⟨m, via, hinner, by omega⟩
  intro link hmem target' m via hlink' hleads
  obtain rfl | hmem := List.mem_cons.mp hmem
  · obtain rfl : target = target' := Option.some.inj (hlink.symm.trans hlink')
    rw [List.dropLast_concat] at hleads
    exact ⟨m, via, hleads, Nat.le_refl m⟩
  · exact hold link hmem target' m via hlink' hleads

theorem behind (h : fs.Ranked strict entered loc (name :: names)) (h1 : name ≠ ".")
    (h2 : name ≠ "..") (hlink : fs.linkAt? (loc ++ [name]) = some target)
    (hinner : fs.Leads strict m (linkStart target loc) (linkNames target) via) :
    fs.Ranked strict entered via names :=
  h.step fun n dest hleads => by
    obtain ⟨m', k, via', rfl, hinner', hrest⟩ := hleads.link_inv hlink h1 h2
    obtain ⟨rfl, rfl⟩ := hinner.unique hinner'
    exact ⟨k, dest, hrest, by omega⟩

theorem first (h : fs.Ranked strict entered loc (name :: names)) :
    fs.Ranked strict entered loc [name] :=
  h.step fun n dest hleads => by
    have hsplit : fs.Leads strict n loc ([name] ++ names) dest := hleads
    obtain ⟨m, k, via, rfl, hname, -⟩ := hsplit.of_append
    exact ⟨m, via, hname, Nat.le_add_right m k⟩

theorem not_mem (h : fs.Ranked strict entered loc (name :: names)) (h1 : name ≠ ".")
    (h2 : name ≠ "..") (hlink : fs.linkAt? (loc ++ [name]) = some target)
    (hleads : fs.Leads strict n loc (name :: names) dest) : loc ++ [name] ∉ entered := by
  intro hmem
  obtain ⟨m, k, via, rfl, hinner, -⟩ := hleads.link_inv hlink h1 h2
  obtain ⟨n', dest', hleads', hle⟩ := h _ hmem target m via hlink (by rwa [List.dropLast_concat])
  obtain ⟨rfl, -⟩ := hleads.unique hleads'
  omega

end Ranked

theorem Blocked.not_leads (h : fs.Blocked strict entered loc names stop left)
    (hranked : fs.Ranked strict entered loc names) : ¬ fs.Leads strict n loc names dest := by
  induction h generalizing n dest with
  | dot _ ih => exact fun hleads => ih hranked.dot hleads.dot_inv
  | dotdot _ ih => exact fun hleads => ih hranked.dotdot hleads.dotdot_inv
  | entry h1 h2 hnul hlink _ _ ih =>
    exact fun hleads => ih (hranked.entry h1 h2 hlink) (hleads.entry_inv hlink h1 h2).2
  | nul h1 h2 hnul => exact fun hleads => Bool.eq_false_iff.mp (hleads.hasNul_inv h1 h2) hnul
  | @missing _ loc name _ h1 h2 _ hstrict hnone =>
    intro hleads
    have hlink : fs.linkAt? (loc ++ [name]) = none := by
      rw [linkAt?, hnone]
    exact (hleads.entry_inv hlink h1 h2).1 hstrict hnone
  | again h1 h2 hnul hlink hmem => exact fun hleads => hranked.not_mem h1 h2 hlink hleads hmem
  | inside h1 h2 hnul hlink _ _ ih =>
    intro hleads
    obtain ⟨m, k, via, rfl, hinner, -⟩ := hleads.link_inv hlink h1 h2
    exact ih (hranked.inside h1 h2 hlink) hinner
  | behind h1 h2 hnul hlink _ hinner _ ih =>
    intro hleads
    obtain ⟨m, k, via, rfl, hinner', hrest⟩ := hleads.link_inv hlink h1 h2
    obtain ⟨rfl, rfl⟩ := hinner.unique hinner'
    exact ih (hranked.behind h1 h2 hlink hinner) hrest

theorem Leads.append_blocked (h : fs.Leads strict n loc names via)
    (h' : fs.Blocked strict [] via more stop left) :
    fs.Blocked strict [] loc (names ++ more) stop left := by
  induction h with
  | nil => exact h'
  | dot _ ih => exact .dot (ih h')
  | dotdot _ ih => exact .dotdot (ih h')
  | entry h1 h2 hnul hlink hstrict _ ih => exact .entry h1 h2 hnul hlink hstrict (ih h')
  | link h1 h2 hnul hlink inner _ _ ih =>
    exact .behind h1 h2 hnul hlink List.not_mem_nil inner (ih h')

/-- Resolving goes on from where names lead, whatever has been found out about links before. -/
theorem resolveFrom_of_leads (h : fs.Leads strict n loc names dest)
    (hranked : fs.Ranked strict entered loc names) (hp : fs.Progress strict fuel links entered) :
    ∃ fuel' links', fs.Progress strict fuel' links' entered ∧
      ∀ steps, fs.resolveFrom strict fuel links loc (names.map .enter ++ steps) =
        fs.resolveFrom strict fuel' links' dest steps := by
  induction h generalizing entered fuel links with
  | nil => exact ⟨fuel, links, hp, fun steps => rfl⟩
  | dot _ ih =>
    obtain ⟨fuel', links', hp', hrun⟩ := ih hranked.dot hp
    exact ⟨fuel', links', hp', fun steps => resolveFrom_dot.trans (hrun steps)⟩
  | dotdot _ ih =>
    obtain ⟨fuel', links', hp', hrun⟩ := ih hranked.dotdot hp
    exact ⟨fuel', links', hp', fun steps => resolveFrom_dotdot.trans (hrun steps)⟩
  | entry h1 h2 hnul hlink hstrict _ ih =>
    obtain ⟨fuel', links', hp', hrun⟩ := ih (hranked.entry h1 h2 hlink) hp
    exact ⟨fuel', links', hp',
      fun steps => (resolveFrom_entry h1 h2 hnul hlink hstrict).trans (hrun steps)⟩
  | @link m k loc via dest name target names h1 h2 hnul hlink inner rest ihinner ih =>
    have hmem := hranked.not_mem h1 h2 hlink (.link h1 h2 hnul hlink inner rest)
    have hbehind := hranked.behind h1 h2 hlink inner
    have hinner : fs.Leads strict m (linkStart target (loc ++ [name]).dropLast)
        (linkNames target) via := by
      rwa [List.dropLast_concat]
    -- the target is gone through when the link is met first, and is known from then on
    cases hlookup : links.lookup (loc ++ [name]) with
    | none =>
      obtain ⟨fuel, rfl, hentered⟩ := hp.enter hlink hlookup
      obtain ⟨fuel₁, links₁, hp₁, hrun₁⟩ := ihinner (hranked.inside h1 h2 hlink) hentered
      obtain ⟨fuel₂, links₂, hp₂, hrun₂⟩ := ih hbehind (hp₁.leave hmem hlink hinner)
      refine ⟨fuel₂, links₂, hp₂, fun steps => ?_⟩
      rw [List.map_cons, List.cons_append, resolveFrom_enter h1 h2 hnul hlink hlookup, hrun₁,
        resolveFrom_leave, hrun₂]
    | some known =>
      cases known with
      | none => exact absurd (hp.entered_iff.mp hlookup) hmem
      | some via' =>
        obtain ⟨m', hknown⟩ := hp.known hlookup hlink
        obtain ⟨rfl, rfl⟩ := hinner.unique hknown
        obtain ⟨fuel', links', hp', hrun⟩ := ih hbehind hp
        exact ⟨fuel', links', hp',
          fun steps => (resolveFrom_known h1 h2 hnul hlink hlookup).trans (hrun steps)⟩

theorem resolveFrom_of_blocked (h : fs.Blocked strict entered loc names stop left)
    (hranked : fs.Ranked strict entered loc names) (hp : fs.Progress strict fuel links entered)
    (steps : List ResolveStep) :
    fs.resolveFrom strict fuel links loc (names.map .enter ++ steps) =
      .stuck stop (left ++ steps.filterMap ResolveStep.name?) := by
  have hnames (names : List String) (steps : List ResolveStep) :
      (names.map ResolveStep.enter ++ steps).filterMap ResolveStep.name? =
        names ++ steps.filterMap ResolveStep.name? := by
    rw [List.filterMap_append, List.filterMap_map]
    exact congrArg (· ++ _) List.filterMap_some
  induction h generalizing fuel links steps with
  | dot _ ih => exact resolveFrom_dot.trans (ih hranked.dot hp steps)
  | dotdot _ ih => exact resolveFrom_dotdot.trans (ih hranked.dotdot hp steps)
  | entry h1 h2 hnul hlink hstrict _ ih =>
    exact (resolveFrom_entry h1 h2 hnul hlink hstrict).trans
      (ih (hranked.entry h1 h2 hlink) hp steps)
  | nul h1 h2 hnul => rw [List.map_cons, List.cons_append, resolveFrom_nul h1 h2 hnul, hnames]
  | missing h1 h2 hnul hstrict hnone =>
    subst hstrict
    rw [List.map_cons, List.cons_append, resolveFrom_missing h1 h2 hnul hnone, hnames]
  | again h1 h2 hnul hlink hmem =>
    rw [List.map_cons, List.cons_append,
      resolveFrom_again h1 h2 hnul hlink (hp.entered_iff.mpr hmem), hnames]
  | @inside entered loc stop name target names left h1 h2 hnul hlink hmem inner ih =>
    have hinside := hranked.inside h1 h2 hlink
    cases hlookup : links.lookup (loc ++ [name]) with
    | none =>
      obtain ⟨fuel, rfl, hentered⟩ := hp.enter hlink hlookup
      rw [List.map_cons, List.cons_append, resolveFrom_enter h1 h2 hnul hlink hlookup,
        ih hinside hentered, List.filterMap_cons, hnames, List.append_assoc]
      rfl
    | some known =>
      cases known with
      | none => exact absurd (hp.entered_iff.mp hlookup) hmem
      | some via =>
        obtain ⟨m, hknown⟩ := hp.known hlookup hlink
        rw [List.dropLast_concat] at hknown
        exact absurd hknown (inner.not_leads hinside)
  | @behind m entered loc via stop name target names left h1 h2 hnul hlink hmem inner _ ih =>
    have hfirst : fs.Leads strict (m + 1 + 0) loc [name] via := .link h1 h2 hnul hlink inner .nil
    obtain ⟨fuel', links', hp', hrun⟩ := resolveFrom_of_leads hfirst hranked.first hp
    exact (hrun (names.map .enter ++ steps)).trans
      (ih (hranked.behind h1 h2 hlink inner) hp' steps)

/-- Names lead somewhere or are blocked. -/
theorem leads_or_blocked (fs : FileSystem) (strict : Bool) (entered : List Location)
    (hnodup : entered.Nodup) (hget : ∀ link ∈ entered, fs.root.reach? link ≠ none) (loc : Location)
    (names : List String) :
    (∃ n dest, fs.Leads strict n loc names dest) ∨
      ∃ stop left, fs.Blocked strict entered loc names stop left := by
  -- a link that is entered is one less to enter, and behind it there are fewer names
  induction hk : fs.root.size - entered.length using Nat.strongRecOn
    generalizing entered loc names with
  | ind k ihk =>
    induction names generalizing loc with
    | nil => exact .inl ⟨0, loc, .nil⟩
    | cons name names ih =>
      by_cases h1 : name = "."
      · subst h1
        exact (ih loc).imp (fun ⟨n, dest, h⟩ => ⟨n, dest, .dot h⟩) fun ⟨s, l, h⟩ => ⟨s, l, .dot h⟩
      by_cases h2 : name = ".."
      · subst h2
        exact (ih loc.dropLast).imp (fun ⟨n, dest, h⟩ => ⟨n, dest, .dotdot h⟩)
          fun ⟨s, l, h⟩ => ⟨s, l, .dotdot h⟩
      by_cases hnul : hasNul name = true
      · exact .inr ⟨_, _, .nul h1 h2 hnul⟩
      rw [Bool.not_eq_true] at hnul
      cases hlink : fs.linkAt? (loc ++ [name]) with
      | none =>
        by_cases hmissing : strict = true ∧ fs.root.reach? (loc ++ [name]) = none
        · exact .inr ⟨_, _, .missing h1 h2 hnul hmissing.1 hmissing.2⟩
        · have hstrict (hs : strict = true) : fs.root.reach? (loc ++ [name]) ≠ none :=
            fun hnone => hmissing ⟨hs, hnone⟩
          exact (ih (loc ++ [name])).imp
            (fun ⟨n, dest, h⟩ => ⟨n, dest, .entry h1 h2 hnul hlink hstrict h⟩)
            fun ⟨s, l, h⟩ => ⟨s, l, .entry h1 h2 hnul hlink hstrict h⟩
      | some target =>
        by_cases hmem : loc ++ [name] ∈ entered
        · exact .inr ⟨_, _, .again h1 h2 hnul hlink hmem⟩
        have hnodup' : ((loc ++ [name]) :: entered).Nodup := List.nodup_cons.mpr ⟨hmem, hnodup⟩
        have hget' : ∀ link ∈ (loc ++ [name]) :: entered, fs.root.reach? link ≠ none :=
          List.forall_mem_cons.mpr ⟨reach?_ne_none_of_linkAt? hlink, hget⟩
        have hlt : fs.root.size - ((loc ++ [name]) :: entered).length < k := by
          have hle := Node.length_le_size hnodup' hget'
          rw [List.length_cons] at hle ⊢
          omega
        obtain ⟨m, via, hinner⟩ | ⟨stop, left, hinner⟩ :=
          ihk _ hlt _ hnodup' hget' (linkStart target loc) (linkNames target) rfl
        · exact (ih via).imp (fun ⟨n, dest, h⟩ => ⟨_, dest, .link h1 h2 hnul hlink hinner h⟩)
            fun ⟨s, l, h⟩ => ⟨s, l, .behind h1 h2 hnul hlink hmem hinner h⟩
        · exact .inr ⟨stop, left ++ names, .inside h1 h2 hnul hlink hmem hinner⟩

variable {p q : Path}

theorem resolution_of_leads (h : fs.Leads strict n (fs.start p) p.names dest) :
    fs.resolution strict p = .resolved dest := by
  obtain ⟨fuel, links, -, hrun⟩ := resolveFrom_of_leads h (.nil fs strict _ _) (.start fs strict)
  have hend := hrun []
  rwa [List.append_nil, resolveFrom] at hend

theorem resolution_of_blocked (h : fs.Blocked strict [] (fs.start p) p.names stop left) :
    fs.resolution strict p = .stuck stop left := by
  have hrun := resolveFrom_of_blocked h (.nil fs strict _ _) (.start fs strict) []
  rwa [List.append_nil, List.filterMap_nil, List.append_nil] at hrun

theorem resolution_eq_resolved_iff :
    fs.resolution strict p = .resolved dest ↔ fs.Denotes strict p dest := by
  refine ⟨fun h => ?_, fun ⟨n, hn⟩ => resolution_of_leads hn⟩
  obtain ⟨n, dest', hn⟩ | ⟨stop, left, hblocked⟩ := leads_or_blocked fs strict [] List.nodup_nil
    (fun _ h => absurd h List.not_mem_nil) (fs.start p) p.names
  · rw [resolution_of_leads hn] at h
    obtain rfl := Resolution.resolved.inj h
    exact ⟨n, hn⟩
  · rw [resolution_of_blocked hblocked] at h
    cases h

theorem resolveStrict?_eq_some_iff :
    fs.resolveStrict? p = .ok (some dest) ↔ fs.Denotes true p dest := by
  rw [← resolution_eq_resolved_iff, resolveStrict?]
  cases fs.resolution true p with
  | resolved loc =>
    refine ⟨fun h => ?_, fun h => ?_⟩
    · cases h
      rfl
    · cases h
      rfl
  | stuck stop left =>
    refine ⟨fun h => ?_, fun h => (by cases h)⟩
    dsimp only at h
    split at h <;> cases h

theorem resolveStrict?_of_not_denotes (h : ∀ loc, ¬ fs.Denotes true p loc) :
    fs.resolveStrict? p = .ok none ∨ fs.resolveStrict? p = .error .nullByte := by
  cases hresolved : fs.resolution true p with
  | resolved loc => exact absurd (resolution_eq_resolved_iff.mp hresolved) (h loc)
  | stuck stop left =>
    rw [resolveStrict?, hresolved]
    dsimp only
    split
    · exact .inr rfl
    · exact .inl rfl

theorem hasNul_of_mem_linkNames (hnul : hasNul target = false) (h : name ∈ linkNames target) :
    hasNul name = false := by
  rw [linkNames, List.mem_append] at h
  obtain h | h := h
  · refine decide_eq_false fun hmem => of_decide_eq_false hnul ?_
    exact Path.mem_of_mem_namesOf h hmem
  · split at h
    · rw [List.mem_singleton.mp h]
      decide
    · cases h

theorem Blocked.nul_inv (hfs : fs.root.WellFormed)
    (h : fs.Blocked strict entered loc names stop left) (hstop : endsInNul stop = true) :
    ∃ before name after n via, names = before ++ name :: after ∧ hasNul name = true ∧
      fs.Leads strict n loc before via := by
  have hends (loc : Location) (name : String) : endsInNul (loc ++ [name]) = hasNul name := by
    rw [endsInNul, List.getLast?_concat, Option.any_some]
  induction h with
  | dot _ ih =>
    obtain ⟨before, name, after, n, via, rfl, hnul, hn⟩ := ih hstop
    exact ⟨"." :: before, name, after, n, via, rfl, hnul, .dot hn⟩
  | dotdot _ ih =>
    obtain ⟨before, name, after, n, via, rfl, hnul, hn⟩ := ih hstop
    exact ⟨".." :: before, name, after, n, via, rfl, hnul, .dotdot hn⟩
  | @entry _ _ _ first _ _ h1 h2 hfirst hlink hstrict _ ih =>
    obtain ⟨before, name, after, n, via, rfl, hnul, hn⟩ := ih hstop
    exact ⟨first :: before, name, after, n, via, rfl, hnul, .entry h1 h2 hfirst hlink hstrict hn⟩
  | @nul _ loc name names h1 h2 hnul => exact ⟨[], name, names, 0, loc, rfl, hnul, .nil⟩
  | missing _ _ hnul =>
    rw [hends, hnul] at hstop
    cases hstop
  | again _ _ hnul =>
    rw [hends, hnul] at hstop
    cases hstop
  | inside _ _ _ hlink _ _ ih =>
    obtain ⟨before, name, after, -, -, heq, hnul, -⟩ := ih hstop
    cases hfs.reach? (reach?_of_linkAt? hlink) with
    | link htarget =>
      have hname := heq ▸ List.mem_append_right _ List.mem_cons_self
      rw [hasNul_of_mem_linkNames htarget hname] at hnul
      cases hnul
  | @behind m _ _ _ _ first _ _ _ h1 h2 hfirst hlink _ inner _ ih =>
    obtain ⟨before, name, after, n, via, rfl, hnul, hn⟩ := ih hstop
    exact ⟨first :: before, name, after, m + 1 + n, via, rfl, hnul,
      .link h1 h2 hfirst hlink inner hn⟩

theorem ne_dots_of_hasNul (h : hasNul name = true) : name ≠ "." ∧ name ≠ ".." := by
  refine ⟨?_, ?_⟩ <;> rintro rfl <;> revert h <;> decide

theorem resolution_of_nul {before after : List String} (hp : p.names = before ++ name :: after)
    (hnul : hasNul name = true) (h : fs.Leads strict n (fs.start p) before via) :
    fs.resolution strict p = .stuck (via ++ [name]) after := by
  obtain ⟨h1, h2⟩ := ne_dots_of_hasNul hnul
  exact resolution_of_blocked (hp ▸ h.append_blocked (.nul h1 h2 hnul))

theorem resolveStrict?_eq_error_iff (hfs : fs.root.WellFormed) {e : PathError} :
    fs.resolveStrict? p = .error e ↔ e = .nullByte ∧ ∃ before name after loc,
      p.names = before ++ name :: after ∧ hasNul name = true ∧
        fs.Denotes true ⟨p.anchor, before⟩ loc := by
  constructor
  · intro h
    obtain ⟨n, dest, hn⟩ | ⟨stop, left, hblocked⟩ := leads_or_blocked fs true [] List.nodup_nil
      (fun _ h => absurd h List.not_mem_nil) (fs.start p) p.names
    · rw [resolveStrict?, resolution_of_leads hn] at h
      cases h
    · rw [resolveStrict?, resolution_of_blocked hblocked] at h
      dsimp only at h
      split at h
      · rename_i hstop
        obtain ⟨before, name, after, n, via, heq, hnul, hn⟩ := hblocked.nul_inv hfs hstop
        cases h
        exact ⟨rfl, before, name, after, via, heq, hnul, n, hn⟩
      · cases h
  · rintro ⟨rfl, before, name, after, via, heq, hnul, n, hn⟩
    rw [resolveStrict?, resolution_of_nul heq hnul hn]
    dsimp only
    rw [endsInNul, List.getLast?_concat, Option.any_some, hnul]

/-- Whatever comes behind names that lead to the same location is resolved to the same. -/
theorem resolution_congr {before before' : List String} (hp : p.names = before ++ more)
    (hq : q.names = before' ++ more) (h : fs.Leads strict m (fs.start p) before via)
    (h' : fs.Leads strict n (fs.start q) before' via) :
    fs.resolution strict p = fs.resolution strict q := by
  obtain ⟨k, dest, hmore⟩ | ⟨stop, left, hmore⟩ := leads_or_blocked fs strict [] List.nodup_nil
    (fun _ h => absurd h List.not_mem_nil) via more
  · rw [resolution_of_leads (hp ▸ h.append hmore), resolution_of_leads (hq ▸ h'.append hmore)]
  · rw [resolution_of_blocked (hp ▸ h.append_blocked hmore),
      resolution_of_blocked (hq ▸ h'.append_blocked hmore)]

theorem resolve?_of_nul {before after : List String} (hp : p.names = before ++ name :: after)
    (hnul : hasNul name = true) (h : fs.Denotes false ⟨p.anchor, before⟩ via) :
    fs.resolve? p = none := by
  obtain ⟨n, hn⟩ := h
  rw [resolve?, resolution_of_nul hp hnul hn]
  dsimp only
  rw [endsInNul, List.getLast?_concat, Option.any_some, hnul]

theorem lookupFrom_ne_nullByte {follow : Bool} {fuel : Nat} :
    fs.lookupFrom follow fuel loc names ≠ .error .nullByte := by
  fun_induction lookupFrom fs follow fuel loc names with
  | case7 => rename_i ih; exact ih
  | case8 => rename_i ih; exact ih
  | case9 =>
    intro h
    split at h <;> cases h
  | case12 => rename_i ih; exact ih
  | case13 => rename_i ih; exact ih
  | _ => exact fun h => by cases h

theorem resolve?_of_isClear (hstart : fs.IsClear (fs.start p)) (h : fs.Denotes false p dest) :
    fs.resolve? p = some dest := by
  obtain ⟨n, hleads⟩ := h
  have hclear := hleads.isClear hstart
  rw [resolve?, resolution_of_leads hleads]
  dsimp only
  split
  · rename_i hlinks
    exact absurd hlinks hclear.lookup_ne_tooManyLinks
  · rename_i hnul
    rw [lookup, hclear.hasNul_eq_false] at hnul
    exact absurd hnul lookupFrom_ne_nullByte
  · rfl

theorem resolve?_of_denotes (hfs : fs.root.WellFormed) (hhere : fs.HasHere)
    (h : fs.Denotes false p dest) : fs.resolve? p = some dest :=
  resolve?_of_isClear (.start hfs hhere p) h

end FileSystem

end CommentTags

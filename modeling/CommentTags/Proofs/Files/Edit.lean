import CommentTags.Git.Record
import CommentTags.Proofs.Files.WellFormed

namespace CommentTags

variable {fs : FileSystem} {p q : Path} {loc loc' : Location} {node : Node} {name : String}
  {entries : List (String × Node)} {info : DirInfo}

def Proper (loc : Location) : Prop :=
  ∀ name ∈ loc, IsName name

theorem proper_nil : Proper [] :=
  fun _ h => absurd h List.not_mem_nil

theorem Proper.append (h : Proper loc) (h' : Proper loc') : Proper (loc ++ loc') :=
  List.forall_mem_append.mpr ⟨h, h'⟩

theorem Proper.concat (h : Proper loc) (hname : IsName name) : Proper (loc ++ [name]) :=
  h.append (List.forall_mem_singleton.mpr hname)

theorem Proper.dropLast (h : Proper loc) : Proper loc.dropLast :=
  fun name hname => h name (List.dropLast_subset loc hname)

namespace Node

theorem insertEntry_perm (name : String) (node : Node) (entries : List (String × Node)) :
    (insertEntry name node entries).Perm ((name, node) :: entries) := by
  induction entries with
  | nil => exact .refl _
  | cons e entries ih =>
    rw [insertEntry]
    split
    · exact .refl _
    · exact (ih.cons e).trans (.swap ..)

theorem mem_setEntry {e : String × Node} (h : e ∈ setEntry name node entries) :
    e = (name, node) ∨ e ∈ entries := by
  unfold setEntry at h
  split at h
  · obtain ⟨e', he', rfl⟩ := List.mem_map.mp h
    split
    · exact Or.inl rfl
    · exact Or.inr he'
  · exact List.mem_cons.mp ((insertEntry_perm name node entries).mem_iff.mp h)

theorem map_fst_replace (name : String) (node : Node) (entries : List (String × Node)) :
    (entries.map fun e => if e.1 = name then (name, node) else e).map Prod.fst =
      entries.map Prod.fst := by
  rw [List.map_map]
  refine List.map_congr_left fun e _ => ?_
  rw [Function.comp_apply]
  split
  · rename_i h
    exact h.symm
  · rfl

theorem setEntry_nodup (h : (entries.map Prod.fst).Nodup) :
    ((setEntry name node entries).map Prod.fst).Nodup := by
  unfold setEntry
  split
  · rwa [map_fst_replace]
  · rename_i hname
    have hperm := (insertEntry_perm name node entries).map Prod.fst
    refine hperm.nodup_iff.mpr (List.nodup_cons.mpr ⟨fun hmem => hname ?_, h⟩)
    obtain ⟨e, he, rfl⟩ := List.mem_map.mp hmem
    rw [lookup_of_mem h he]
    rfl

namespace WellFormed

theorem setEntry (h : (Node.dir entries info).WellFormed) (hname : IsEntryName name)
    (hnode : node.WellFormed) (info' : DirInfo) :
    (Node.dir (setEntry name node entries) info').WellFormed := by
  refine .dir (setEntry_nodup h.nodup_names) (fun e he => ?_) fun e he => ?_
  · obtain rfl | he := mem_setEntry he
    · exact hname
    · exact h.isEntryName_of_mem he
  · obtain rfl | he := mem_setEntry he
    · exact hnode
    · exact h.of_mem he

theorem dir_nil (info : DirInfo) : (Node.dir [] info).WellFormed :=
  .dir .nil (fun _ h => absurd h List.not_mem_nil) fun _ h => absurd h List.not_mem_nil

theorem dir_entries (h : node.WellFormed) (info : DirInfo) :
    (Node.dir node.entries info).WellFormed := by
  cases h with
  | file content => exact dir_nil info
  | link noNul => exact dir_nil info
  | dir nodup names nodes => exact .dir nodup names nodes

theorem child (h : node.WellFormed) : ((node.child? name).getD emptyDir).WellFormed := by
  cases hc : node.child? name with
  | none => exact dir_nil {}
  | some n =>
    have hmem : (name, n) ∈ node.entries := mem_of_lookup hc
    exact (h.dir_entries {}).of_mem hmem

theorem modify {f : Node → Node} (hf : ∀ n : Node, n.WellFormed → (f n).WellFormed)
    (h : node.WellFormed) (hloc : ∀ name ∈ loc, IsEntryName name) :
    (node.modify f loc).WellFormed := by
  induction loc generalizing node with
  | nil => exact hf node h
  | cons name loc ih =>
    obtain ⟨hname, hloc⟩ := List.forall_mem_cons.mp hloc
    exact (h.dir_entries node.info).setEntry hname (ih h.child hloc) _

theorem set {n : Node} (h : n.WellFormed) (hloc : ∀ name ∈ loc, IsEntryName name)
    (hnode : node.WellFormed) : (n.set loc node).WellFormed :=
  h.modify (fun _ _ => hnode) hloc

theorem eraseEntry (h : node.WellFormed) : (node.eraseEntry name).WellFormed := by
  cases h with
  | file content => exact .file content
  | link noNul => exact .link noNul
  | dir nodup names nodes =>
    refine .dir (nodup.sublist (List.filter_sublist.map _)) (fun e he => ?_) fun e he => ?_
    · exact names e (List.mem_filter.mp he).1
    · exact nodes e (List.mem_filter.mp he).1

theorem erase {n : Node} (h : n.WellFormed) (hn : n.get? loc = some node) :
    (n.erase loc).WellFormed := by
  unfold Node.erase
  split
  · exact h
  · exact h.modify (fun _ hn => hn.eraseEntry)
      fun name hname => (h.get? hn).2 name (List.dropLast_subset loc hname)

end WellFormed

end Node

theorem slash_not_mem_of_mem_splitSlashes {s piece : List Char}
    (h : piece ∈ Path.splitSlashes s) : '/' ∉ piece := by
  induction s generalizing piece with
  | nil =>
    rw [List.mem_singleton.mp h]
    exact List.not_mem_nil
  | cons c s ih =>
    rw [Path.splitSlashes] at h
    split at h
    · obtain rfl | h := List.mem_cons.mp h
      · exact List.not_mem_nil
      · exact ih h
    · rename_i hc
      split at h
      · rw [List.mem_singleton.mp h]
        exact fun hm => hc (List.mem_singleton.mp hm).symm
      · rename_i first rest hsplit
        obtain rfl | h := List.mem_cons.mp h
        · intro hm
          obtain hm | hm := List.mem_cons.mp hm
          · exact hc hm.symm
          · exact ih (hsplit ▸ List.mem_cons_self) hm
        · exact ih (hsplit ▸ List.mem_cons_of_mem _ h)

theorem isComponent_of_mem_namesOf {s : List Char} (h : name ∈ Path.namesOf s) :
    IsComponent name ∧ name ≠ "." := by
  obtain ⟨piece, hpiece, rfl⟩ := List.mem_map.mp h
  obtain ⟨hsplit, hne⟩ := List.mem_filter.mp hpiece
  obtain ⟨hempty, hdot⟩ := of_decide_eq_true hne
  refine ⟨⟨fun h => hempty ?_, ?_⟩, fun h => hdot ?_⟩
  · rw [← String.toList_ofList (l := piece), h]
    rfl
  · rw [String.toList_ofList]
    exact slash_not_mem_of_mem_splitSlashes hsplit
  · rw [← String.toList_ofList (l := piece), h]
    rfl

def Path.Normal (p : Path) : Prop :=
  ∀ name ∈ p.names, IsComponent name ∧ name ≠ "."

theorem Path.ofString_normal (s : String) : (Path.ofString s).Normal :=
  fun _ => isComponent_of_mem_namesOf

theorem isComponent_of_mem_linkNames {target : String} (h : name ∈ linkNames target) :
    IsComponent name := by
  rw [linkNames] at h
  obtain h | h := List.mem_append.mp h
  · exact (isComponent_of_mem_namesOf h).1
  · split at h
    · rw [List.mem_singleton.mp h]
      exact ⟨by decide, by decide⟩
    · cases h

theorem proper_linkStart (target : String) (h : Proper loc) : Proper (linkStart target loc) := by
  unfold linkStart
  split
  · exact proper_nil
  · exact h

def Resolution.Proper : Resolution → Prop
  | .resolved loc => CommentTags.Proper loc
  | .stuck loc rest => CommentTags.Proper loc ∧ ∀ name ∈ rest, IsComponent name

theorem enter_mem_of_mem_names {steps : List ResolveStep}
    (h : name ∈ steps.filterMap ResolveStep.name?) : .enter name ∈ steps := by
  obtain ⟨step, hstep, hname⟩ := List.mem_filterMap.mp h
  cases step with
  | enter n => exact Option.some.inj hname ▸ hstep
  | leave link => cases hname

theorem resolveFrom_proper {strict : Bool} {fuel : Nat}
    {links : List (Location × Option Location)} {steps : List ResolveStep} (hloc : Proper loc)
    (hlinks : ∀ link known, (link, some known) ∈ links → Proper known)
    (hsteps : ∀ name, .enter name ∈ steps → IsComponent name) :
    (fs.resolveFrom strict fuel links loc steps).Proper := by
  -- what a link has been found to lead to is proper as well, since it is taken up again
  fun_induction FileSystem.resolveFrom fs strict fuel links loc steps with
  | case1 => exact hloc
  | case2 fuel links loc link steps ih =>
    refine ih hloc (fun link' known h => ?_) fun n h => hsteps n (List.mem_cons_of_mem _ h)
    obtain h | h := List.mem_cons.mp h
    · cases h
      exact hloc
    · exact hlinks link' known h
  | case3 fuel links loc steps ih =>
    exact ih hloc hlinks fun n h => hsteps n (List.mem_cons_of_mem _ h)
  | case4 fuel links loc steps _ ih =>
    exact ih hloc.dropLast hlinks fun n h => hsteps n (List.mem_cons_of_mem _ h)
  | case5 fuel links loc name steps h1 h2 =>
    exact ⟨hloc.concat ⟨hsteps name List.mem_cons_self, h1, h2⟩,
      fun n h => hsteps n (List.mem_cons_of_mem _ (enter_mem_of_mem_names h))⟩
  | case6 fuel links loc name steps _ _ next _ target _ known hknown ih =>
    exact ih (hlinks next known (mem_of_lookup hknown)) hlinks
      fun n h => hsteps n (List.mem_cons_of_mem _ h)
  | case7 fuel links loc name steps h1 h2 =>
    exact ⟨hloc.concat ⟨hsteps name List.mem_cons_self, h1, h2⟩,
      fun n h => hsteps n (List.mem_cons_of_mem _ (enter_mem_of_mem_names h))⟩
  | case8 links loc name steps h1 h2 =>
    exact ⟨hloc.concat ⟨hsteps name List.mem_cons_self, h1, h2⟩,
      fun n h => hsteps n (List.mem_cons_of_mem _ (enter_mem_of_mem_names h))⟩
  | case9 links loc name steps _ _ next _ target _ _ fuel ih =>
    refine ih (proper_linkStart target hloc) (fun link' known h => ?_) fun n h => ?_
    · obtain h | h := List.mem_cons.mp h
      · cases h
      · exact hlinks link' known h
    · obtain h | h := List.mem_append.mp h
      · obtain ⟨n', hn', h⟩ := List.mem_map.mp h
        cases h
        exact isComponent_of_mem_linkNames hn'
      · obtain h | h := List.mem_cons.mp h
        · cases h
        · exact hsteps n (List.mem_cons_of_mem _ h)
  | case10 fuel links loc name steps h1 h2 next _ _ _ _ ih =>
    exact ih (hloc.concat ⟨hsteps name List.mem_cons_self, h1, h2⟩) hlinks
      fun n h => hsteps n (List.mem_cons_of_mem _ h)
  | case11 fuel links loc name steps h1 h2 =>
    exact ⟨hloc.concat ⟨hsteps name List.mem_cons_self, h1, h2⟩,
      fun n h => hsteps n (List.mem_cons_of_mem _ (enter_mem_of_mem_names h))⟩
  | case12 fuel links loc name steps h1 h2 next _ _ _ ih =>
    exact ih (hloc.concat ⟨hsteps name List.mem_cons_self, h1, h2⟩) hlinks
      fun n h => hsteps n (List.mem_cons_of_mem _ h)

theorem proper_normalise {names : List String}
    (h : ∀ name ∈ names, IsComponent name) : Proper (normalise names) := by
  have hfold : ∀ loc, Proper loc → Proper (names.foldl (fun loc name =>
      if name = ".." then loc.dropLast else if name = "." then loc else loc ++ [name]) loc) := by
    induction names with
    | nil => exact fun loc hloc => hloc
    | cons name names ih =>
      obtain ⟨hname, hnames⟩ := List.forall_mem_cons.mp h
      intro loc hloc
      rw [List.foldl_cons]
      apply ih hnames
      by_cases h2 : name = ".."
      · rw [if_pos h2]
        exact hloc.dropLast
      · rw [if_neg h2]
        by_cases h1 : name = "."
        · rw [if_pos h1]
          exact hloc
        · rw [if_neg h1]
          exact hloc.concat ⟨hname, h1, h2⟩
  exact hfold [] proper_nil

namespace FileSystem

structure WellFormed (fs : FileSystem) : Prop where
  root : fs.root.WellFormed
  here : Proper fs.here

theorem WellFormed.start (h : fs.WellFormed) (p : Path) : Proper (fs.start p) := by
  unfold FileSystem.start
  split
  · exact proper_nil
  · exact h.here

theorem resolution_of_resolve? (hl : fs.resolve? p = some loc) :
    fs.resolution false p = .resolved loc ∨
      ∃ stop rest, fs.resolution false p = .stuck stop rest ∧ loc = normalise (stop ++ rest) := by
  unfold FileSystem.resolve? at hl
  dsimp only at hl
  split at hl
  · rename_i loc' hr
    split at hl
    · cases hl
    · cases hl
    · exact Or.inl (Option.some.inj hl ▸ hr)
  · rename_i stop rest hr
    split at hl
    · cases hl
    · split at hl
      · cases hl
      · cases hl
      · exact Or.inr ⟨stop, rest, hr, (Option.some.inj hl).symm⟩

theorem WellFormed.resolve? (h : fs.WellFormed) (hp : p.Normal) (hl : fs.resolve? p = some loc) :
    Proper loc := by
  have hresolution : (fs.resolution false p).Proper := by
    refine resolveFrom_proper (h.start p) (fun _ _ hm => absurd hm List.not_mem_nil) fun n hn => ?_
    obtain ⟨n', hn', hn⟩ := List.mem_map.mp hn
    cases hn
    exact (hp _ hn').1
  obtain hr | ⟨stop, rest, hr, rfl⟩ := resolution_of_resolve? hl
  · rw [hr] at hresolution
    exact hresolution
  · rw [hr] at hresolution
    refine proper_normalise (List.forall_mem_append.mpr ⟨fun n hn => ?_, hresolution.2⟩)
    exact (hresolution.1 n hn).toIsComponent

theorem WellFormed.placeOf (h : fs.WellFormed) (hp : p.Normal) : Proper (fs.placeOf p) := by
  have hgetD : ∀ q : Path, q.Normal → Proper ((fs.resolve? q).getD (fs.start p)) := by
    intro q hq
    cases hl : fs.resolve? q with
    | none => exact h.start p
    | some loc => exact h.resolve? hq hl
  unfold FileSystem.placeOf
  split
  · exact hgetD p hp
  · rename_i hname
    obtain ⟨hnil, hdotdot⟩ := not_or.mp hname
    have hlast : p.name ∈ p.names := by
      rw [Path.name, List.getLast?_eq_some_getLast hnil]
      exact List.getLast_mem hnil
    refine (hgetD _ fun n hn => hp n (List.dropLast_subset _ hn)).concat ?_
    exact ⟨(hp _ hlast).1, (hp _ hlast).2, hdotdot⟩

theorem WellFormed.targetOf (h : fs.WellFormed) (hp : p.Normal) : Proper (fs.targetOf p) := by
  unfold FileSystem.targetOf
  cases hl : fs.resolve? p with
  | none => exact h.placeOf hp
  | some loc => exact h.resolve? hp hl

theorem WellFormed.lookup (h : fs.WellFormed) {follow : Bool}
    (hl : fs.lookup follow p = .ok (loc, node)) : Proper loc ∧ node.WellFormed := by
  have hfrom : ∀ links loc₀ names, Proper loc₀ →
      fs.lookupFrom follow links loc₀ names = .ok (loc, node) → Proper loc ∧ node.WellFormed := by
    intro links loc₀ names hloc hl
    fun_induction FileSystem.lookupFrom fs follow links loc₀ names with
    | case1 links loc₀ node hget =>
      cases hl
      exact ⟨hloc, h.root.reach? hget⟩
    | case7 => rename_i ih; exact ih hloc hl
    | case8 => rename_i ih; exact ih hloc.dropLast hl
    | case10 links loc₀ name names entries _ hget _ _ _ target hname _ =>
      cases hl
      have hdir := h.root.reach? hget
      have hmem := mem_of_lookup hname
      exact ⟨hloc.concat (hdir.isEntryName_of_mem hmem).toIsName, hdir.of_mem hmem⟩
    | case12 => rename_i ih; exact ih (proper_linkStart _ hloc) hl
    | case13 links loc₀ name names entries _ hget _ _ _ n _ hname ih =>
      have hmem := mem_of_lookup hname
      exact ih (hloc.concat ((h.root.reach? hget).isEntryName_of_mem hmem).toIsName) hl
    | _ => cases hl
  exact hfrom _ _ _ (h.start p) (lookup_eq_ok_iff.mp hl).2

theorem isEntryName_of_takes (hloc : Proper loc) (ht : takes loc = true) :
    ∀ name ∈ loc, IsEntryName name := by
  intro name hname
  have hfits := List.all_eq_true.mp ht name hname
  rw [Bool.and_eq_true, Bool.not_eq_true', Bool.not_eq_true'] at hfits
  exact ⟨hloc name hname, hfits.1, hfits.2⟩

theorem WellFormed.put (h : fs.WellFormed) (hloc : Proper loc) (hnode : node.WellFormed) :
    (fs.put loc node).WellFormed := by
  unfold FileSystem.put
  split
  · rename_i ht
    exact ⟨h.root.set (isEntryName_of_takes hloc ht) hnode, h.here⟩
  · exact h

theorem WellFormed.write (h : fs.WellFormed) (hp : p.Normal) (content : List UInt8) :
    (fs.write p content).WellFormed :=
  h.put (h.targetOf hp) (.file content)

theorem WellFormed.makeDir (h : fs.WellFormed) (hp : p.Normal) : (fs.makeDir p).WellFormed := by
  unfold FileSystem.makeDir
  split
  · exact h
  · exact h.put (h.targetOf hp) (.dir_nil {})

theorem WellFormed.makeLink (h : fs.WellFormed) (hp : p.Normal) (target : String) :
    (fs.makeLink p target).WellFormed := by
  unfold FileSystem.makeLink
  split
  · exact h
  · rename_i hnul
    exact h.put (h.placeOf hp) (.link (Bool.eq_false_iff.mpr hnul))

theorem WellFormed.remove (h : fs.WellFormed) (p : Path) : (fs.remove p).WellFormed := by
  unfold FileSystem.remove
  split
  · exact h
  · rename_i hnode
    exact ⟨h.root.erase hnode, h.here⟩

theorem WellFormed.setAccess (h : fs.WellFormed) (p : Path) (listable searchable : Bool) :
    (fs.setAccess p listable searchable).WellFormed := by
  unfold FileSystem.setAccess
  split
  · rename_i entries info hl
    obtain ⟨hloc, hnode⟩ := h.lookup hl
    exact h.put hloc (hnode.dir_entries { info with listable, searchable })
  · exact h

theorem WellFormed.rename (h : fs.WellFormed) (p : Path) (hq : q.Normal) :
    (fs.rename p q).WellFormed := by
  unfold FileSystem.rename
  dsimp only
  split
  · rename_i node hnode ht
    have hnames := isEntryName_of_takes (h.placeOf hq) ht
    refine ⟨(h.root.erase hnode).set hnames (h.root.get? hnode).1, ?_⟩
    dsimp only
    split
    · exact (h.placeOf hq).append fun n hn => h.here n (List.drop_subset _ _ hn)
    · exact h.here
  · exact h

theorem WellFormed.changeDir (h : fs.WellFormed) (p : Path) : (fs.changeDir p).WellFormed := by
  unfold FileSystem.changeDir
  split
  · rename_i hl
    exact ⟨h.root, (h.lookup hl).1⟩
  · exact h

theorem WellFormed.deny (h : fs.WellFormed) (p : Path) : (fs.deny p).WellFormed :=
  ⟨h.root, h.here⟩

end FileSystem

end CommentTags

import CommentTags.Proofs.Files.Eligible
import CommentTags.Proofs.Files.Revised

namespace CommentTags

namespace Node

mutual

/-- The tree without its files at some locations. -/
def without (gone : Location → Bool) : Node → Node
  | file content => file content
  | link target => link target
  | dir entries info => dir (withoutEntries gone entries) info

def withoutEntries (gone : Location → Bool) : List (String × Node) → List (String × Node)
  | [] => []
  | (name, n) :: rest =>
    if n.isFile && gone [name] then withoutEntries gone rest
    else (name, without (fun loc => gone (name :: loc)) n) :: withoutEntries gone rest

end

variable {gone : Location → Bool} {n m : Node} {entries : List (String × Node)} {name : String}
  {loc : Location}

def isRemoved (gone : Location → Bool) (loc : Location) (n : Node) : Bool :=
  n.isFile && gone loc

def remains (gone : Location → Bool) (loc : Location) (n : Node) : Option Node :=
  if n.isRemoved gone loc then none else some (n.without fun more => gone (loc ++ more))

@[simp] theorem isFile_without : (n.without gone).isFile = n.isFile := by
  unfold without
  cases n <;> rfl

@[simp] theorem isLink_without : (n.without gone).isLink = n.isLink := by
  unfold without
  cases n <;> rfl

theorem withoutEntries_eq (gone : Location → Bool) (entries : List (String × Node)) :
    withoutEntries gone entries =
      (entries.filter fun e => !e.2.isRemoved gone [e.1]).map fun e =>
        (e.1, e.2.without fun loc => gone (e.1 :: loc)) := by
  induction entries with
  | nil => rw [withoutEntries, List.filter_nil, List.map_nil]
  | cons e entries ih =>
    obtain ⟨name, n⟩ := e
    rw [withoutEntries, List.filter_cons, isRemoved, ih]
    cases n.isFile && gone [name] <;> rfl

theorem lookup_withoutEntries (h : (entries.map Prod.fst).Nodup) :
    (withoutEntries gone entries).lookup name =
      (entries.lookup name).bind (remains gone [name]) := by
  induction entries with
  | nil => rw [withoutEntries]; rfl
  | cons e entries ih =>
    obtain ⟨key, n⟩ := e
    obtain ⟨hkey, hrest⟩ := List.nodup_cons.mp h
    rw [withoutEntries, lookup_cons_eq]
    by_cases heq : name = key
    · subst heq
      rw [if_pos rfl, Option.bind_some, remains, isRemoved]
      cases hr : n.isFile && gone [name] with
      | false => rw [if_neg Bool.false_ne_true, lookup_cons_eq, if_pos rfl]; rfl
      | true =>
        rw [if_pos rfl, if_pos rfl, ih hrest, Option.bind_eq_none_iff]
        intro m hm
        exact absurd (List.mem_map_of_mem (mem_of_lookup hm)) hkey
    · rw [if_neg heq]
      split
      · exact ih hrest
      · rw [lookup_cons_eq, if_neg heq]
        exact ih hrest

theorem reach?_of_isFile (h : n.isFile = true) (hloc : loc ≠ []) : n.reach? loc = none := by
  cases n with
  | file content =>
    obtain ⟨name, names, rfl⟩ := List.exists_cons_of_ne_nil hloc
    rfl
  | link target => cases h
  | dir entries info => cases h

theorem reach?_without (h : n.WellFormed) (hfile : n.isFile = false) (gone : Location → Bool)
    (loc : Location) :
    (n.without gone).reach? loc = (n.reach? loc).bind (remains gone loc) := by
  induction loc generalizing n gone with
  | nil =>
    rw [reach?, reach?, Option.bind_some, remains, isRemoved, hfile]
    rfl
  | cons name names ih =>
    cases n with
    | file content => cases hfile
    | link target => rw [without]; rfl
    | dir entries info =>
      rw [without, reach?_dir_cons, reach?_dir_cons]
      by_cases hs : info.searchable = true
      case neg => rw [if_neg hs, if_neg hs, Option.bind_none]
      rw [if_pos hs, if_pos hs, lookup_withoutEntries h.nodup_names]
      cases hm : entries.lookup name with
      | none => rfl
      | some m =>
        rw [Option.bind_some, Option.bind_some, remains]
        cases hf : m.isFile with
        | false =>
          rw [isRemoved, hf]
          exact ih (h.of_mem (mem_of_lookup hm)) hf _
        | true =>
          cases names with
          | nil =>
            rw [reach?, Option.bind_some, remains]
            split <;> rfl
          | cons name' names =>
            have hnone : ∀ k : Node, k.isFile = true → k.reach? (name' :: names) = none :=
              fun k hk => reach?_of_isFile hk (List.cons_ne_nil _ _)
            rw [hnone m hf]
            split
            · rfl
            · rw [Option.bind_some, hnone _ (isFile_without.trans hf)]
              rfl

end Node

namespace FileSystem

variable {fs : FileSystem} {gone : Location → Bool} {p q : Path} {loc : Location}

def withoutAt (fs : FileSystem) (gone : Location → Bool) : FileSystem :=
  { fs with root := fs.root.without gone }

theorem withoutAt_of_isFile (h : fs.root.isFile = true) : fs.withoutAt gone = fs := by
  obtain ⟨root, here, denied⟩ := fs
  cases root with
  | file content => rw [withoutAt, Node.without]
  | link target => cases h
  | dir entries info => cases h

/-- A tree without some of its files is the tree with these files revised, to none. -/
theorem revised_withoutAt (h : fs.root.WellFormed) (hroot : fs.root.isFile = false)
    (gone : Location → Bool) : Revised (Node.remains gone) fs (fs.withoutAt gone) where
  start _ := rfl
  reach? := Node.reach?_without h hroot gone
  file h := by
    obtain ⟨-, hn⟩ := Option.ite_none_left_eq_some.mp h
    rw [Node.without] at hn
    exact ⟨_, (Option.some.inj hn).symm⟩
  link _ _ := by rw [Node.remains, Node.without]; rfl
  dir _ entries _ := ⟨_, by rw [Node.remains, Node.without]; rfl⟩
  short hd he _ := ((h.reach? hd).isEntryName_of_mem he).short

def location? (fs : FileSystem) (p : Path) : Option Location :=
  ((fs.lookup true p).toOption).map Prod.fst

def leadsTo (fs : FileSystem) (gone : Location → Bool) (p : Path) : Bool :=
  (fs.location? p).any gone

section

variable (h : fs.root.WellFormed) (hroot : fs.root.isFile = false)

include h hroot

theorem node?_withoutAt {n : Node} (hn : fs.lookup true p = .ok (loc, n)) :
    (fs.withoutAt gone).node? p = n.remains gone loc := by
  rw [node?, ((revised_withoutAt h hroot gone).lookup true p).found, hn]
  simp only [Except.toOption, Option.bind_some, revise, Option.map_map]
  cases n.remains gone loc <;> rfl

theorem node?_withoutAt_of_error {e : LookupError} (hn : fs.lookup true p = .error e) :
    (fs.withoutAt gone).node? p = none := by
  rw [node?, ((revised_withoutAt h hroot gone).lookup true p).found, hn]
  rfl

theorem content?_withoutAt {content : List UInt8}
    (hn : fs.lookup true p = .ok (loc, .file content)) (hgone : gone loc = false) :
    (fs.withoutAt gone).content? p = some content := by
  rw [content?, node?_withoutAt h hroot hn, Node.remains, Node.isRemoved, hgone, Bool.and_false,
    if_neg Bool.false_ne_true, Node.without]

theorem entryIsDir_withoutAt (p : Path) (n : Node) (gone' : Location → Bool) :
    (fs.withoutAt gone).entryIsDir p (n.without gone') = fs.entryIsDir p n := by
  cases n with
  | file content => rfl
  | dir entries info => rfl
  | link target => exact (revised_withoutAt h hroot gone).isDir p

theorem isPlainFile_withoutAt (p : Path) :
    (fs.withoutAt gone).isPlainFile p = (fs.isPlainFile p && !fs.leadsTo gone p) := by
  rw [isPlainFile, isPlainFile, (revised_withoutAt h hroot gone).isLink, isFile, isFile, leadsTo,
    location?]
  cases hp : fs.lookup true p with
  | error e =>
    rw [node?_withoutAt_of_error h hroot hp, node?, hp]
    rfl
  | ok r =>
    obtain ⟨loc, n⟩ := r
    rw [node?_withoutAt h hroot hp, node?_eq_some_iff.mpr ⟨loc, hp⟩, Option.any_some, Node.remains,
      Node.isRemoved]
    dsimp only [Except.toOption, Option.map_some, Option.any_some]
    cases hf : n.isFile with
    | false =>
      rw [Bool.false_and, if_neg Bool.false_ne_true, Option.any_some, Node.isFile_without, hf]
      rfl
    | true =>
      rw [Bool.true_and]
      cases gone loc with
      | false =>
        rw [if_neg Bool.false_ne_true, Option.any_some, Node.isFile_without, hf, Bool.not_false,
          Bool.and_true]
      | true =>
        rw [if_pos rfl, Bool.not_true, Bool.and_false]
        rfl

end

end FileSystem

end CommentTags

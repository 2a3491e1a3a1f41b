import CommentTags.Proofs.Files.WellFormed

namespace CommentTags

namespace FileSystem

variable {fs fs' : FileSystem} {f : Location → Node → Option Node} {loc : Location}
  {entries : List (String × Node)} {info : DirInfo}

/-- What is reached at each location of the second file system is made of what is reached there in
the first. -/
structure Revised (f : Location → Node → Option Node) (fs fs' : FileSystem) : Prop where
  start (p : Path) : fs'.start p = fs.start p
  reach? (loc : Location) : fs'.root.reach? loc = (fs.root.reach? loc).bind (f loc)
  file {loc : Location} {content : List UInt8} {n : Node} (h : f loc (.file content) = some n) :
    ∃ content', n = .file content'
  link (loc : Location) (target : String) : f loc (.link target) = some (.link target)
  dir (loc : Location) (entries : List (String × Node)) (info : DirInfo) :
    ∃ entries', f loc (.dir entries info) = some (.dir entries' info)
  short {loc : Location} {entries : List (String × Node)} {info : DirInfo} {e : String × Node}
    (h : fs.root.reach? loc = some (.dir entries info)) (he : e ∈ entries)
    (hgone : f (loc ++ [e.1]) e.2 = none) : isTooLong e.1 = false

def revise (f : Location → Node → Option Node) (r : Location × Node) : Option (Location × Node) :=
  (f r.1 r.2).map (r.1, ·)

/-- The second lookup finds what the first one does, revised, and is refused where the first is. -/
structure Mirrors (f : Location → Node → Option Node)
    (r r' : Except LookupError (Location × Node)) : Prop where
  found : r'.toOption = r.toOption.bind (revise f)
  denied : r' = .error .denied ↔ r = .error .denied
  nameTooLong : r' = .error .nameTooLong ↔ r = .error .nameTooLong

theorem Mirrors.of_error {e e' : LookupError} (hdenied : e' = .denied ↔ e = .denied)
    (hlong : e' = .nameTooLong ↔ e = .nameTooLong) : Mirrors f (.error e) (.error e') where
  found := rfl
  denied := by rw [Except.error.injEq, Except.error.injEq, hdenied]
  nameTooLong := by rw [Except.error.injEq, Except.error.injEq, hlong]

theorem Mirrors.error (e : LookupError) : Mirrors f (.error e) (.error e) :=
  .of_error Iff.rfl Iff.rfl

theorem Mirrors.of_some {n n' : Node} (h : f loc n = some n') :
    Mirrors f (.ok (loc, n)) (.ok (loc, n')) where
  found := by
    simp only [Except.toOption, Option.bind_some, revise, h, Option.map_some]
  denied := ⟨nofun, nofun⟩
  nameTooLong := ⟨nofun, nofun⟩

theorem Mirrors.of_none {n : Node} (h : f loc n = none) :
    Mirrors f (.ok (loc, n)) (.error .missing) where
  found := by
    simp only [Except.toOption, Option.bind_some, revise, h, Option.map_none]
  denied := ⟨nofun, nofun⟩
  nameTooLong := ⟨nofun, nofun⟩

theorem lookupFrom_of_none {follow : Bool} {links : Nat} {names : List String}
    (h : fs.root.reach? loc = none) : fs.lookupFrom follow links loc names = .error .missing := by
  cases names <;> rw [lookupFrom, h]

namespace Revised

variable (h : Revised f fs fs')

include h

theorem reach?_dir (hd : fs.root.reach? loc = some (.dir entries info))
    (hs : info.searchable = true) :
    ∃ entries', fs'.root.reach? loc = some (.dir entries' info) ∧
      ∀ name, entries'.lookup name = (entries.lookup name).bind (f (loc ++ [name])) := by
  obtain ⟨entries', hf⟩ := h.dir loc entries info
  have hd' : fs'.root.reach? loc = some (.dir entries' info) := by
    rw [h.reach?, hd, Option.bind_some, hf]
  refine ⟨entries', hd', fun name => ?_⟩
  rw [← reach?_concat fs' hd' hs, h.reach?, reach?_concat fs hd hs]

theorem reach?_dir_link {name target : String} (hd : fs.root.reach? loc = some (.dir entries info))
    (hs : info.searchable = true) (he : entries.lookup name = some (.link target)) :
    ∃ entries', fs'.root.reach? loc = some (.dir entries' info) ∧
      entries'.lookup name = some (.link target) := by
  obtain ⟨entries', hd', hentries⟩ := h.reach?_dir hd hs
  exact ⟨entries', hd', by rw [hentries, he, Option.bind_some, h.link]⟩

theorem isLink_eq_false {n n' : Node} (hn : n.isLink = false) (hf : f loc n = some n') :
    n'.isLink = false := by
  cases n with
  | file content =>
    obtain ⟨content', rfl⟩ := h.file hf
    rfl
  | link target => cases hn
  | dir entries info =>
    obtain ⟨entries', hdir⟩ := h.dir loc entries info
    cases hdir.symm.trans hf
    rfl

theorem lookupFrom (follow : Bool) (links : Nat) (loc : Location) (names : List String) :
    Mirrors f (fs.lookupFrom follow links loc names) (fs'.lookupFrom follow links loc names) := by
  fun_induction FileSystem.lookupFrom fs follow links loc names with
  | case1 links loc node hd =>
    rw [FileSystem.lookupFrom, h.reach?, hd, Option.bind_some]
    cases hf : f loc node with
    | none => exact .of_none hf
    | some n => exact .of_some hf
  | case2 links loc hd =>
    rw [lookupFrom_of_none (by rw [h.reach?, hd, Option.bind_none])]
    exact .error _
  | case3 links loc name names hd =>
    rw [lookupFrom_of_none (by rw [h.reach?, hd, Option.bind_none])]
    exact .error _
  | case4 links loc name names content hd =>
    have hget : fs'.root.reach? loc = f loc (.file content) := by
      rw [h.reach?, hd, Option.bind_some]
    cases hf : f loc (.file content) with
    | none =>
      rw [lookupFrom_of_none (hget.trans hf)]
      exact .of_error (by decide) (by decide)
    | some n =>
      obtain ⟨content', rfl⟩ := h.file hf
      rw [FileSystem.lookupFrom, hget, hf]
      exact .error _
  | case5 links loc name names target hd =>
    rw [FileSystem.lookupFrom, h.reach?, hd, Option.bind_some, h.link]
    exact .error _
  | case6 links loc name names entries info hd hs =>
    obtain ⟨entries', hf⟩ := h.dir loc entries info
    have hd' : fs'.root.reach? loc = some (.dir entries' info) := by
      rw [h.reach?, hd, Option.bind_some, hf]
    rw [lookupFrom_of_unsearchable fs' hd' (by simpa using hs)]
    exact .error _
  | case7 links loc names entries info hd hs ih =>
    have hs := searchable_of_not hs
    obtain ⟨entries', hd', -⟩ := h.reach?_dir hd hs
    rw [lookupFrom_dot fs' hd' hs]
    exact ih
  | case8 links loc names entries info hd hs _ ih =>
    have hs := searchable_of_not hs
    obtain ⟨entries', hd', -⟩ := h.reach?_dir hd hs
    rw [lookupFrom_dotdot fs' hd' hs]
    exact ih
  | case9 links loc name names entries info hd hs h1 h2 he =>
    have hs := searchable_of_not hs
    obtain ⟨entries', hd', hentries⟩ := h.reach?_dir hd hs
    rw [lookupFrom_none fs' hd' hs h1 h2 (by rw [hentries, he, Option.bind_none])]
    exact .error _
  | case10 links loc name names entries info hd hs h1 h2 target he hn =>
    obtain ⟨rfl, hfollow⟩ := hn
    obtain rfl : follow = false := by simpa using hfollow
    have hs := searchable_of_not hs
    obtain ⟨entries', hd', he'⟩ := h.reach?_dir_link hd hs he
    rw [lookupFrom_last_link fs' hd' hs h1 h2 he']
    exact .of_some (h.link _ _)
  | case11 loc name names entries info hd hs h1 h2 target he hn =>
    have hs := searchable_of_not hs
    obtain ⟨entries', hd', he'⟩ := h.reach?_dir_link hd hs he
    rw [FileSystem.lookupFrom, hd']
    simp only [hs, Bool.not_true, Bool.false_eq_true, h1, h2, if_false, he', hn]
    exact .error _
  | case12 loc name names entries info hd hs h1 h2 target he hn links ih =>
    have hs := searchable_of_not hs
    obtain ⟨entries', hd', he'⟩ := h.reach?_dir_link hd hs he
    rw [lookupFrom_link fs' hd' hs h1 h2 he' hn]
    exact ih
  | case13 links loc name names entries info hd hs h1 h2 node hl he ih =>
    have hs := searchable_of_not hs
    obtain ⟨entries', hd', hentries⟩ := h.reach?_dir hd hs
    have he' : entries'.lookup name = f (loc ++ [name]) node := by
      rw [hentries, he, Option.bind_some]
    cases hf : f (loc ++ [name]) node with
    | some n =>
      rw [lookupFrom_entry fs' hd' hs h1 h2 (he'.trans hf)
        (h.isLink_eq_false (Node.isLink_eq_false hl) hf)]
      exact ih
    | none =>
      have hnone : fs'.root.reach? (loc ++ [name]) = none := by
        rw [reach?_concat fs' hd' hs, he', hf]
      have hshort : isTooLong name = false := h.short hd (mem_of_lookup he) hf
      rw [lookupFrom_none fs' hd' hs h1 h2 (he'.trans hf), hshort]
      rwa [lookupFrom_of_none hnone] at ih

theorem lookup (follow : Bool) (p : Path) :
    Mirrors f (fs.lookup follow p) (fs'.lookup follow p) := by
  rw [FileSystem.lookup, FileSystem.lookup, h.start]
  split
  · exact .error _
  · exact h.lookupFrom follow maxLinks (fs.start p) p.names

theorem any_lookup {P : Node → Bool} (hP : ∀ loc n, (f loc n).any P = P n) (follow : Bool)
    (p : Path) :
    ((fs'.lookup follow p).toOption.map Prod.snd).any P =
      ((fs.lookup follow p).toOption.map Prod.snd).any P := by
  rw [(h.lookup follow p).found]
  cases fs.lookup follow p with
  | error e => rfl
  | ok r =>
    obtain ⟨loc, n⟩ := r
    simp only [Except.toOption, Option.bind_some, revise, Option.map_map, Option.map_some]
    exact (Option.any_map ..).trans (hP loc n)

theorem isDir (p : Path) : fs'.isDir p = fs.isDir p := by
  refine h.any_lookup (fun loc n => ?_) true p
  cases n with
  | file content =>
    cases hf : f loc (.file content) with
    | none => rfl
    | some n =>
      obtain ⟨content', rfl⟩ := h.file hf
      rfl
  | link target => rw [h.link]; rfl
  | dir entries info =>
    obtain ⟨entries', hdir⟩ := h.dir loc entries info
    rw [hdir]
    rfl

theorem isLink (p : Path) : fs'.isLink p = fs.isLink p := by
  refine h.any_lookup (fun loc n => ?_) false p
  cases hl : n.isLink with
  | false =>
    cases hf : f loc n with
    | none => rfl
    | some n' => exact h.isLink_eq_false hl hf
  | true =>
    cases n with
    | link target => rw [h.link]; rfl
    | file content => cases hl
    | dir entries info => cases hl

theorem refusal? (follow : Bool) (p : Path) : fs'.refusal? follow p = fs.refusal? follow p := by
  have hmirrors := h.lookup follow p
  rw [FileSystem.refusal?, FileSystem.refusal?]
  split
  · rename_i hdenied
    rw [hmirrors.denied.mp hdenied]
  · rename_i hlong
    rw [hmirrors.nameTooLong.mp hlong]
  · rename_i hdenied hlong
    split
    · rename_i hdenied'
      exact absurd (hmirrors.denied.mpr hdenied') hdenied
    · rename_i hlong'
      exact absurd (hmirrors.nameTooLong.mpr hlong') hlong
    · rfl

theorem startRefusal? (p : Path) : startRefusal? fs' p = startRefusal? fs p := by
  rw [CommentTags.startRefusal?, CommentTags.startRefusal?, h.refusal?]

end Revised

end FileSystem

end CommentTags

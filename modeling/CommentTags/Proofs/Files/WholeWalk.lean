import CommentTags.Proofs.Files.Eligible
import CommentTags.Proofs.Path

namespace CommentTags

variable {fs : FileSystem} {p q : Path} {names : List String} {entries : List (String × Node)}
  {info : DirInfo} {e : PathError}

theorem walkSteps_ordered (hfs : fs.root.WellFormed) (p : Path) :
    (walkSteps fs p).Pairwise (InOrder fs p) := by
  unfold walkSteps
  split
  · exact List.pairwise_singleton _ _
  · split
    · split
      · exact List.Pairwise.nil
      · exact List.pairwise_singleton _ _
    · rename_i hnode
      obtain ⟨loc, hp, -⟩ := FileSystem.entries_of_node? hfs hnode
      exact walkDir_ordered hfs hp
    · exact List.Pairwise.nil

theorem pairwise_files (hfs : fs.root.WellFormed) (p : Path) :
    ((walkSteps fs p).filterMap Except.toOption).Pairwise fun q q' =>
      ∃ names names', q = p.below names ∧ q' = p.below names' ∧ Precedes fs p names names' := by
  refine List.pairwise_filterMap.mpr ((walkSteps_ordered hfs p).imp ?_)
  rintro step step' ⟨names, names', hmeets, hmeets', h⟩ q hq q' hq'
  cases step with
  | error e => cases hq
  | ok file =>
    cases step' with
    | error e => cases hq'
    | ok file' =>
      obtain rfl := Option.some.inj hq
      obtain rfl := Option.some.inj hq'
      exact ⟨names, names', ((meets_ok_iff hfs).mp hmeets).2, ((meets_ok_iff hfs).mp hmeets').2, h⟩

theorem files_nodup (hfs : fs.root.WellFormed) (p : Path) :
    ((walkSteps fs p).filterMap Except.toOption).Nodup := by
  refine (pairwise_files hfs p).imp ?_
  rintro _ _ ⟨names, names', rfl, rfl, h⟩ heq
  exact h.ne hfs (p.below_injective heq)

theorem walk_nodup (hfs : fs.root.WellFormed) (p : Path) : (walk fs p).Nodup :=
  (files_nodup hfs p).sublist (untilError_isPrefix _).sublist

/-- The files, taken once each, can be put in order in one way only. -/
theorem IsWalk.unique {files files' : List Path} (hfs : fs.root.WellFormed)
    (h : IsWalk fs p files) (h' : IsWalk fs p files') : files = files' := by
  refine List.Perm.eq_of_pairwise ?_ h.ordered h'.ordered ?_
  · rintro q q' - - ⟨names, names', rfl, rfl, hlt⟩ ⟨more', more, heq', heq, hgt⟩
    obtain rfl := p.below_injective heq
    obtain rfl := p.below_injective heq'
    exact absurd hgt (hlt.asymm hfs)
  · rw [List.perm_ext_iff_of_nodup h.nodup h'.nodup]
    exact fun q => (h.mem_iff q).trans (h'.mem_iff q).symm

theorem Refused.unique {names' : List String} (h : Refused fs p names) (h' : Refused fs p names')
    (heq : (p.below names).toString = (p.below names').toString) : names = names' :=
  Path.toString_below_injective h.ne_nil h'.ne_nil
    (fun name hname => (h.isName name hname).toIsName)
    (fun name hname => (h'.isName name hname).toIsName) heq

end CommentTags

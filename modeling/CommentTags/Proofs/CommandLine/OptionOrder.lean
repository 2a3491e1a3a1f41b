import CommentTags.Proofs.CommandLine.Arguments
import CommentTags.Proofs.CommandLine.Shown

namespace CommentTags.CommandLine

open Search (smallTree)

variable {paths : List String} {gs gs' : List OptionGroup}

theorem filterMap_keyword?_filter (gs : List OptionGroup) :
    (gs.filter (·.flag = .tag)).filterMap OptionGroup.keyword? =
      gs.filterMap OptionGroup.keyword? := by
  rw [List.filterMap_filter]
  refine List.filterMap_congr fun g _ => ?_
  by_cases hflag : g.flag = .tag <;> simp [OptionGroup.keyword?, hflag]

theorem alike_settingsOf (hperm : gs.Perm gs')
    (htags : gs.filter (·.flag = .tag) = gs'.filter (·.flag = .tag)) :
    (settingsOf paths gs).Alike (settingsOf paths gs') where
  paths := rfl
  levels l := by
    apply List.Perm.mem_iff
    exact (hperm.filterMap _).symm
  tag := by
    dsimp only [settingsOf]
    rw [← filterMap_keyword?_filter gs', ← htags, filterMap_keyword?_filter]
  noIgnore := hperm.symm.any_eq
  noBlame := hperm.symm.any_eq

/-- Options that are put in another order around the paths make no difference, as long as those for
keywords follow each other as before. -/
theorem run_reordered (fs : FileSystem) (zone : Int) (interrupt : Option Nat) (paths : List String)
    (before after before' after' : List OptionGroup) (hpaths : ∀ p ∈ paths, IsPlain p)
    (hperm : (before ++ after).Perm (before' ++ after'))
    (htags : (before ++ after).filter (·.flag = .tag) =
      (before' ++ after').filter (·.flag = .tag)) :
    parse (argumentsAround before paths after) = .ok (settingsOf paths (before ++ after)) ∧
    parse (argumentsAround before' paths after') = .ok (settingsOf paths (before' ++ after')) ∧
    run fs zone (argumentsAround before paths after) interrupt =
      run fs zone (argumentsAround before' paths after') interrupt := by
  have hparse := parse_groups before after hpaths
  have hparse' := parse_groups before' after' hpaths
  refine ⟨hparse, hparse', ?_⟩
  have halike : (settingsOf paths (before ++ after)).Alike (settingsOf paths (before' ++ after')) :=
    alike_settingsOf hperm htags
  have hjson : (settingsOf paths (before' ++ after')).json =
      (settingsOf paths (before ++ after)).json := hperm.symm.any_eq
  have hverbose : (settingsOf paths (before' ++ after')).verbose =
      (settingsOf paths (before ++ after)).verbose := hperm.symm.any_eq
  unfold run
  rw [hparse, hparse']
  dsimp only
  rw [halike.roots_eq, halike.searchAndWrite_eq hjson hverbose]

def levelOption : OptionGroup where
  spelling := "-l"
  flag := .levels
  value := some "Fix"
  spelled := by decide
  notHelp := by decide
  value_isSome := rfl
  value_plain := by decide
  value_named := by decide

def jsonOption : OptionGroup where
  spelling := "--json"
  flag := .json
  value := none
  spelled := by decide
  notHelp := by decide
  value_isSome := rfl
  value_plain := by simp
  value_named := by simp

theorem run_smallTree_reordered :
    IsPlain "a.c" ∧
    run smallTree 0 ["-l", "Fix", "--tag", "hack", "a.c", "--tag", "todo", "--json"] none =
      run smallTree 0 ["--json", "a.c", "-l", "Fix", "--tag", "hack", "--tag", "todo"] none ∧
    parse ["--json", "a.c", "-l", "Fix", "--tag", "hack", "--tag", "todo"] =
      .ok ⟨["a.c"], [.fix], some "todo", false, false, true, false⟩ := by
  have hpath : IsPlain "a.c" := by decide
  have hhack : IsPlain "hack" := by decide
  have htodo : IsPlain "todo" := by decide
  have hperm : ([levelOption, keywordOption "hack" hhack, keywordOption "todo" htodo] ++
      [jsonOption]).Perm ([jsonOption] ++
        [levelOption, keywordOption "hack" hhack, keywordOption "todo" htodo]) :=
    List.perm_append_comm
  obtain ⟨-, hparse, hrun⟩ := run_reordered smallTree 0 none ["a.c"]
    [levelOption, keywordOption "hack" hhack] [keywordOption "todo" htodo, jsonOption]
    [jsonOption] [levelOption, keywordOption "hack" hhack, keywordOption "todo" htodo]
    (List.forall_mem_singleton.mpr hpath) hperm rfl
  exact ⟨hpath, hrun, hparse⟩

end CommentTags.CommandLine

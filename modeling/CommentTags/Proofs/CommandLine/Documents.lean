import CommentTags.Proofs.CommandLine.Outcome

namespace CommentTags.CommandLine

open Report (tagJson tagOf?)
open Search (committedTree committedTags)
open Search.Results (ofEvents)

/-- The document of a run that ends well holds one row for each tag that is shown, in their order.
The tag can be read from its row, so that different tags have different rows. -/
theorem run_document_lossless (fs : FileSystem) (zone : Int) (arguments : List String)
    (interrupt : Option Nat) (s : Settings) (outcome : Outcome) (hfs : fs.root.WellFormed)
    (hs : parse arguments = .ok s) (hjson : s.json = true)
    (hrun : run fs zone arguments interrupt = .ok outcome) (hcode : outcome.code = 0) :
    Report.Json.read? outcome.output.toList = some (.arr ((s.shown fs).map tagJson)) ∧
      (∀ t ∈ s.shown fs, tagOf? (tagJson t) = some t) ∧
      ∀ t ∈ s.shown fs, ∀ u ∈ s.shown fs, tagJson t = tagJson u → t = u := by
  have hwf : ∀ t ∈ s.shown fs, t.WellFormed := Settings.wellFormed_of_mem_shown hfs
  refine ⟨read?_of_run hs hjson hrun hcode, fun t ht => ?_, fun t ht u hu => ?_⟩
  · exact Report.tagOf?_tagJson (hwf t ht)
  · exact Report.tagJson_injective (hwf t ht) (hwf u hu)

def committedProvenance : Provenance :=
  ⟨⟨1700000000, 0, by decide, by decide, by decide⟩, "Ada"⟩

theorem ofEvents_run_committedTree :
    ofEvents (Search.run (committedTree 1700000000) ⟨true, true⟩ ["."]) =
      ⟨committedTags.map fun t => { t with provenance := some committedProvenance }, [], none⟩ := by
  rw [Search.run_committedTree]
  cbv

theorem run_committedTree_document :
    (committedTree 1700000000).root.WellFormed ∧
    parse ["--json"] = .ok ⟨[], [], none, false, false, true, false⟩ ∧
    ∃ outcome, run (committedTree 1700000000) 60 ["--json"] none = .ok outcome ∧
      outcome.code = 0 ∧
      Report.Json.read? outcome.output.toList =
        some (.arr (committedTags.map fun t =>
          tagJson { t with provenance := some committedProvenance })) := by
  have hwf := Search.committedTree_wellFormed 1700000000
  have hparse : parse ["--json"] = .ok ⟨[], [], none, false, false, true, false⟩ := by decide
  have hexist : ∀ p ∈ [Path.ofString "."], (committedTree 1700000000).pathExists p = true :=
    List.forall_mem_singleton.mpr (by cbv)
  have hsearch := ofEvents_run_committedTree
  obtain ⟨outcome, hrun, hcode⟩ :=
    exists_run_eq_ok hparse hexist rfl (congrArg Search.Results.failure hsearch) 60
  obtain ⟨hread, -⟩ := run_document_lossless _ _ _ _ _ _ hwf hparse rfl hrun hcode
  have hfound : Settings.found ⟨[], [], none, false, false, true, false⟩
      (committedTree 1700000000) = _ := congrArg Search.Results.tags hsearch
  refine ⟨hwf, hparse, outcome, hrun, hcode, ?_⟩
  rw [hread, Settings.shown, hfound, ← Settings.filter_shows]
  rfl

end CommentTags.CommandLine

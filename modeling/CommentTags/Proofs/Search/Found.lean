import CommentTags.Proofs.Path
import CommentTags.Proofs.Search.Unreadable

namespace CommentTags

namespace Kind

theorem lookup_keywords_mem {key : String} {k : Kind} (h : keywords.lookup key = some k) :
    k ∈ keywords.map Prod.snd :=
  List.mem_map_of_mem (mem_of_lookup h)

theorem ofKeyword_text (s : String) : ofKeyword (ofKeyword s).text = ofKeyword s := by
  have hknown : ∀ k ∈ keywords.map Prod.snd, ofKeyword k.text = k := by decide
  cases h : keywords.lookup (Text.caselessKey s) with
  | none =>
    have hs : ofKeyword s = custom s := by rw [ofKeyword, h, Option.getD_none]
    rw [hs, text, hs]
  | some k =>
    have hs : ofKeyword s = k := by rw [ofKeyword, h, Option.getD_some]
    rw [hs, hknown k (lookup_keywords_mem h)]

theorem text_ofKeyword {P : String → Prop} {s : String}
    (hknown : ∀ k ∈ keywords.map Prod.snd, P k.text) (hs : P s) : P (ofKeyword s).text := by
  cases h : keywords.lookup (Text.caselessKey s) with
  | none => rwa [ofKeyword, h, Option.getD_none]
  | some k =>
    rw [ofKeyword, h, Option.getD_some]
    exact hknown k (lookup_keywords_mem h)

theorem newline_not_mem_text {s : String} (h : '\n' ∉ s.toList) :
    '\n' ∉ (ofKeyword s).text.toList :=
  text_ofKeyword (P := fun s => '\n' ∉ s.toList) (by decide) h

end Kind

structure Tag.WellFormed (t : Tag) : Prop where
  path : t.path.Normal
  kind : Kind.ofKeyword t.kind.text = t.kind
  kind_oneLine : '\n' ∉ t.kind.text.toList
  message_oneLine : '\n' ∉ t.message.toList

theorem Text.strip_subset (s : List Char) : strip s ⊆ s := by
  intro c hc
  have hleft : ∀ w : List Char, stripLeft w ⊆ w := fun w =>
    (List.dropWhile_sublist isBlank).subset
  rw [strip, stripRight, List.mem_reverse] at hc
  exact hleft s (List.mem_reverse.mp (hleft _ hc))

namespace Marker

open Text (strip_subset)

theorem beforeCloser?_subset {s w : List Char} (h : beforeCloser? s = some w) : w ⊆ s := by
  unfold beforeCloser? at h
  split at h
  · rename_i rest hrest
    obtain rfl := Option.some.inj h
    intro c hc
    rw [← List.mem_reverse, hrest]
    exact List.mem_cons_of_mem _ (List.mem_cons_of_mem _ (List.mem_reverse.mp hc))
  · cases h

theorem tidyMessage_subset (raw : List Char) : tidyMessage raw ⊆ raw := by
  unfold tidyMessage
  split
  · rename_i w hw
    exact fun c hc => strip_subset raw (beforeCloser?_subset hw (strip_subset w hc))
  · exact strip_subset raw

end Marker

theorem HasTag.wellFormed {p : Path} {n : Nat} {line : List Char} {g : Grammar} {t : Tag}
    (h : HasTag p n line g t) (hp : p.Normal) (hline : '\n' ∉ line.dropLast) : t.WellFormed := by
  cases h with
  | call hs =>
    have hkind : Kind.ofKeyword Kind.todoCall.text = .todoCall := by decide
    have htext : '\n' ∉ Kind.todoCall.text.toList := by decide
    refine ⟨hp, hkind, htext, ?_⟩
    rw [String.toList_ofList]
    exact Marker.newline_not_mem_of_firstCall hline hs
  | @comment g pre d _ hd _ =>
    have hkeyword : '\n' ∉ d.keyword := fun hmem => by
      have hchar := d.keyword_chars _ hmem
      revert hchar
      decide
    refine ⟨hp, Kind.ofKeyword_text _, Kind.newline_not_mem_text ?_, ?_⟩
    · rwa [String.toList_ofList]
    · rw [String.toList_ofList]
      exact fun hmem => d.message_oneLine (Marker.tidyMessage_subset _ hmem)

namespace Search

open Results (ofEvents)

variable {fs : FileSystem} {o : Options} {root : String} {roots : List String} {p : Path} {t : Tag}

theorem normal_of_mem_walk (hfs : fs.root.WellFormed) {q : Path} (hq : q.Normal)
    (hp : p ∈ walk fs q) : p.Normal := by
  obtain ⟨loc, more, content, -, rfl, hlookup⟩ := lookup_of_mem_walk hfs hp
  have hnames := hfs.isEntryName_of_reach? (FileSystem.lookup_reach? hlookup)
  intro name hname
  obtain hname | hname := List.mem_append.mp hname
  · exact hq name hname
  · have hisName := hnames name (List.mem_append_right loc hname)
    exact ⟨hisName.toIsComponent, hisName.ne_dot⟩

theorem scanTags_of_hasText {s : List Char} (h : fs.HasText p s) :
    scanTags fs p = fileTags (fun _ => s) p := by
  unfold scanTags fileTags
  cases Grammar.ofPath? p with
  | none => rfl
  | some g => exact congrArg Prod.fst (scanFile_of_hasText h)

theorem exists_mem_fileTags (hfs : fs.root.WellFormed) (hp : p ∈ walk fs (.ofString root))
    (ht : t ∈ scanTags fs p) : ∃ text, t ∈ fileTags (fun _ => text) p := by
  obtain ⟨bytes, hcontent⟩ := exists_content?_of_mem_walk hfs hp
  by_cases hdenied : p.toString ∈ fs.denied
  · rw [scanTags_of_denied hdenied] at ht
    cases ht
  · by_cases htext : ∃ text, bytes = Text.Utf8.encode text
    · obtain ⟨text, rfl⟩ := htext
      exact ⟨text, scanTags_of_hasText ⟨hdenied, hcontent⟩ ▸ ht⟩
    · exact ⟨_, (scanTags_prefix_of_invalid hcontent (not_exists.mp htext)).subset ht⟩

theorem wellFormed_of_mem_scanTags (hfs : fs.root.WellFormed)
    (hp : p ∈ walk fs (.ofString root)) (ht : t ∈ scanTags fs p) : t.WellFormed := by
  obtain ⟨text, ht⟩ := exists_mem_fileTags hfs hp ht
  obtain ⟨g, -, i, line, hline, ht⟩ := mem_fileTags.mp ht
  refine ht.wellFormed (normal_of_mem_walk hfs (Path.ofString_normal root) hp) ?_
  exact (Text.isCut_cut '\n' text).lf_last line (List.mem_of_getElem? hline)

theorem mem_scanTags_of_mem_visit {repo : Option Git.Handle}
    (ht : t ∈ (ofEvents (visit fs o repo p)).tags) : t.withoutProvenance ∈ scanTags fs p := by
  obtain ⟨ignore, blame⟩ := o
  rw [visit_eq] at ht
  split at ht
  · cases ht
  · have hplain : (ofEvents (visit fs ⟨false, false⟩ repo p)).tags = scanTags fs p := by
      rw [ofEvents_visit_plain]
    cases blame with
    | false =>
      rw [hplain] at ht
      rwa [Tag.withoutProvenance_of_none (place_of_mem_scanTags ht).2]
    | true =>
      obtain ⟨-, -, hfollows, -⟩ := visit_blame fs false repo p
      rw [← hplain]
      exact hfollows.tags.subset (List.mem_map_of_mem ht)

theorem exists_of_mem_run (hfs : fs.root.WellFormed) (ht : t ∈ (ofEvents (run fs o roots)).tags) :
    ∃ root ∈ roots, ∃ p ∈ walk fs (.ofString root), t.withoutProvenance ∈ scanTags fs p := by
  rw [run_flatMap] at ht
  obtain ⟨root, hroot, ht⟩ := Results.mem_tags_flatMap ht
  rw [ofEvents_run o (rootSteps_eq o hfs)] at ht
  obtain ht | ht := Results.mem_tags_append ht
  · rw [Results.ofEvents_notices] at ht
    cases ht
  obtain ht | ht := Results.mem_tags_append ht
  · obtain ⟨p, hp, ht⟩ := Results.mem_tags_flatMap ht
    exact ⟨root, hroot, p, hp, mem_scanTags_of_mem_visit ht⟩
  · cases hrefusal : walkRefusal? fs (.ofString root) with
    | none => rw [hrefusal] at ht; cases ht
    | some e => rw [hrefusal] at ht; cases ht

theorem wellFormed_of_mem_run (hfs : fs.root.WellFormed)
    (ht : t ∈ (ofEvents (run fs o roots)).tags) : t.WellFormed := by
  obtain ⟨root, -, p, hp, ht⟩ := exists_of_mem_run hfs ht
  obtain ⟨hpath, hkind, hkindLine, hmessageLine⟩ := wellFormed_of_mem_scanTags hfs hp ht
  exact ⟨hpath, hkind, hkindLine, hmessageLine⟩

end Search

end CommentTags

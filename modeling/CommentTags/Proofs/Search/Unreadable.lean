import CommentTags.Proofs.Files.Remaining
import CommentTags.Proofs.Scan.Bytes
import CommentTags.Proofs.Search.Complete
import CommentTags.Proofs.Search.Switches

namespace CommentTags

open Text.Utf8 (encode leadingText leadingText_encode LongestText longestText_iff)

/-- The file at a path may be opened, and what it holds is UTF-8. -/
def FileSystem.IsReadable (fs : FileSystem) (p : Path) : Prop :=
  ∃ text, fs.HasText p text

theorem FileSystem.isReadable_iff {fs : FileSystem} {p : Path} :
    fs.IsReadable p ↔ p.toString ∉ fs.denied ∧
      fs.content? p = some (encode (leadingText ((fs.content? p).getD []))) := by
  constructor
  · rintro ⟨text, hopen, hcontent⟩
    refine ⟨hopen, ?_⟩
    rw [hcontent, Option.getD_some, leadingText_encode]
  · rintro ⟨hopen, hcontent⟩
    exact ⟨_, hopen, hcontent⟩

instance (fs : FileSystem) (p : Path) : Decidable (fs.IsReadable p) :=
  decidable_of_iff _ FileSystem.isReadable_iff.symm

namespace Search

open Results (ofEvents)

variable {fs : FileSystem} {root : String} {p q : Path} {g : Grammar} {t : Tag} {ps : List Path}

/-- A source is a file whose grammar is known. No other file is opened. -/
def IsSource (p : Path) : Prop :=
  (Grammar.ofPath? p).isSome = true

instance (p : Path) : Decidable (IsSource p) :=
  inferInstanceAs (Decidable (_ = true))

def plainSearch (fs : FileSystem) (root : String) : Results :=
  ofEvents (run fs .withoutRepository [root])

theorem scanTags_of_not_isSource (h : ¬ IsSource p) : scanTags fs p = [] := by
  rw [IsSource, Option.not_isSome_iff_eq_none] at h
  unfold scanTags
  rw [h]

theorem readFailures_of_not_isSource (h : ¬ IsSource p) : readFailures fs p = [] := by
  rw [IsSource, Option.not_isSome_iff_eq_none] at h
  unfold readFailures
  rw [h]

theorem scanTags_of_grammar (h : Grammar.ofPath? p = some g) :
    scanTags fs p = (scanFile fs g p).1 := by
  unfold scanTags
  rw [h]

theorem readFailures_of_grammar (h : Grammar.ofPath? p = some g) :
    readFailures fs p =
      ((scanFile fs g p).2.map fun e => .unreadable p.toString e.message).toList := by
  unfold readFailures
  rw [h]
  dsimp only
  cases (scanFile fs g p).2 <;> rfl

theorem scanFile_of_denied (h : p.toString ∈ fs.denied) :
    scanFile fs g p = ([], some (.denied p.toString)) := by
  rw [scanFile, if_pos h]

theorem scanFile_of_invalid {bytes : List UInt8} (hopen : p.toString ∉ fs.denied)
    (hcontent : fs.content? p = some bytes) (h : ∀ text, bytes ≠ encode text) :
    (scanFile fs g p).1 <+: (Scanner.start g p (TextStream.ofList (leadingText bytes))).collect.1 ∧
      ∃ e, (scanFile fs g p).2 = some (.encoding e) := by
  have hflat := Readings.chunksOf_flatten 8191 bytes
  have hinvalid : ∀ text, (Readings.chunksOf 8191 bytes).flatten ≠ encode text := by rwa [hflat]
  have hscan := Scanner.collect_ofChunks_of_invalid g p hinvalid
  rw [hflat] at hscan
  rw [scanFile, if_neg hopen, hcontent]
  exact hscan

theorem scanTags_of_denied (h : p.toString ∈ fs.denied) : scanTags fs p = [] := by
  unfold scanTags
  split
  · rfl
  · rw [scanFile_of_denied h]

theorem scanTags_prefix_of_invalid {bytes : List UInt8} (hcontent : fs.content? p = some bytes)
    (h : ∀ text, bytes ≠ encode text) :
    scanTags fs p <+: fileTags (fun _ => leadingText bytes) p := by
  by_cases hdenied : p.toString ∈ fs.denied
  · rw [scanTags_of_denied hdenied]
    exact List.nil_prefix
  · unfold scanTags fileTags
    cases Grammar.ofPath? p with
    | none => exact List.nil_prefix
    | some g => exact (scanFile_of_invalid hdenied hcontent h).1

theorem readFailures_of_isReadable (h : fs.IsReadable p) : readFailures fs p = [] := by
  obtain ⟨text, htext⟩ := h
  unfold readFailures
  split
  · rfl
  · rw [scanFile_of_hasText htext]

theorem scanFile_congr {fs' : FileSystem} (hdenied : fs'.denied = fs.denied)
    (hcontent : fs'.content? p = fs.content? p) : scanFile fs' g p = scanFile fs g p := by
  rw [scanFile, scanFile, hdenied, hcontent]

theorem scanTags_congr {fs' : FileSystem} (hdenied : fs'.denied = fs.denied)
    (hcontent : fs'.content? p = fs.content? p) : scanTags fs' p = scanTags fs p := by
  unfold scanTags
  cases Grammar.ofPath? p with
  | none => rfl
  | some g => exact congrArg Prod.fst (scanFile_congr hdenied hcontent)

structure Explains (fs : FileSystem) (p : Path) (e : ReadError) : Prop where
  denied : p.toString ∈ fs.denied → e = .denied p.toString
  invalid : p.toString ∉ fs.denied → ∃ fault, e = .encoding fault

theorem exists_readFailures_eq (hfs : fs.root.WellFormed) (hp : p ∈ walk fs (.ofString root)) :
    ∃ e, (IsSource p → ¬ fs.IsReadable p → Explains fs p e) ∧
      readFailures fs p =
        if IsSource p ∧ ¬ fs.IsReadable p then [.unreadable p.toString e.message] else [] := by
  obtain ⟨bytes, hcontent⟩ := exists_content?_of_mem_walk hfs hp
  by_cases hsource : IsSource p
  · by_cases hread : fs.IsReadable p
    · refine ⟨.device, fun _ h => absurd hread h, ?_⟩
      rw [readFailures_of_isReadable hread, if_neg fun h => h.2 hread]
    · obtain ⟨g, hg⟩ := Option.isSome_iff_exists.mp hsource
      rw [readFailures_of_grammar hg]
      by_cases hdenied : p.toString ∈ fs.denied
      · refine ⟨.denied p.toString, fun _ _ => ⟨fun _ => rfl, absurd hdenied⟩, ?_⟩
        rw [scanFile_of_denied hdenied, if_pos ⟨hsource, hread⟩]
        rfl
      · have hinvalid : ∀ text, bytes ≠ encode text := fun text h =>
          hread ⟨text, hdenied, hcontent.trans (congrArg some h)⟩
        obtain ⟨-, fault, hfault⟩ := scanFile_of_invalid (g := g) hdenied hcontent hinvalid
        refine ⟨.encoding fault, fun _ _ => ⟨fun h => absurd h hdenied, fun _ => ⟨fault, rfl⟩⟩, ?_⟩
        rw [hfault, if_pos ⟨hsource, hread⟩]
        rfl
  · refine ⟨.device, fun h => absurd h hsource, ?_⟩
    rw [readFailures_of_not_isSource hsource, if_neg fun h => hsource h.1]

theorem plainSearch_eq (fs : FileSystem) (root : String) :
    plainSearch fs root = ⟨(walk fs (.ofString root)).flatMap (scanTags fs),
      (walk fs (.ofString root)).flatMap (readFailures fs),
      (walkRefusal? fs (.ofString root)).map .path⟩ := by
  have hvisit : ∀ p ∈ walk fs (.ofString root),
      (ofEvents (visit fs .withoutRepository none p)).failure = none := by
    intro p _
    rw [Options.withoutRepository, ofEvents_visit_plain]
  obtain ⟨hfailure, htags⟩ := Results.ofEvents_flatMap_of_none _ _ hvisit
  have hnotices := Results.notices_flatMap_of_none _ _ hvisit
  simp only [Options.withoutRepository, ofEvents_visit_plain] at htags hnotices
  rw [plainSearch, ofEvents_run_plain, ofEvents_append_refusal hfailure, ← htags, ← hnotices]
  rfl

theorem flatMap_filter_isSource {β : Type} {f : Path → List β} (files : List Path)
    (h : ∀ p ∈ files, ¬ IsSource p → f p = []) :
    (files.filter IsSource).flatMap f = files.flatMap f := by
  induction files with
  | nil => rfl
  | cons p files ih =>
    obtain ⟨hp, hfiles⟩ := List.forall_mem_cons.mp h
    rw [List.filter_cons, List.flatMap_cons, ← ih hfiles]
    by_cases hsource : IsSource p
    · rw [if_pos (decide_eq_true hsource), List.flatMap_cons]
    · rw [if_neg (by rwa [decide_eq_true_eq]), hp hsource, List.nil_append]

theorem flatMap_filter_others {β : Type} {f : Path → List β} (files : List Path)
    (hps : ∀ p ∈ ps, ¬ IsSource p) (h : ∀ p, ¬ IsSource p → f p = []) :
    (files.filter (· ∉ ps)).flatMap f = files.flatMap f := by
  induction files with
  | nil => rfl
  | cons p files ih =>
    rw [List.filter_cons, List.flatMap_cons, ← ih]
    by_cases hp : p ∈ ps
    · rw [if_neg (by simpa using hp), h p (hps p hp), List.nil_append]
    · rw [if_pos (decide_eq_true hp), List.flatMap_cons]

theorem not_isSource_of_names (h : p.names = []) : ¬ IsSource p := by
  rw [IsSource, Grammar.ofPath?, Path.suffix, Path.name, h]
  decide

theorem sources_withoutFiles (hfs : fs.root.WellFormed) (hps : ps ⊆ walk fs (.ofString root)) :
    (walk (fs.withoutFiles ps) (.ofString root)).filter IsSource =
        ((walk fs (.ofString root)).filter (· ∉ ps)).filter IsSource ∧
      walkRefusal? (fs.withoutFiles ps) (.ofString root) = walkRefusal? fs (.ofString root) := by
  cases hroot : fs.root.isFile with
  | false =>
    obtain ⟨hwalk, hrefusal⟩ := walk_withoutFiles hfs hroot hps
    exact ⟨congrArg _ hwalk, hrefusal⟩
  | true =>
    have hnone : ∀ files ⊆ walk fs (.ofString root), files.filter IsSource = [] := by
      intro files hfiles
      refine List.filter_eq_nil_iff.mpr fun p hp => ?_
      rw [decide_eq_true_eq]
      exact not_isSource_of_names (names_of_mem_walk_of_isFile hfs hroot (hfiles hp))
    rw [FileSystem.withoutFiles, FileSystem.withoutAt_of_isFile hroot,
      hnone _ (List.filter_subset_self _), hnone _ (List.Subset.refl _)]
    exact ⟨rfl, rfl⟩

/-- Without some of its files a search finds the tags of the others, and says what there is to say
about them. -/
theorem plainSearch_withoutFiles (hfs : fs.root.WellFormed)
    (hps : ps ⊆ walk fs (.ofString root)) :
    let rest := (walk fs (.ofString root)).filter (· ∉ ps)
    plainSearch (fs.withoutFiles ps) root =
      ⟨rest.flatMap (scanTags fs), rest.flatMap (readFailures fs),
        (walkRefusal? fs (.ofString root)).map .path⟩ := by
  have hscan : ∀ p ∈ ((walk fs (.ofString root)).filter (· ∉ ps)).filter IsSource,
      ∀ g, scanFile (fs.withoutFiles ps) g p = scanFile fs g p := by
    intro p hp g
    obtain ⟨hp, hsource⟩ := List.mem_filter.mp hp
    obtain ⟨hp, hne⟩ := List.mem_filter.mp hp
    have hroot : fs.root.isFile = false := by
      by_contra h
      rw [Bool.not_eq_false] at h
      exact not_isSource_of_names (names_of_mem_walk_of_isFile hfs h hp) (of_decide_eq_true hsource)
    exact scanFile_congr rfl (content?_withoutFiles hfs hroot hps hp (of_decide_eq_true hne))
  obtain ⟨hsources, hrefusal⟩ := sources_withoutFiles hfs hps
  dsimp only
  rw [plainSearch_eq, hrefusal]
  generalize walk (fs.withoutFiles ps) (.ofString root) = left at hsources ⊢
  generalize (walk fs (.ofString root)).filter (· ∉ ps) = rest at hscan hsources ⊢
  have htags : left.flatMap (scanTags (fs.withoutFiles ps)) = rest.flatMap (scanTags fs) := by
    have hall := fun fs files =>
      flatMap_filter_isSource (f := scanTags fs) files fun p _ => scanTags_of_not_isSource
    rw [← hall, hsources, ← hall fs]
    refine List.flatMap_congr fun p hp => ?_
    obtain ⟨g, hg⟩ := Option.isSome_iff_exists.mp (of_decide_eq_true (List.mem_filter.mp hp).2)
    rw [scanTags_of_grammar hg, scanTags_of_grammar hg, hscan p hp]
  have hnotices :
      left.flatMap (readFailures (fs.withoutFiles ps)) = rest.flatMap (readFailures fs) := by
    have hall := fun fs files =>
      flatMap_filter_isSource (f := readFailures fs) files fun p _ => readFailures_of_not_isSource
    rw [← hall, hsources, ← hall fs]
    refine List.flatMap_congr fun p hp => ?_
    obtain ⟨g, hg⟩ := Option.isSome_iff_exists.mp (of_decide_eq_true (List.mem_filter.mp hp).2)
    rw [readFailures_of_grammar hg, readFailures_of_grammar hg, hscan p hp]
  rw [htags, hnotices]

theorem filter_scanTags (c : Path → Bool) (files : List Path) :
    (files.flatMap (scanTags fs)).filter (fun t => c t.path) =
      (files.filter c).flatMap (scanTags fs) := by
  induction files with
  | nil => rfl
  | cons p files ih =>
    have hpath : ∀ t ∈ scanTags fs p, c t.path = c p := fun t ht =>
      congrArg c (place_of_mem_scanTags ht).1
    rw [List.flatMap_cons, List.filter_append, List.filter_cons, ih]
    cases hp : c p with
    | true =>
      rw [if_pos rfl, List.flatMap_cons, List.filter_eq_self.mpr fun t ht => (hpath t ht).trans hp]
    | false =>
      rw [if_neg Bool.false_ne_true, List.filter_eq_nil_iff.mpr, List.nil_append]
      intro t ht
      rw [hpath t ht, hp]
      exact Bool.false_ne_true

/-- What a search without a repository makes of files that it cannot read. -/
structure SparesOthers (fs : FileSystem) (root : String) (reason : Path → ReadError) : Prop where
  /-- It ends early only if the walk does. -/
  ends : (plainSearch fs root).failure = (walkRefusal? fs (.ofString root)).map .path
  /-- The tags of the readable files are those that are found when the others are not there. -/
  good : plainSearch (fs.withoutFiles
      ((walk fs (.ofString root)).filter fun p => ¬ fs.IsReadable p)) root =
    ⟨(plainSearch fs root).tags.filter fun t => fs.IsReadable t.path, [],
      (plainSearch fs root).failure⟩
  /-- So it is for any files, whether they can be read or not. -/
  apart : ∀ ps ⊆ walk fs (.ofString root),
    (plainSearch (fs.withoutFiles ps) root).failure = (plainSearch fs root).failure ∧
      (plainSearch (fs.withoutFiles ps) root).tags =
        (plainSearch fs root).tags.filter fun t => t.path ∉ ps
  denied : ∀ t ∈ (plainSearch fs root).tags, t.path.toString ∉ fs.denied
  /-- A file that is not UTF-8 gives the first tags, if any, of the text that it begins with. -/
  invalid : ∀ p ∈ walk fs (.ofString root), ∀ bytes, fs.content? p = some bytes →
    (∀ text, bytes ≠ encode text) → ∀ text, LongestText bytes text →
      (plainSearch fs root).tags.filter (·.path = p) <+: fileTags (fun _ => text) p
  /-- There is one warning for each source that cannot be read, in the order of the walk. -/
  warned : (plainSearch fs root).notices =
    ((walk fs (.ofString root)).filter fun p => IsSource p ∧ ¬ fs.IsReadable p).map
      fun p => .unreadable p.toString (reason p).message
  warnings : ∀ n ∈ (plainSearch fs root).notices, n.severity = .warning
  explained : ∀ p ∈ walk fs (.ofString root), IsSource p → ¬ fs.IsReadable p →
    Explains fs p (reason p)
  /-- A file that is no source is not opened. -/
  unopened : ∀ ps ⊆ walk fs (.ofString root), (∀ p ∈ ps, ¬ IsSource p) →
    plainSearch (fs.withoutFiles ps) root = plainSearch fs root

theorem plainSearch_withoutUnreadable (hfs : fs.root.WellFormed) (root : String) :
    plainSearch (fs.withoutFiles
        ((walk fs (.ofString root)).filter fun p => ¬ fs.IsReadable p)) root =
      ⟨(plainSearch fs root).tags.filter fun t => fs.IsReadable t.path, [],
        (plainSearch fs root).failure⟩ := by
  have hrest : (walk fs (.ofString root)).filter
      (· ∉ (walk fs (.ofString root)).filter fun p => ¬ fs.IsReadable p) =
      (walk fs (.ofString root)).filter fun p => fs.IsReadable p := by
    refine List.filter_congr fun p hp => ?_
    simp only [List.mem_filter, hp, true_and, decide_eq_true_eq, not_not]
  have hnone : ((walk fs (.ofString root)).filter fun p => fs.IsReadable p).flatMap
      (readFailures fs) = [] := by
    refine List.flatMap_eq_nil_iff.mpr fun p hp => ?_
    exact readFailures_of_isReadable (of_decide_eq_true (List.mem_filter.mp hp).2)
  rw [plainSearch_withoutFiles hfs (List.filter_subset_self _), plainSearch_eq,
    filter_scanTags fun p => decide (fs.IsReadable p), hrest, hnone]

theorem plainSearch_withoutOthers (hfs : fs.root.WellFormed) (hps : ps ⊆ walk fs (.ofString root))
    (hother : ∀ p ∈ ps, ¬ IsSource p) :
    plainSearch (fs.withoutFiles ps) root = plainSearch fs root := by
  have htags := flatMap_filter_others (f := scanTags fs) (walk fs (.ofString root)) hother
    fun _ => scanTags_of_not_isSource
  have hnotices := flatMap_filter_others (f := readFailures fs) (walk fs (.ofString root)) hother
    fun _ => readFailures_of_not_isSource
  rw [plainSearch_withoutFiles hfs hps, plainSearch_eq, htags, hnotices]

theorem filter_path_scanTags {files : List Path} (h : files.Nodup) (hp : p ∈ files) :
    (files.flatMap (scanTags fs)).filter (·.path = p) = scanTags fs p := by
  have hone : files.filter (fun q => decide (q = p)) = [p] := by
    rw [List.filter_eq, List.count_eq_one_of_mem h hp]
    rfl
  rw [filter_scanTags fun q => decide (q = p), hone, List.flatMap_singleton]

/-- Files that cannot be read, in directories that may be searched, do not keep a search from its
end, and take nothing away from what it finds in other files. -/
theorem run_sparesOthers (fs : FileSystem) (root : String) (hfs : fs.root.WellFormed) :
    ∃ reason, SparesOthers fs root reason := by
  have hexists : ∀ p, ∃ e, p ∈ walk fs (.ofString root) →
      (IsSource p → ¬ fs.IsReadable p → Explains fs p e) ∧ readFailures fs p =
        if IsSource p ∧ ¬ fs.IsReadable p then [.unreadable p.toString e.message] else [] := by
    intro p
    by_cases hp : p ∈ walk fs (.ofString root)
    · obtain ⟨e, he⟩ := exists_readFailures_eq hfs hp
      exact ⟨e, fun _ => he⟩
    · exact ⟨.device, fun h => absurd h hp⟩
  choose reason hreason using hexists
  have hsearch := plainSearch_eq fs root
  have htags : (plainSearch fs root).tags = _ := congrArg Results.tags hsearch
  have hwarned : (plainSearch fs root).notices =
      ((walk fs (.ofString root)).filter fun p => IsSource p ∧ ¬ fs.IsReadable p).map
        fun p => .unreadable p.toString (reason p).message := by
    rw [hsearch, ← flatMap_when]
    refine List.flatMap_congr fun p hp => ?_
    rw [(hreason p hp).2]
    simp only [decide_eq_true_eq]
  refine ⟨reason, ?_⟩
  constructor
  case ends => rw [hsearch]
  case good => exact plainSearch_withoutUnreadable hfs root
  case apart =>
    intro ps hps
    rw [plainSearch_withoutFiles hfs hps, hsearch, filter_scanTags fun p => decide (p ∉ ps)]
    exact ⟨rfl, rfl⟩
  case denied =>
    intro t ht hdenied
    rw [htags] at ht
    obtain ⟨p, -, ht⟩ := List.mem_flatMap.mp ht
    rw [(place_of_mem_scanTags ht).1] at hdenied
    rw [scanTags_of_denied hdenied] at ht
    cases ht
  case invalid =>
    intro p hp bytes hcontent hinvalid text htext
    rw [htags, filter_path_scanTags (walk_nodup hfs _) hp, longestText_iff.mp htext]
    exact scanTags_prefix_of_invalid hcontent hinvalid
  case warned => exact hwarned
  case warnings =>
    intro n hn
    rw [hwarned] at hn
    obtain ⟨p, -, rfl⟩ := List.mem_map.mp hn
    rfl
  case explained => exact fun p hp => (hreason p hp).1
  case unopened => exact fun ps hps hother => plainSearch_withoutOthers hfs hps hother

def spoiltTree : FileSystem where
  root := .dir
    [("a.c", .file (encode "// TODO: a\n".toList)), ("b.c", .file (encode "// BUG: b\n".toList)),
      ("c.rs", .file (encode "// TODO: c\n".toList ++ [0xff])),
      ("d", .dir [("e.c", .file (encode "// FIXME: e\n".toList)), ("f.txt", .file [0xff])] {})] {}
  here := []
  denied := ["b.c"]

theorem walkSteps_spoiltTree : walkSteps spoiltTree (.ofString ".") =
    [⟨.here, ["a.c"]⟩, ⟨.here, ["b.c"]⟩, ⟨.here, ["c.rs"]⟩, ⟨.here, ["d", "e.c"]⟩,
      ⟨.here, ["d", "f.txt"]⟩].map .ok := by
  cbv

theorem hasText_spoiltTree : spoiltTree.HasText ⟨.here, ["a.c"]⟩ "// TODO: a\n".toList ∧
    spoiltTree.HasText ⟨.here, ["d", "e.c"]⟩ "// FIXME: e\n".toList := by
  refine ⟨⟨by decide, ?_⟩, by decide, ?_⟩ <;> cbv

theorem scanFile_spoiltTree_good :
    scanFile spoiltTree .cLike ⟨.here, ["a.c"]⟩ =
      ([⟨⟨.here, ["a.c"]⟩, 1, .todo, "a", none⟩], none) ∧
    scanFile spoiltTree .cLike ⟨.here, ["d", "e.c"]⟩ =
      ([⟨⟨.here, ["d", "e.c"]⟩, 1, .fix, "e", none⟩], none) := by
  refine ⟨?_, ?_⟩
  · rw [scanFile_of_hasText hasText_spoiltTree.1, Scanner.collect_ofList]
    cbv
  · rw [scanFile_of_hasText hasText_spoiltTree.2, Scanner.collect_ofList]
    cbv

theorem scanFile_spoiltTree_invalid : scanFile spoiltTree .rust ⟨.here, ["c.rs"]⟩ =
    ([], some (.encoding ⟨11, [0xff], .invalidStart⟩)) := by
  have hopen : Path.toString ⟨.here, ["c.rs"]⟩ ∉ spoiltTree.denied := by decide
  obtain ⟨htags, hfailure⟩ := Scanner.collect_ofBytes .rust ⟨.here, ["c.rs"]⟩
    ((spoiltTree.content? ⟨.here, ["c.rs"]⟩).getD [])
  rw [scanFile, if_neg hopen]
  dsimp only
  rw [htags, hfailure]
  cbv

theorem wellFormed_spoiltTree : spoiltTree.root.WellFormed := by
  decide

theorem plainSearch_spoiltTree : plainSearch spoiltTree "." =
    ⟨[⟨⟨.here, ["a.c"]⟩, 1, .todo, "a", none⟩, ⟨⟨.here, ["d", "e.c"]⟩, 1, .fix, "e", none⟩],
      [.unreadable "b.c" (ReadError.denied "b.c").message,
        .unreadable "c.rs" (ReadError.encoding ⟨11, [0xff], .invalidStart⟩).message], none⟩ := by
  have ha : Grammar.ofPath? ⟨.here, ["a.c"]⟩ = some .cLike := by decide
  have hb : Grammar.ofPath? ⟨.here, ["b.c"]⟩ = some .cLike := by decide
  have hc : Grammar.ofPath? ⟨.here, ["c.rs"]⟩ = some .rust := by decide
  have he : Grammar.ofPath? ⟨.here, ["d", "e.c"]⟩ = some .cLike := by decide
  have hf : ¬ IsSource ⟨.here, ["d", "f.txt"]⟩ := by decide
  have hdenied : scanFile spoiltTree .cLike ⟨.here, ["b.c"]⟩ = ([], some (.denied "b.c")) :=
    scanFile_of_denied (by decide)
  have hnames : Path.toString ⟨.here, ["b.c"]⟩ = "b.c" ∧
      Path.toString ⟨.here, ["c.rs"]⟩ = "c.rs" := by
    decide
  rw [plainSearch_eq, walk, walkRefusal?, walkSteps_spoiltTree, untilError_map_ok]
  simp only [List.flatMap_cons, List.flatMap_nil, scanTags_of_grammar ha, scanTags_of_grammar hb,
    scanTags_of_grammar hc, scanTags_of_grammar he, scanTags_of_not_isSource hf,
    readFailures_of_grammar ha, readFailures_of_grammar hb, readFailures_of_grammar hc,
    readFailures_of_grammar he, readFailures_of_not_isSource hf, scanFile_spoiltTree_good,
    scanFile_spoiltTree_invalid, hdenied, hnames]
  rfl

theorem spoiltTree_sparesOthers :
    spoiltTree.root.WellFormed ∧ (∃ reason, SparesOthers spoiltTree "." reason) ∧
    plainSearch spoiltTree "." =
      ⟨[⟨⟨.here, ["a.c"]⟩, 1, .todo, "a", none⟩, ⟨⟨.here, ["d", "e.c"]⟩, 1, .fix, "e", none⟩],
        [.unreadable "b.c" (ReadError.denied "b.c").message,
          .unreadable "c.rs" (ReadError.encoding ⟨11, [0xff], .invalidStart⟩).message],
        none⟩ :=
  ⟨wellFormed_spoiltTree, run_sparesOthers spoiltTree "." wellFormed_spoiltTree,
    plainSearch_spoiltTree⟩

def lockedTree (inside : List (String × Node)) : FileSystem where
  root := .dir
    [("a.c", .file (encode "// TODO: a\n".toList)), ("sub", .dir inside { searchable := false }),
      ("zz", .dir [("c.c", .file (encode "// TODO: c\n".toList))] {})] {}
  here := []
  denied := []

def lockedSource : String × Node :=
  ("b.c", .file (encode "// BUG: b\n".toList))

def lockedText (p : Path) : List Char :=
  if p.names = ["a.c"] then "// TODO: a\n".toList else "// TODO: c\n".toList

theorem hasText_lockedTree (inside : List (String × Node)) :
    (lockedTree inside).HasText ⟨.here, ["a.c"]⟩ (lockedText ⟨.here, ["a.c"]⟩) ∧
      (lockedTree inside).HasText ⟨.here, ["zz", "c.c"]⟩ (lockedText ⟨.here, ["zz", "c.c"]⟩) := by
  refine ⟨⟨List.not_mem_nil, ?_⟩, List.not_mem_nil, ?_⟩ <;> cbv

theorem plainSearch_lockedTree {inside : List (String × Node)}
    (h : walk (lockedTree inside) (.ofString ".") ⊆
      [⟨.here, ["a.c"]⟩, ⟨.here, ["zz", "c.c"]⟩]) :
    plainSearch (lockedTree inside) "." =
      ⟨(walk (lockedTree inside) (.ofString ".")).flatMap (fileTags lockedText), [],
        (walkRefusal? (lockedTree inside) (.ofString ".")).map .path⟩ := by
  refine results_of_hasText fun p hp _ => ?_
  obtain ⟨ha, hc⟩ := hasText_lockedTree inside
  obtain rfl | hp := List.mem_cons.mp (h hp)
  · exact ha
  · obtain rfl := List.mem_singleton.mp hp
    exact hc

theorem lockedTree_search_ends_early :
    (lockedTree [lockedSource]).root.WellFormed ∧
    IsSource ⟨.here, ["sub", "b.c"]⟩ ∧
    (lockedTree [lockedSource]).withoutAt (· = ["sub", "b.c"]) = lockedTree [] ∧
    plainSearch (lockedTree [lockedSource]) "." =
      ⟨[⟨⟨.here, ["a.c"]⟩, 1, .todo, "a", none⟩], [], some (.path (.denied "sub/b.c"))⟩ ∧
    plainSearch (lockedTree []) "." =
      ⟨[⟨⟨.here, ["a.c"]⟩, 1, .todo, "a", none⟩, ⟨⟨.here, ["zz", "c.c"]⟩, 1, .todo, "c", none⟩],
        [], none⟩ := by
  have hwith : walkSteps (lockedTree [lockedSource]) (.ofString ".") =
      [.ok ⟨.here, ["a.c"]⟩, .error (.denied "sub/b.c"), .ok ⟨.here, ["zz", "c.c"]⟩] := by
    cbv
  have hwithout : walkSteps (lockedTree []) (.ofString ".") =
      [.ok ⟨.here, ["a.c"]⟩, .ok ⟨.here, ["zz", "c.c"]⟩] := by
    cbv
  refine ⟨by decide, by decide, by cbv, ?_, ?_⟩
  · rw [plainSearch_lockedTree, walk, walkRefusal?, hwith]
    · simp only [untilError, List.flatMap_cons, List.flatMap_nil, fileTags_eq]
      cbv
    · rw [walk, hwith]
      decide
  · rw [plainSearch_lockedTree, walk, walkRefusal?, hwithout]
    · simp only [untilError, List.flatMap_cons, List.flatMap_nil, fileTags_eq]
      cbv
    · rw [walk, hwithout]
      decide

end Search

end CommentTags

import CommentTags.Proofs.Git.Blame
import CommentTags.Proofs.Search.Found
import CommentTags.Proofs.Search.Inquiry

namespace CommentTags

open Git (Repository Commit blameLines? byteLines historyAt relativeText)

structure Provenance.IsOf (x : Provenance) (c : Commit) : Prop where
  seconds : x.time.seconds = c.seconds
  offset : x.time.offset = c.offset
  author : x.author = c.author

variable {fs : FileSystem} {r : Repository} {p : Path} {names : List String} {b : Git.Blame}
  {line : Int} {c : Commit}

/-- What a blame says of a line is the provenance of that line, for any repository. -/
theorem provenanceOf_of_blame (hnames : r.relativeNames? fs p = some names)
    (hblame : r.blame names = .ok b) (hline : b line = .ok (some c)) (hauthor : c.author ≠ "")
    (htime : c.HasTime) :
    ∃ x, (provenanceOf fs r p line).1 = .ok (some x) ∧ x.IsOf c := by
  have hfile : r.fileBlame fs p = (.ok (some b), []) := by
    rw [Repository.fileBlame, hnames]
    dsimp only
    rw [hblame]
  rw [provenanceOf, hfile]
  dsimp only
  rw [lineProvenance, hline]
  dsimp only
  rw [Commit.provenance, if_neg hauthor, Time.Moment.make_of_representable htime]
  exact ⟨_, rfl, rfl, rfl, rfl⟩

theorem HasTag.line_eq {n : Nat} {w : List Char} {g : Grammar} {t : Tag} (h : HasTag p n w g t) :
    t.line = n := by
  cases h <;> rfl

/-- A blame that names the owner of each line of a content, a line being what ends at a line feed.
All owners have an author and a time. -/
structure Git.Blame.Covers (b : Git.Blame) (content : List UInt8) (owners : List Commit) :
    Prop where
  length : owners.length = (byteLines content).length
  answer : ∀ i c, owners[i]? = some c → b (i + 1 : Nat) = .ok (some c)
  hasAuthor : ∀ c ∈ owners, c.author ≠ ""
  hasTime : ∀ c ∈ owners, c.HasTime

theorem Git.Blame.Covers.length_eq {owners : List Commit} {text : List Char}
    (h : b.Covers (Text.Utf8.encode text) owners) :
    owners.length = (Text.cut '\n' text).length := by
  rw [h.length, Git.byteLines_encode, List.length_map]

theorem Git.covers_blameLines? {history : Git.History} {path : String} {content : List UInt8}
    {owners : List Commit} (hblame : blameLines? history path = some owners)
    (hhead : history.headFiles.lookup path = some content) (htime : ∀ c ∈ owners, c.HasTime) :
    (Git.blameOf owners).Covers content owners where
  length := Git.length_of_blameLines? hblame hhead
  answer i c howner := by
    have hat : Git.ownerAt? owners (i + 1 : Nat) = some c := howner
    rw [Git.blameOf_eq, hat]
  hasAuthor _ := Git.author_ne_empty hblame
  hasTime := htime

namespace Search

open Results (ofEvents)

variable {root : String} {h : Git.Handle} {text : List Char} {owners : List Commit} {t : Tag}

theorem exists_line_of_mem_scanTags (hcontent : fs.content? p = some (Text.Utf8.encode text))
    (ht : t ∈ scanTags fs p) :
    ∃ g, Grammar.ofPath? p = some g ∧ ∃ i line, (Text.cut '\n' text)[i]? = some line ∧
      HasTag p (i + 1) line g t := by
  by_cases hdenied : p.toString ∈ fs.denied
  · rw [scanTags_of_denied hdenied] at ht
    cases ht
  · rw [scanTags_of_hasText ⟨hdenied, hcontent⟩] at ht
    exact mem_fileTags.mp ht

/-- Each tag of a file stands in a line of this text, and has the time and the author of the owner
of that line. -/
def Attributed (p : Path) (text : List Char) (owners : List Commit) (tags : List Tag) : Prop :=
  ∀ t ∈ tags, t.path = p →
    ∃ g i line c x, Grammar.ofPath? p = some g ∧ (Text.cut '\n' text)[i]? = some line ∧
      HasTag p (i + 1) line g t.withoutProvenance ∧
      (byteLines (Text.Utf8.encode text))[i]? = some (Text.Utf8.encode line) ∧
      owners[i]? = some c ∧ t.provenance = some x ∧ x.IsOf c

theorem attributed_searchIn {ignore : Bool}
    (hcontent : fs.content? p = some (Text.Utf8.encode text))
    (hnames : r.relativeNames? fs p = some names) (hblame : r.blame names = .ok b)
    (hcovers : b.Covers (Text.Utf8.encode text) owners) :
    Attributed p text owners (ofEvents (searchIn fs ⟨ignore, true⟩ r root)).tags := by
  rintro t ht rfl
  obtain ⟨hlook, hscan⟩ := mem_searchIn ht
  obtain ⟨g, hg, i, line, hline, htag⟩ := exists_line_of_mem_scanTags hcontent hscan
  have hbytes : (byteLines (Text.Utf8.encode text))[i]? = some (Text.Utf8.encode line) := by
    rw [Git.byteLines_encode, List.getElem?_map, hline, Option.map_some]
  have hi : i < owners.length := by
    rw [hcovers.length]
    exact (List.getElem?_eq_some_iff.mp hbytes).1
  have howner : owners[i]? = some owners[i] := List.getElem?_eq_getElem hi
  have hmem : owners[i] ∈ owners := List.getElem_mem hi
  obtain ⟨x, hx, hcommit⟩ := provenanceOf_of_blame hnames hblame (hcovers.answer i _ howner)
    (hcovers.hasAuthor _ hmem) (hcovers.hasTime _ hmem)
  have hnumber : t.line = (i + 1 : Nat) := htag.line_eq
  rw [hnumber, hx] at hlook
  exact ⟨g, i, line, _, x, hg, hline, htag, hbytes, howner, (Except.ok.inj hlook).symm, hcommit⟩

/-- A file in a repository that has the same text in the work tree as in the newest commit, and a
blame of which all commits have a time. -/
structure Unchanged (fs : FileSystem) (h : Git.Handle) (p : Path) (text : List Char)
    (owners : List Commit) : Prop where
  content : fs.content? p = some (Text.Utf8.encode text)
  tracked : ∃ names, (h.connect fs).relativeNames? fs p = some names ∧
    (historyAt fs h.gitDir).headFiles.lookup (relativeText names) =
      some (Text.Utf8.encode text) ∧
    blameLines? (historyAt fs h.gitDir) (relativeText names) = some owners
  hasTime : ∀ c ∈ owners, c.HasTime

/-- In a file whose blame covers the lines of its content, each tag has the time and the author of
the commit of the line it stands in. The blame of a repository covers the lines of a file that is as
the newest commit has it. -/
theorem provenance_of_unchanged (fs : FileSystem) (ignore : Bool) (root : String) (p : Path)
    (text : List Char) (owners : List Commit) :
    (∀ (r : Repository) names b, fs.content? p = some (Text.Utf8.encode text) →
      r.relativeNames? fs p = some names → r.blame names = .ok b →
      b.Covers (Text.Utf8.encode text) owners →
        owners.length = (Text.cut '\n' text).length ∧
          Attributed p text owners (ofEvents (searchIn fs ⟨ignore, true⟩ r root)).tags) ∧
    ∀ h, (Git.findRepository fs root).1 = .ok (some h) → Unchanged fs h p text owners →
      owners.length = (Text.cut '\n' text).length ∧
        Attributed p text owners (ofEvents (run fs ⟨ignore, true⟩ [root])).tags := by
  constructor
  · intro r names b hcontent hnames hblame hcovers
    exact ⟨hcovers.length_eq, attributed_searchIn hcontent hnames hblame hcovers⟩
  · rintro h hrepo ⟨hcontent, ⟨names, hnames, hhead, hlines⟩, htime⟩
    have hcovers := Git.covers_blameLines? hlines hhead htime
    have hblame : (h.connect fs).blame names = .ok (Git.blameOf owners) := by
      rw [Git.Handle.connect_blame, hlines]
    rw [(run_eq_searchIn (o := ⟨ignore, true⟩) (Bool.or_true ignore)
      (findRepository_notices hrepo)).1]
    exact ⟨hcovers.length_eq, attributed_searchIn hcontent hnames hblame hcovers⟩

def oldText : List Char :=
  "// TODO: a\r// BUG: b\x85\x0c\n\u2028\n".toList

def newText : List Char :=
  oldText ++ "  x; // NOTE: \x00c\r\nlet\n// FIXME: d".toList

def oldCommit : Commit := ⟨1600000000, 60, "Ada", [("a.c", Text.Utf8.encode oldText)]⟩

def newCommit : Commit := ⟨1700000000, -210, "Grace", [("a.c", Text.Utf8.encode newText)]⟩

def twoCommits : FileSystem where
  root := .dir
    [(".git", .dir [("HEAD", .file []), ("objects", .emptyDir), ("refs", .emptyDir)]
        { history := some ⟨false, [newCommit, oldCommit]⟩ }),
      ("a.c", .file (Text.Utf8.encode newText))] {}
  here := []
  denied := []

theorem findRepository_twoCommits :
    Git.findRepository twoCommits "." = (.ok (some committedRepository), []) := by
  cbv

theorem unchanged_twoCommits : Unchanged twoCommits committedRepository ⟨.here, ["a.c"]⟩ newText
    [oldCommit, oldCommit, newCommit, newCommit, newCommit] := by
  have hold : oldCommit.HasTime := Time.representable_iff.mpr (by decide)
  have hnew : newCommit.HasTime := Time.representable_iff.mpr (by decide)
  refine ⟨by cbv, ⟨["a.c"], by cbv, by cbv, by cbv⟩, ?_⟩
  simp only [List.forall_mem_cons, hold, hnew, List.not_mem_nil, false_implies, implies_true,
    and_self]

theorem scanFile_twoCommits :
    scanFile twoCommits .cLike ⟨.here, ["a.c"]⟩ =
      ([⟨⟨.here, ["a.c"]⟩, 1, .todo, "a\r// BUG: b", none⟩,
        ⟨⟨.here, ["a.c"]⟩, 3, .note, "\x00c", none⟩, ⟨⟨.here, ["a.c"]⟩, 5, .fix, "d", none⟩],
      none) := by
  rw [scanFile_of_hasText ⟨List.not_mem_nil, unchanged_twoCommits.content⟩, Scanner.collect_ofList]
  cbv

theorem places_twoCommits :
    (ofEvents (run twoCommits ⟨true, true⟩ ["."])).tags.map (fun t => (t.path, t.line)) =
      [(⟨.here, ["a.c"]⟩, 1), (⟨.here, ["a.c"]⟩, 3), (⟨.here, ["a.c"]⟩, 5)] := by
  have hwalk : walk twoCommits (.ofString ".") = [⟨.here, ["a.c"]⟩] := by cbv
  have hrefusal : walkRefusal? twoCommits (.ofString ".") = none := by cbv
  have hpasses : passesOver twoCommits ⟨true, true⟩
      (some (committedRepository.connect twoCommits)) ⟨.here, ["a.c"]⟩ = .ok false := by cbv
  have hgrammar : Grammar.ofPath? ⟨.here, ["a.c"]⟩ = some .cLike := by cbv
  rw [(run_eq_searchIn rfl findRepository_twoCommits).1, searchIn, hwalk, hrefusal,
    List.flatMap_singleton]
  unfold fileEvents
  rw [hpasses, hgrammar]
  dsimp only
  rw [sourceEvents, scanFile_twoCommits]
  cbv

theorem twoCommits_provenance :
    (ofEvents (run twoCommits ⟨true, true⟩ ["."])).tags.map (fun t => (t.path, t.line)) =
      [(⟨.here, ["a.c"]⟩, 1), (⟨.here, ["a.c"]⟩, 3), (⟨.here, ["a.c"]⟩, 5)] ∧
    ∀ t ∈ (ofEvents (run twoCommits ⟨true, true⟩ ["."])).tags,
      ∃ x, t.provenance = some x ∧ x.IsOf (if t.line ≤ 2 then oldCommit else newCommit) := by
  refine ⟨places_twoCommits, fun t ht => ?_⟩
  have hplace : (t.path, t.line) ∈ [((⟨.here, ["a.c"]⟩ : Path), (1 : Int)), (⟨.here, ["a.c"]⟩, 3),
      (⟨.here, ["a.c"]⟩, 5)] := places_twoCommits ▸ List.mem_map_of_mem ht
  have hpath : t.path = ⟨.here, ["a.c"]⟩ := by
    simp only [List.mem_cons, Prod.mk.injEq, List.not_mem_nil, or_false] at hplace
    obtain ⟨hpath, -⟩ | ⟨hpath, -⟩ | ⟨hpath, -⟩ := hplace <;> exact hpath
  obtain ⟨g, i, line, c, x, -, -, htag, -, howner, hprovenance, hcommit⟩ :=
    ((provenance_of_unchanged twoCommits true "." ⟨.here, ["a.c"]⟩ newText _).2 _
      (congrArg Prod.fst findRepository_twoCommits) unchanged_twoCommits).2 t ht hpath
  have hnumber : t.line = (i + 1 : Nat) := htag.line_eq
  refine ⟨x, hprovenance, ?_⟩
  rw [hnumber]
  match i, howner with
  | 0, rfl | 1, rfl | 2, rfl | 3, rfl | 4, rfl => exact hcommit

end Search

end CommentTags

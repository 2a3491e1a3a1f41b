import CommentTags.Proofs.Scan.Chunks
import CommentTags.Search.FileEvents

namespace CommentTags

def FileSystem.HasText (fs : FileSystem) (p : Path) (text : List Char) : Prop :=
  p.toString ∉ fs.denied ∧ fs.content? p = some (Text.Utf8.encode text)

namespace Search

variable {fs : FileSystem} {g : Grammar} {p : Path} {t : Tag}

theorem scanFile_of_hasText {s : List Char} (h : fs.HasText p s) :
    scanFile fs g p = ((Scanner.start g p (TextStream.ofList s)).collect.1, none) := by
  obtain ⟨htags, hending⟩ := Scanner.collect_ofBytes_encode g p s
  rw [scanFile, if_neg h.1, h.2, Option.getD_some]
  dsimp only
  rw [htags, hending, Scanner.collect_ofList]

theorem scanFile_place (h : t ∈ (scanFile fs g p).1) :
    t.path = p ∧ t.provenance = none := by
  unfold scanFile at h
  split at h
  · cases h
  · dsimp only at h
    rw [(Scanner.collect_ofBytes g p _).1] at h
    obtain ⟨i, line, -, h⟩ := mem_tagsFrom.mp h
    have hplace := lineTag?_place h
    exact ⟨hplace.1, hplace.2.2⟩

def scanTags (fs : FileSystem) (p : Path) : List Tag :=
  match Grammar.ofPath? p with
  | none => []
  | some g => (scanFile fs g p).1

def readFailures (fs : FileSystem) (p : Path) : List Notice :=
  match Grammar.ofPath? p with
  | none => []
  | some g =>
    match (scanFile fs g p).2 with
    | none => []
    | some e => [.unreadable p.toString e.message]

theorem place_of_mem_scanTags (h : t ∈ scanTags fs p) : t.path = p ∧ t.provenance = none := by
  unfold scanTags at h
  split at h
  · cases h
  · exact scanFile_place h

theorem unreadable_of_mem_readFailures :
    ∀ n ∈ readFailures fs p, ∃ path reason, n = .unreadable path reason := by
  unfold readFailures
  split
  · exact List.forall_mem_nil _
  · split
    · exact List.forall_mem_nil _
    · exact List.forall_mem_singleton.mpr ⟨_, _, rfl⟩

end Search

end CommentTags

import CommentTags.Proofs.Report.JsonReader
import CommentTags.Proofs.Search.Found
import CommentTags.Proofs.Time.Iso

namespace CommentTags.Report

namespace Json

def field? (name : String) : Json → Option Json
  | obj fields => fields.lookup name
  | _ => none

def text? : Json → Option String
  | str s => some s
  | _ => none

def number? : Json → Option Int
  | int n => some n
  | _ => none

end Json

def momentOf? (text : String) : Option Time.Moment := do
  let (seconds, offset) ← Time.readIso? text
  (Time.Moment.make seconds offset).toOption

/-- What is said of the last change: nothing at all, or when it was made and by whom. -/
def provenanceOf? : Json → Option (Option Provenance)
  | .null => some none
  | j => do
    let time ← momentOf? (← (← j.field? "time").text?)
    let author ← (← j.field? "author").text?
    return some ⟨time, author⟩

/-- The tag of a row. The level must be the one that the kind has. -/
def tagOf? (row : Json) : Option Tag := do
  let path ← (← row.field? "path").text?
  let line ← (← row.field? "line").number?
  let kind := Kind.ofKeyword (← (← row.field? "kind").text?)
  let level ← Level.ofName? (← (← row.field? "level").text?)
  let message ← (← row.field? "message").text?
  let provenance ← provenanceOf? (← row.field? "git")
  if level = kind.level then some ⟨.ofString path, line, kind, message, provenance⟩ else none

variable {t u : Tag}

theorem momentOf?_iso (m : Time.Moment) : momentOf? m.iso = some m := by
  rw [momentOf?, Time.readIso?_iso]
  simp only [Option.bind_eq_bind, Option.bind_some]
  rw [Time.Moment.make_of_representable m.representable]
  rfl

theorem provenanceOf?_provenanceJson (p : Provenance) :
    provenanceOf? (provenanceJson p) = some (some p) := by
  have htime : (provenanceJson p).field? "time" = some (.str p.time.iso) := rfl
  have hauthor : (provenanceJson p).field? "author" = some (.str p.author) := rfl
  rw [provenanceOf?, htime, hauthor]
  simp only [Option.bind_eq_bind, Option.bind_some, Json.text?, momentOf?_iso]
  · rfl
  · intro h
    cases h

theorem tagOf?_tagJson (h : t.WellFormed) : tagOf? (tagJson t) = some t := by
  have hpath : (tagJson t).field? "path" = some (.str t.path.toString) := rfl
  have hline : (tagJson t).field? "line" = some (.int t.line) := rfl
  have hkind : (tagJson t).field? "kind" = some (.str t.kind.text) := rfl
  have hlevel : (tagJson t).field? "level" = some (.str t.level.name) := rfl
  have hmessage : (tagJson t).field? "message" = some (.str t.message) := rfl
  have hgit : (tagJson t).field? "git" = some ((t.provenance.map provenanceJson).getD .null) := rfl
  have hprovenance :
      provenanceOf? ((t.provenance.map provenanceJson).getD .null) = some t.provenance := by
    cases t.provenance with
    | none => rfl
    | some p => exact provenanceOf?_provenanceJson p
  rw [tagOf?, hpath, hline, hkind, hlevel, hmessage, hgit]
  simp only [Option.bind_eq_bind, Option.bind_some, Json.text?, Json.number?,
    Level.ofName?_name, hprovenance, h.kind, Path.ofString_toString h.path]
  exact if_pos rfl

theorem tagJson_injective (ht : t.WellFormed) (hu : u.WellFormed) (h : tagJson t = tagJson u) :
    t = u := by
  have heq := congrArg tagOf? h
  rw [tagOf?_tagJson ht, tagOf?_tagJson hu] at heq
  exact Option.some.inj heq

theorem read?_tagsJson (ts : List Tag) :
    Json.read? ((tagsJson ts).toList ++ ['\n']) = some (.arr (ts.map tagJson)) := by
  rw [tagsJson, String.toList_ofList]
  refine Json.read?_write _ ?_
  exact List.forall_mem_singleton.mpr rfl

end CommentTags.Report

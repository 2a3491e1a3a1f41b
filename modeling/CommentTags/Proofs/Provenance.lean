import CommentTags.Proofs.Time.Moment
import CommentTags.Provenance

namespace CommentTags

open Git (Handle Repository StoreFault Blame blameLines? blameOf historyAt relativeText)

def Git.Commit.HasTime (c : Git.Commit) : Prop :=
  Time.Representable c.seconds c.offset

def Git.ownerAt? (owners : List Git.Commit) : Int → Option Git.Commit
  | .ofNat (n + 1) => owners[n]?
  | _ => none

variable (fs : FileSystem) (r : Repository) (h : Handle) (p : Path) (line : Int)

/-- What a repository says of a line of a file: a commit, that there is none, or that the question
has failed. -/
def Git.Repository.answer : Except StoreFault (Option Git.Commit) :=
  match r.relativeNames? fs p with
  | none => .ok none
  | some names => (r.blame names).bind fun b => b line

/-- The commit that a line of a file has come from. There is none for a file that the repository
has no blame of, and none for a line that its newest version does not have. -/
def commitBehind? : Option Git.Commit := do
  let names ← (h.connect fs).relativeNames? fs p
  let owners ← blameLines? (historyAt fs h.gitDir) (relativeText names)
  Git.ownerAt? owners line

/-- An answer that either gives provenance or leaves it open. -/
structure Git.Settled (answer : Except StoreFault (Option Git.Commit)) : Prop where
  ne_device : answer ≠ .error .device
  hasTime : ∀ c, answer = .ok (some c) → c.author ≠ "" → c.HasTime

variable {fs r h p line}

theorem Git.settled_iff {answer : Except StoreFault (Option Git.Commit)} :
    Git.Settled answer ↔
      answer ≠ .error .device ∧ ∀ c, answer = .ok (some c) → c.author ≠ "" → c.HasTime :=
  ⟨fun h => ⟨h.ne_device, h.hasTime⟩, fun h => ⟨h.1, h.2⟩⟩

theorem Git.Settled.of_error {f : StoreFault} (hf : f ≠ .device) : Git.Settled (.error f) :=
  ⟨fun h => hf (Except.error.inj h), fun _ h => by cases h⟩

theorem Git.Settled.of_none : Git.Settled (.ok none) :=
  ⟨fun h => (by cases h), fun _ h => by cases h⟩

theorem Git.settled_some_iff {c : Git.Commit} :
    Git.Settled (.ok (some c)) ↔ (c.author ≠ "" → c.HasTime) := by
  refine ⟨fun h => h.hasTime c rfl, fun h => ⟨fun h => (by cases h), fun c' hc' => ?_⟩⟩
  exact Option.some.inj (Except.ok.inj hc') ▸ h

theorem Git.Commit.exists_provenance_eq_ok_iff {c : Git.Commit} :
    (∃ x, c.provenance = .ok x) ↔ (c.author ≠ "" → c.HasTime) := by
  unfold provenance
  by_cases hauthor : c.author = ""
  · rw [if_pos hauthor]
    exact ⟨fun _ h => absurd hauthor h, fun _ => ⟨none, rfl⟩⟩
  · rw [if_neg hauthor]
    constructor
    · rintro ⟨x, h⟩ _
      cases hm : Time.Moment.make c.seconds c.offset with
      | error e =>
        rw [hm] at h
        cases h
      | ok m => exact Time.Moment.exists_make_eq_ok_iff.mp ⟨m, hm⟩
    · intro h
      obtain ⟨m, hm⟩ := Time.Moment.exists_make_eq_ok_iff.mpr (h hauthor)
      rw [hm]
      exact ⟨_, rfl⟩

theorem exists_lineProvenance_eq_ok_iff {b : Blame} :
    (∃ x, lineProvenance b line = .ok x) ↔ Git.Settled (b line) := by
  unfold lineProvenance
  cases b line with
  | error f =>
    cases f with
    | device => exact ⟨fun ⟨_, h⟩ => (by cases h), fun h => absurd rfl h.ne_device⟩
    | _ => exact ⟨fun _ => .of_error (by simp), fun _ => ⟨none, rfl⟩⟩
  | ok answer =>
    cases answer with
    | none => exact ⟨fun _ => .of_none, fun _ => ⟨none, rfl⟩⟩
    | some c =>
      rw [Git.settled_some_iff, ← Git.Commit.exists_provenance_eq_ok_iff]
      dsimp only
      cases c.provenance with
      | ok x => exact ⟨fun _ => ⟨x, rfl⟩, fun _ => ⟨x, rfl⟩⟩
      | error e => exact ⟨fun ⟨_, h⟩ => (by cases h), fun ⟨_, h⟩ => by cases h⟩

/-- Looking for provenance fails only if a device does, or if there is a commit whose time cannot be
represented. Every other failure leaves the provenance open. -/
theorem exists_provenanceOf_eq_ok_iff_settled :
    (∃ x, (provenanceOf fs r p line).1 = .ok x) ↔ Git.Settled (r.answer fs p line) := by
  unfold provenanceOf Git.Repository.fileBlame Git.Repository.answer
  cases r.relativeNames? fs p with
  | none => exact ⟨fun _ => .of_none, fun _ => ⟨none, rfl⟩⟩
  | some names =>
    dsimp only
    cases r.blame names with
    | ok b => exact exists_lineProvenance_eq_ok_iff
    | error f =>
      cases f with
      | device => exact ⟨fun ⟨_, h⟩ => (by cases h), fun h => absurd rfl h.ne_device⟩
      | _ => exact ⟨fun _ => .of_error (by simp), fun _ => ⟨none, rfl⟩⟩

theorem Git.ownerAt?_mem {owners : List Git.Commit} {c : Git.Commit}
    (h : Git.ownerAt? owners line = some c) : c ∈ owners := by
  unfold Git.ownerAt? at h
  split at h
  · exact List.mem_of_getElem? h
  · cases h

theorem Git.author_ne_empty {history : Git.History} {path : String} {owners : List Git.Commit}
    {c : Git.Commit} (h : blameLines? history path = some owners) (hc : c ∈ owners) :
    c.author ≠ "" := by
  have hall := (Option.filter_eq_some_iff.mp h).2
  exact of_decide_eq_true (List.all_eq_true.mp hall c hc)

theorem Git.blameOf_eq (owners : List Git.Commit) (line : Int) :
    blameOf owners line =
      match Git.ownerAt? owners line with
      | some c => .ok (some c)
      | none => .error (.index "no such line") := by
  match line with
  | .ofNat 0 => rfl
  | .negSucc n => rfl
  | .ofNat (n + 1) =>
    cases howner : owners[n]? with
    | none => simp only [blameOf, Git.ownerAt?, howner]
    | some c => simp only [blameOf, Git.ownerAt?, howner]

theorem Git.settled_blameOf_iff {owners : List Git.Commit} (hauthor : ∀ c ∈ owners, c.author ≠ "") :
    Git.Settled (blameOf owners line) ↔ ∀ c, Git.ownerAt? owners line = some c → c.HasTime := by
  rw [Git.blameOf_eq]
  cases howner : Git.ownerAt? owners line with
  | none => exact ⟨fun _ c hc => (by cases hc), fun _ => .of_error (by simp)⟩
  | some c =>
    dsimp only
    rw [Git.settled_some_iff]
    constructor
    · intro h c' hc'
      exact Option.some.inj hc' ▸ h (hauthor c (Git.ownerAt?_mem howner))
    · exact fun h _ => h c rfl

theorem Git.Handle.connect_blame (h : Handle) (names : List String) :
    (h.connect fs).blame names =
      match blameLines? (historyAt fs h.gitDir) (relativeText names) with
      | some owners => .ok (blameOf owners)
      | none => .error (.store "no history") := rfl

/-- An open repository either has no blame of a file, and then no commit stands behind any of its
lines, or it has one from the owners of the lines. -/
theorem fileBlame_connect (fs : FileSystem) (h : Handle) (p : Path) :
    (∃ notices, (h.connect fs).fileBlame fs p = (.ok none, notices) ∧
      ∀ line, commitBehind? fs h p line = none) ∨
    ∃ owners, (h.connect fs).fileBlame fs p = (.ok (some (blameOf owners)), []) ∧
      (∀ c ∈ owners, c.author ≠ "") ∧
      ∀ line, commitBehind? fs h p line = Git.ownerAt? owners line := by
  unfold commitBehind? Git.Repository.fileBlame
  cases (h.connect fs).relativeNames? fs p with
  | none => exact Or.inl ⟨[], rfl, fun _ => rfl⟩
  | some names =>
    cases howners : blameLines? (historyAt fs h.gitDir) (relativeText names) with
    | none =>
      have hblame : (h.connect fs).blame names = .error (.store "no history") := by
        rw [Handle.connect_blame, howners]
      dsimp only
      rw [hblame]
      exact Or.inl ⟨_, rfl, fun _ => by rw [Option.bind_eq_bind, Option.bind_some, howners]; rfl⟩
    | some owners =>
      have hblame : (h.connect fs).blame names = .ok (blameOf owners) := by
        rw [Handle.connect_blame, howners]
      dsimp only
      rw [hblame]
      refine Or.inr ⟨owners, rfl, fun c => Git.author_ne_empty howners, fun _ => ?_⟩
      rw [Option.bind_eq_bind, Option.bind_some, howners]
      rfl

theorem exists_provenanceOf_eq_ok_iff :
    (∃ x, (provenanceOf fs (h.connect fs) p line).1 = .ok x) ↔
      ∀ c, commitBehind? fs h p line = some c → c.HasTime := by
  obtain ⟨notices, hblame, hnone⟩ | ⟨owners, hblame, hauthor, howner⟩ := fileBlame_connect fs h p
  · rw [provenanceOf, hblame, hnone]
    exact ⟨fun _ c hc => (by cases hc), fun _ => ⟨none, rfl⟩⟩
  · rw [provenanceOf, hblame, howner]
    exact exists_lineProvenance_eq_ok_iff.trans (Git.settled_blameOf_iff hauthor)

end CommentTags

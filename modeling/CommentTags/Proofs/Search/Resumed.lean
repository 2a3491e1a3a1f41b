import CommentTags.Proofs.Search.Complete

namespace CommentTags

namespace FileSystem

variable {fs : FileSystem} {node : Node}

theorem lookupFrom_true_of_false {links : Nat} {loc loc' : Location} {names : List String}
    (h : fs.lookupFrom false links loc names = .ok (loc', node)) (hl : node.isLink = false) :
    fs.lookupFrom true links loc names = .ok (loc', node) := by
  fun_induction FileSystem.lookupFrom fs false links loc names with
  | case1 links loc n hd =>
    cases h
    exact lookupFrom_nil fs hd
  | case7 links loc names es info hd hs ih =>
    rw [lookupFrom_dot fs hd (searchable_of_not hs)]
    exact ih h
  | case8 links loc names es info hd hs _ ih =>
    rw [lookupFrom_dotdot fs hd (searchable_of_not hs)]
    exact ih h
  | case10 =>
    cases h
    cases hl
  | case12 loc name names es info hd hs h1 h2 target he hn links ih =>
    rw [lookupFrom_link fs hd (searchable_of_not hs) h1 h2 he fun h => by simp at h]
    exact ih h
  | case13 links loc name names es info hd hs h1 h2 n hlink he ih =>
    rw [lookupFrom_entry fs hd (searchable_of_not hs) h1 h2 he (Node.isLink_eq_false hlink)]
    exact ih h
  | _ => cases h

theorem lookup_true_of_false {p : Path} {loc : Location}
    (h : fs.lookup false p = .ok (loc, node)) (hl : node.isLink = false) :
    fs.lookup true p = .ok (loc, node) := by
  obtain ⟨hnul, h⟩ := lookup_eq_ok_iff.mp h
  exact lookup_eq_ok_iff.mpr ⟨hnul, lookupFrom_true_of_false h hl⟩

theorem exists_lookup_of_nodeItself? {p : Path} (h : fs.nodeItself? p = some node) :
    ∃ loc, fs.lookup false p = .ok (loc, node) := by
  rw [nodeItself?] at h
  cases hl : fs.lookup false p with
  | error e => simp [hl, Except.toOption] at h
  | ok r =>
    obtain rfl : r.2 = node := by simpa [hl, Except.toOption] using h
    exact ⟨r.1, rfl⟩

end FileSystem

namespace Search

variable {fs : FileSystem} {o : Options} {ready : List Event} {ts : List Task}

def Task.IsLoaded (fs : FileSystem) (t : Task) : Prop :=
  Task.load fs t.pending = t

theorem Task.isLoaded_load (fs : FileSystem) (p : Pending) : (Task.load fs p).IsLoaded fs := by
  cases p <;> rfl

theorem Task.isLoaded_file (repo : Option Git.Handle) (p : Path) :
    Task.IsLoaded fs ⟨.file repo p, none⟩ := rfl

theorem Task.isLoaded_listing {p : Path} {loc : Location} {entries : List (String × Node)}
    {info : DirInfo} (repo : Option Git.Handle)
    (h : fs.lookup true p = .ok (loc, .dir entries info))
    (hn : (Node.dir entries info).WellFormed) :
    ∀ t ∈ Task.listing fs repo p entries info, t.IsLoaded fs := by
  intro t ht
  rw [Task.listing] at ht
  split at ht
  swap
  · cases ht
  obtain ht | ht := List.mem_append.mp ht
  · obtain ⟨e, -, rfl⟩ := List.mem_map.mp ht
    exact Task.isLoaded_file repo (p.child e.1)
  · obtain ⟨e, he, rfl⟩ := List.mem_map.mp ht
    have hmem := mem_of_mem_dirsIn he
    have hname := hn.isEntryName_of_mem hmem
    rw [Task.IsLoaded, Task.load, FileSystem.nodeItself?]
    cases hs : info.searchable with
    | true =>
      have hlookup := Node.lookup_of_mem hn.nodup_names hmem
      rw [FileSystem.lookup_child h hs hname hlookup fun _ => rfl]
      rfl
    | false =>
      rw [FileSystem.lookup_child_of_unsearchable h hs hname]
      rfl

theorem Task.isLoaded_startTasks (hfs : fs.root.WellFormed) (repo : Option Git.Handle) (p : Path) :
    ∀ u ∈ Task.startTasks fs repo p (fs.node? p), u.IsLoaded fs := by
  cases hn : fs.node? p with
  | none => exact List.forall_mem_nil _
  | some n =>
    cases n with
    | link target => exact List.forall_mem_nil _
    | dir entries info =>
      obtain ⟨loc, h⟩ := FileSystem.node?_eq_some_iff.mp hn
      exact isLoaded_listing repo h (FileSystem.lookup_wellFormed hfs h)
    | file content =>
      rw [startTasks]
      split
      · exact List.forall_mem_nil _
      · exact List.forall_mem_singleton.mpr (isLoaded_file _ _)

theorem Task.isLoaded_expand (hfs : fs.root.WellFormed) (o : Options) {t : Task}
    (ht : t.IsLoaded fs) : ∀ u ∈ (t.expand fs o).2, u.IsLoaded fs := by
  have hnone : ∀ u ∈ ([] : List Task), u.IsLoaded fs := List.forall_mem_nil _
  obtain ⟨pending, node⟩ := t
  cases pending with
  | start path =>
    obtain rfl : fs.node? (.ofString path) = node := congrArg Task.node ht
    dsimp only [expand]
    split
    · exact hnone
    · split
      · exact hnone
      · exact isLoaded_startTasks hfs _ _
  | directory repo p =>
    obtain rfl : fs.nodeItself? p = node := congrArg Task.node ht
    cases hn : fs.nodeItself? p with
    | none => exact hnone
    | some n =>
      cases n with
      | link target => exact hnone
      | file content => exact hnone
      | dir entries info =>
        obtain ⟨loc, hself⟩ := FileSystem.exists_lookup_of_nodeItself? hn
        have h := FileSystem.lookup_true_of_false hself rfl
        exact isLoaded_listing repo h (FileSystem.lookup_wellFormed hfs h)
  | file repo p =>
    dsimp only [expand]
    split <;> exact hnone

theorem Task.map_load_pending (h : ∀ t ∈ ts, t.IsLoaded fs) :
    (ts.map Task.pending).map (Task.load fs) = ts := by
  rw [List.map_map]
  exact (List.map_congr_left h).trans (List.map_id ts)

theorem isLoaded_seek (hfs : fs.root.WellFormed) (hts : ∀ t ∈ ts, t.IsLoaded fs) :
    ∀ t ∈ (seek fs o ready ts).tasks, t.IsLoaded fs := by
  fun_induction seek fs o ready ts with
  | case1 => exact hts
  | case2 n es ts p ih => exact ih hts
  | case3 => exact List.forall_mem_nil _
  | case4 => exact List.forall_mem_nil _
  | case5 t ts ih =>
    obtain ⟨ht, hts⟩ := List.forall_mem_cons.mp hts
    exact ih (List.forall_mem_append.mpr ⟨Task.isLoaded_expand hfs o ht, hts⟩)

namespace Results

def nothing : Results := ⟨[], [], none⟩

instance : Append Results :=
  ⟨fun r r' => ⟨r.tags ++ r'.tags, r.notices ++ r'.notices, r.failure.or r'.failure⟩⟩

theorem append_def (r r' : Results) :
    r ++ r' = ⟨r.tags ++ r'.tags, r.notices ++ r'.notices, r.failure.or r'.failure⟩ := rfl

theorem append_nothing (r : Results) : r ++ nothing = r := by
  simp [append_def, nothing]

end Results

open Results (ofEvents nothing)

def handedOut (result : Except SearchError (Option Tag)) (notices : List Notice) : Results :=
  match result with
  | .ok t => ⟨t.toList, notices, none⟩
  | .error e => ⟨[], notices, some e⟩

theorem handedOut_cons (result : Except SearchError (Option Tag)) (n : Notice)
    (notices : List Notice) :
    handedOut result (n :: notices) =
      { handedOut result notices with notices := n :: (handedOut result notices).notices } := by
  cases result <;> rfl

/-- What is handed out and what is left are together what there was. -/
theorem ofEvents_seek (fs : FileSystem) (o : Options) (ready : List Event) (ts : List Task) :
    let p := seek fs o ready ts
    handedOut p.result p.notices ++ ofEvents (p.ready ++ runTasks fs o p.tasks) =
      ofEvents (ready ++ runTasks fs o ts) := by
  dsimp only
  fun_induction seek fs o ready ts with
  | case1 => rfl
  | case2 n es ts p ih =>
    rw [List.cons_append, ofEvents, ← ih, handedOut_cons]
    rfl
  | case3 => rw [List.nil_append, runTasks_nil]; rfl
  | case4 => rw [List.nil_append, runTasks_nil]; rfl
  | case5 t ts ih => rw [ih, List.nil_append, runTasks_cons]

theorem seek_ends
    (h : (handedOut (seek fs o ready ts).result (seek fs o ready ts).notices).tags = []) :
    (seek fs o ready ts).ready = [] ∧ (seek fs o ready ts).tasks = [] := by
  fun_induction seek fs o ready ts with
  | case1 => cases h
  | case2 n es ts p ih =>
    rw [handedOut_cons] at h
    exact ih h
  | case3 => exact ⟨rfl, rfl⟩
  | case4 => exact ⟨rfl, rfl⟩
  | case5 t ts ih => exact ih h

inductive Step where
  | next
  | rest
  | close
  deriving DecidableEq, Repr

namespace Cursor

/-- What a step hands out, and the cursor behind it. A cursor that has been asked for the rest is
closed. -/
def step (fs : FileSystem) (c : Cursor) : Step → Results × Cursor
  | .next => (handedOut (c.next fs).1 (c.next fs).2.1, (c.next fs).2.2)
  | .rest => (c.rest fs, c.close)
  | .close => (nothing, c.close)

/-- The steps of a cursor, each with what it hands out. -/
def drive (fs : FileSystem) (c : Cursor) : List Step → List (Step × Results)
  | [] => []
  | s :: steps => (s, (c.step fs s).1) :: drive fs (c.step fs s).2 steps

def Ended (c : Cursor) : Prop :=
  c.ready = [] ∧ c.pending = []

theorem ended_close (c : Cursor) : c.close.Ended := ⟨rfl, rfl⟩

theorem rest_start (fs : FileSystem) (o : Options) (roots : List String) :
    (start o roots).rest fs = ofEvents (run fs o roots) := by
  simp [rest, start, tasks, run, Function.comp_def]

theorem rest_of_ended {c : Cursor} (h : c.Ended) : c.rest fs = nothing := by
  rw [rest, tasks, h.1, h.2, List.map_nil, runTasks_nil]
  rfl

theorem step_of_ended {c : Cursor} (h : c.Ended) (s : Step) :
    (c.step fs s).1 = nothing ∧ (c.step fs s).2.Ended := by
  cases s with
  | next =>
    have hseek : seek fs c.options c.ready (c.tasks fs) = ⟨[], .ok none, [], []⟩ := by
      rw [tasks, h.1, h.2, List.map_nil, seek]
    rw [step, next, hseek]
    exact ⟨rfl, rfl, rfl⟩
  | rest => exact ⟨rest_of_ended h, c.ended_close⟩
  | close => exact ⟨rfl, c.ended_close⟩

theorem drive_of_ended {c : Cursor} (h : c.Ended) (steps : List Step) :
    ∀ e ∈ c.drive fs steps, e.2 = nothing := by
  induction steps generalizing c with
  | nil => exact List.forall_mem_nil _
  | cons s steps ih =>
    obtain ⟨hnothing, hended⟩ : (c.step fs s).1 = nothing ∧ (c.step fs s).2.Ended :=
      step_of_ended h s
    exact List.forall_mem_cons.mpr ⟨hnothing, ih hended⟩

theorem rest_next (hfs : fs.root.WellFormed) (c : Cursor) :
    (c.step fs .next).1 ++ (c.step fs .next).2.rest fs = c.rest fs := by
  have hloaded : ∀ t ∈ c.tasks fs, t.IsLoaded fs := by
    intro t ht
    obtain ⟨p, -, rfl⟩ := List.mem_map.mp ht
    exact Task.isLoaded_load fs p
  have htasks : (c.next fs).2.2.tasks fs = (seek fs c.options c.ready (c.tasks fs)).tasks :=
    Task.map_load_pending (isLoaded_seek hfs hloaded)
  rw [rest, step, htasks]
  exact ofEvents_seek fs c.options c.ready (c.tasks fs)

theorem rest_step (hfs : fs.root.WellFormed) (c : Cursor) {s : Step} (hs : s ≠ .close) :
    (c.step fs s).1 ++ (c.step fs s).2.rest fs = c.rest fs := by
  cases s with
  | next => exact rest_next hfs c
  | rest =>
    rw [step, rest_of_ended c.ended_close]
    exact Results.append_nothing _
  | close => exact absurd rfl hs

end Cursor

/-- Behind such a step a cursor has no more to give: it is closed, or it has been asked for the
rest, or for a next tag that there is not. -/
def Ends : Step → Results → Prop
  | .next, r => r.tags = []
  | .rest, _ | .close, _ => True

theorem ended_of_ends {c : Cursor} {s : Step} (h : Ends s (c.step fs s).1) :
    (c.step fs s).2.Ended := by
  cases s with
  | next =>
    obtain ⟨hready, htasks⟩ := seek_ends h
    refine ⟨hready, ?_⟩
    rw [Cursor.step, Cursor.next, htasks]
    rfl
  | rest => exact c.ended_close
  | close => exact c.ended_close

def total : List (Step × Results) → Results
  | [] => nothing
  | e :: es => e.2 ++ total es

theorem total_of_nothing {es : List (Step × Results)} (h : ∀ e ∈ es, e.2 = nothing) :
    total es = nothing := by
  induction es with
  | nil => rfl
  | cons e es ih =>
    obtain ⟨he, hes⟩ := List.forall_mem_cons.mp h
    rw [total, he, ih hes]
    rfl

theorem total_cons_of_close {s : Step} {r rest : Results} {es : List (Step × Results)}
    (hs : s = .close) (hr : r = nothing)
    (hends : Ends s r → rest = nothing ∧ ∀ e ∈ es, e.2 = nothing) :
    total ((s, r) :: es) = nothing := by
  subst hs
  exact total_of_nothing (List.forall_mem_cons.mpr ⟨hr, (hends trivial).2⟩)

/-- What it means that the steps of a cursor hand out a search that comes to `whole`. -/
structure HandsOut (whole : Results) (history : List (Step × Results)) : Prop where
  /-- Whatever the steps are, they hand out no more than a beginning of it. -/
  tags : (total history).tags <+: whole.tags
  notices : (total history).notices <+: whole.notices
  /-- All of it has been handed out once the rest or a tag that there is not has been asked for,
  unless the cursor has been closed before. -/
  complete : ∀ before s r after, history = before ++ (s, r) :: after →
    (∀ e ∈ before ++ [(s, r)], e.1 ≠ .close) → Ends s r → total (before ++ [(s, r)]) = whole
  /-- Nothing is handed out behind that, and nothing behind the closing of the cursor. -/
  silent : ∀ before s r after, history = before ++ (s, r) :: after → Ends s r →
    ∀ e ∈ after, e.2 = nothing

theorem handsOut_nil (whole : Results) : HandsOut whole [] where
  tags := List.nil_prefix
  notices := List.nil_prefix
  complete _ _ _ _ h := absurd h.symm (List.append_ne_nil_of_right_ne_nil _ nofun)
  silent _ _ _ _ h := absurd h.symm (List.append_ne_nil_of_right_ne_nil _ nofun)

/-- One more step in front of a history. -/
theorem HandsOut.cons {whole rest r : Results} {s : Step} {history : List (Step × Results)}
    (h : HandsOut rest history) (hrest : s ≠ .close → r ++ rest = whole)
    (hclose : s = .close → r = nothing)
    (hends : Ends s r → rest = nothing ∧ ∀ e ∈ history, e.2 = nothing) :
    HandsOut whole ((s, r) :: history) where
  tags := by
    by_cases hs : s = .close
    · rw [total_cons_of_close hs (hclose hs) hends]
      exact List.nil_prefix
    · rw [← hrest hs]
      exact (List.prefix_append_right_inj _).mpr h.tags
  notices := by
    by_cases hs : s = .close
    · rw [total_cons_of_close hs (hclose hs) hends]
      exact List.nil_prefix
    · rw [← hrest hs]
      exact (List.prefix_append_right_inj _).mpr h.notices
  complete := by
    intro before s' r' after hsplit hopen hends'
    cases before with
    | nil =>
      obtain ⟨⟨rfl, rfl⟩, rfl⟩ := List.cons.inj hsplit
      have hs := hopen _ List.mem_cons_self
      rw [← hrest hs, (hends hends').1]
      rfl
    | cons e before =>
      obtain ⟨rfl, htail⟩ := List.cons.inj hsplit
      obtain ⟨hs, hopen⟩ := List.forall_mem_cons.mp hopen
      rw [← hrest hs, ← h.complete before s' r' after htail hopen hends']
      rfl
  silent := by
    intro before s' r' after hsplit hends'
    cases before with
    | nil =>
      obtain ⟨⟨rfl, rfl⟩, rfl⟩ := List.cons.inj hsplit
      exact (hends hends').2
    | cons e before =>
      exact h.silent before s' r' after (List.cons.inj hsplit).2 hends'

theorem handsOut_drive (hfs : fs.root.WellFormed) (c : Cursor) (steps : List Step) :
    HandsOut (c.rest fs) (c.drive fs steps) := by
  induction steps generalizing c with
  | nil => exact handsOut_nil _
  | cons s steps ih =>
    refine (ih (c.step fs s).2).cons (Cursor.rest_step hfs c) ?_ fun hends => ?_
    · rintro rfl
      rfl
    · have hended := ended_of_ends hends
      exact ⟨Cursor.rest_of_ended hended, Cursor.drive_of_ended hended steps⟩

variable {ι : Type} [DecidableEq ι] {α : Type}

def drive (fs : FileSystem) (cursors : ι → Cursor) :
    List (ι × Step) → List (ι × Step × Results)
  | [] => []
  | (i, s) :: steps =>
    (i, s, ((cursors i).step fs s).1) ::
      drive fs (Function.update cursors i ((cursors i).step fs s).2) steps

def own (i : ι) (es : List (ι × α)) : List α :=
  (es.filter (·.1 = i)).map Prod.snd

theorem own_cons_self (i : ι) (a : α) (es : List (ι × α)) :
    own i ((i, a) :: es) = a :: own i es := by
  simp [own]

theorem own_cons_of_ne {i j : ι} (h : j ≠ i) (a : α) (es : List (ι × α)) :
    own i ((j, a) :: es) = own i es := by
  simp [own, h]

theorem own_drive (cursors : ι → Cursor) (i : ι) (steps : List (ι × Step)) :
    own i (drive fs cursors steps) = (cursors i).drive fs (own i steps) := by
  induction steps generalizing cursors with
  | nil => rfl
  | cons e steps ih =>
    obtain ⟨j, s⟩ := e
    rw [drive]
    by_cases hj : j = i
    · subst hj
      rw [own_cons_self, own_cons_self, ih, Function.update_self]
      rfl
    · rw [own_cons_of_ne hj, own_cons_of_ne hj, ih, Function.update_of_ne (Ne.symm hj)]

/-- In whatever way searches are driven side by side, each of them hands out what it would by
itself, and that is what it comes to when it is run at once. -/
theorem drive_handsOut (fs : FileSystem) (hfs : fs.root.WellFormed) (options : ι → Options)
    (roots : ι → List String) (steps : List (ι × Step)) (i : ι) :
    let history := own i (drive fs (fun j => Cursor.start (options j) (roots j)) steps)
    history = (Cursor.start (options i) (roots i)).drive fs (own i steps) ∧
      HandsOut (ofEvents (run fs (options i) (roots i))) history := by
  dsimp only
  rw [own_drive, ← Cursor.rest_start]
  exact ⟨rfl, handsOut_drive hfs _ _⟩

def turns : List (Bool × Step) :=
  [(false, .next), (true, .next), (true, .close), (false, .rest), (true, .next)]

def bothOfSmallTree (i : Bool) : List (Step × Results) :=
  own i (drive smallTree (fun _ => Cursor.start .withoutRepository ["."]) turns)

theorem ofEvents_run_smallTree :
    ofEvents (run smallTree .withoutRepository ["."]) = ⟨smallTags, [], none⟩ := by
  rw [run_smallTree_eq_map, Results.ofEvents_tags]

theorem smallTree_handsOut :
    smallTree.root.WellFormed ∧
    HandsOut (ofEvents (run smallTree .withoutRepository ["."])) (bothOfSmallTree false) ∧
    total (bothOfSmallTree false) = ⟨smallTags, [], none⟩ ∧
    ∀ e ∈ (bothOfSmallTree true).drop 2, e = (.next, nothing) := by
  have hwf : smallTree.root.WellFormed := by decide
  obtain ⟨hfalse, hresumed⟩ :=
    drive_handsOut smallTree hwf (fun _ => .withoutRepository) (fun _ => ["."]) turns false
  obtain ⟨htrue, hclosed⟩ :=
    drive_handsOut smallTree hwf (fun _ => .withoutRepository) (fun _ => ["."]) turns true
  refine ⟨hwf, hresumed, ?_, ?_⟩
  · have hsplit : bothOfSmallTree false = [(.next, _)] ++ (.rest, _) :: [] := hfalse
    have hopen : ∀ e ∈ bothOfSmallTree false, e.1 ≠ .close := by
      rw [hsplit]
      exact List.forall_mem_cons.mpr ⟨nofun, List.forall_mem_singleton.mpr nofun⟩
    rw [← ofEvents_run_smallTree, ← hresumed.complete _ _ _ _ hsplit (hsplit ▸ hopen) trivial,
      hsplit]
  · have hsplit : bothOfSmallTree true = [(.next, _)] ++ (.close, _) :: [(.next, _)] := htrue
    have hsilent := hclosed.silent _ _ _ _ hsplit trivial
    rw [hsplit]
    exact List.forall_mem_singleton.mpr (Prod.ext rfl (hsilent _ List.mem_cons_self))

end Search

end CommentTags

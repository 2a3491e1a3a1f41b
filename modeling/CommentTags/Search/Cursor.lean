import CommentTags.Search.Task

namespace CommentTags.Search

variable (fs : FileSystem) (o : Options)

def runTasks : List Task → List Event
  | [] => []
  | t :: ts => (t.expand fs o).1 ++ runTasks ((t.expand fs o).2 ++ ts)
termination_by ts => Task.weights ts
decreasing_by
  have := Task.weight_expand_lt fs o t
  rw [Task.weights_append]
  simp only [Task.weights] at *
  omega

def run (roots : List String) : List Event :=
  runTasks fs o (roots.map fun r => Task.load fs (.start r))

/-- The tags up to the first failure, the notices up to there, and the failure. -/
structure Results where
  tags : List Tag
  notices : List Notice
  failure : Option SearchError
  deriving DecidableEq

def Results.ofEvents : List Event → Results
  | [] => ⟨[], [], none⟩
  | .tag t :: es => let r := ofEvents es; { r with tags := t :: r.tags }
  | .notice n :: es => let r := ofEvents es; { r with notices := n :: r.notices }
  | .failed e :: _ => ⟨[], [], some e⟩

structure Progress where
  notices : List Notice
  result : Except SearchError (Option Tag)
  ready : List Event
  tasks : List Task

/-- Go on to the next tag. Nothing is left behind a failure. -/
def seek : (ready : List Event) → (tasks : List Task) → Progress
  | .tag t :: es, ts => ⟨[], .ok (some t), es, ts⟩
  | .notice n :: es, ts =>
    let p := seek es ts
    { p with notices := n :: p.notices }
  | .failed e :: _, _ => ⟨[], .error e, [], []⟩
  | [], [] => ⟨[], .ok none, [], []⟩
  | [], t :: ts => seek (t.expand fs o).1 ((t.expand fs o).2 ++ ts)
termination_by ready tasks => (Task.weights tasks, ready.length)
decreasing_by
  · apply Prod.Lex.right
    simp
  · apply Prod.Lex.left
    have := Task.weight_expand_lt fs o t
    rw [Task.weights_append]
    simp only [Task.weights] at *
    omega

structure Cursor where
  options : Options
  ready : List Event
  pending : List Pending
  deriving DecidableEq

namespace Cursor

def start (o : Options) (roots : List String) : Cursor :=
  ⟨o, [], roots.map .start⟩

def close (c : Cursor) : Cursor :=
  { c with ready := [], pending := [] }

def tasks (c : Cursor) : List Task :=
  c.pending.map (Task.load fs)

def next (c : Cursor) : Except SearchError (Option Tag) × List Notice × Cursor :=
  let p := seek fs c.options c.ready (c.tasks fs)
  (p.result, p.notices, { c with ready := p.ready, pending := p.tasks.map Task.pending })

def rest (c : Cursor) : Results :=
  .ofEvents (c.ready ++ runTasks fs c.options (c.tasks fs))

end Cursor

end CommentTags.Search

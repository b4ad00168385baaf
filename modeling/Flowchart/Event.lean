/-
The log.

A computation that logs gives the events in order and then its outcome; events that were logged before an error stay.
`Logged` is a monad, and its `outcome` follows the outcomes of its steps as if nothing were logged (`outcome_bind`).
-/
import Flowchart.Document.Basic

namespace Flowchart

/-- what is logged -/
inductive Event where
  /-- the graph is indexed: how many nodes, and how many of them have edges -/
  | indexed (nodes sources : Nat)
  | building (start : String)
  | lowering (id : String) (kind : NodeKind)
  | parsing (input : String)
  /-- a node has several edges to go on by, of which the first is taken -/
  | severalEdges (id taken : String) (ignored : Nat)
  | noBranch (id : String) (branch : Bool)
  | alreadyReturned (id : String)
  /-- the tree is rendered: how many statements at its root, and how long the source text is in UTF-8 -/
  | finished (statements bytes : Nat)
deriving DecidableEq, Repr

/-- how much an event matters -/
inductive Level where
  | trace
  | debug
  | warn
deriving DecidableEq, Repr

/-- the name of a level -/
def Level.name : Level → String
  | .trace => "TRACE"
  | .debug => "DEBUG"
  | .warn => "WARN"

namespace Event

/-- the level of an event -/
def level : Event → Level
  | .parsing _ => .trace
  | .severalEdges _ _ _ => .warn
  | _ => .debug

/-- the wording of an event -/
def message : Event → String
  | .indexed _ _ => "indexed flow graph"
  | .building _ => "building tree"
  | .lowering _ _ => "lowering node"
  | .parsing _ => "parsing expression"
  | .severalEdges _ _ _ => "node has several unconditioned outgoing edges, following the first"
  | .noBranch _ _ => "branch has no outgoing edge"
  | .alreadyReturned _ => "return already emitted, skipping end node"
  | .finished _ _ => "compilation finished"

/-- the details of an event -/
def fields : Event → List (String × String)
  | .indexed nodes sources => [("nodes", toString nodes), ("sources", toString sources)]
  | .building start => [("start", start)]
  | .lowering id kind => [("node_id", id), ("kind", kind.name)]
  | .parsing input => [("input", input)]
  | .severalEdges id taken ignored => [("node_id", id), ("taken", taken), ("ignored", toString ignored)]
  | .noBranch id branch => [("node_id", id), ("branch", toString branch)]
  | .alreadyReturned id => [("node_id", id)]
  | .finished statements bytes => [("statements", toString statements), ("bytes", toString bytes)]

end Event

/-- a computation that logs -/
structure Logged (ε α : Type) where
  events : List Event
  outcome : Except ε α

namespace Logged

variable {ε α β : Type}

/-- a step after another one; after an error there is none -/
def bind (x : Logged ε α) (f : α → Logged ε β) : Logged ε β :=
  match x.outcome with
  | .ok a => ⟨x.events ++ (f a).events, (f a).outcome⟩
  | .error e => ⟨x.events, .error e⟩

instance : Monad (Logged ε) where
  pure a := ⟨[], .ok a⟩
  bind := bind

instance : MonadLift (Except ε) (Logged ε) where
  monadLift x := ⟨[], x⟩

theorem bind_assoc {γ : Type} (x : Logged ε α) (f : α → Logged ε β) (g : β → Logged ε γ) :
    bind (bind x f) g = bind x fun a => bind (f a) g := by
  obtain ⟨events, _ | a⟩ := x
  · rfl
  · cases h : (f a).outcome <;> simp [bind, h]

theorem bind_pure (x : Logged ε α) : bind x (fun a => ⟨[], .ok a⟩) = x := by
  obtain ⟨events, _ | a⟩ := x
  · rfl
  · simp [bind]

instance : LawfulMonad (Logged ε) :=
  LawfulMonad.mk' _ (fun x => bind_pure x) (fun _ _ => rfl) (fun x f g => bind_assoc x f g)

/-- an error -/
def fail (e : ε) : Logged ε α := ⟨[], .error e⟩

/-- log these -/
def log (events : List Event) : Logged ε Unit := ⟨events, .ok ()⟩

@[simp] theorem outcome_pure (a : α) : (pure a : Logged ε α).outcome = .ok a := rfl

@[simp] theorem outcome_fail (e : ε) : (fail e : Logged ε α).outcome = .error e := rfl

@[simp] theorem outcome_log (events : List Event) : (log events : Logged ε Unit).outcome = .ok () := rfl

@[simp] theorem outcome_lift (x : Except ε α) : (liftM x : Logged ε α).outcome = x := rfl

@[simp] theorem outcome_bind (x : Logged ε α) (f : α → Logged ε β) :
    (x >>= f).outcome = x.outcome >>= fun a => (f a).outcome := by
  show (bind x f).outcome = _
  unfold bind
  cases x.outcome <;> rfl

end Logged

end Flowchart

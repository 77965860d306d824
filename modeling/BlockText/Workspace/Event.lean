import BlockText.Block.Node

/-!
# Events and observers

An edit fires the events that describe it, after it is complete. Observers are numbered in the order
in which they subscribe, and each event goes to all of them in that order.
-/

namespace BlockText

/-- What happened to a workspace. -/
inductive Event where
  /-- A new root. -/
  | created (node : NodeId) (kind : Kind)
  /-- A node with all below it is gone; the node comes first. -/
  | deleted (nodes : List NodeId)
  | fieldChanged (node : NodeId) (field : String)
  /-- A node moved into an input, or to the top level. -/
  | reconnected (node : NodeId) (place : Option (NodeId × String))
  /-- A conditional has other branches; the detached nodes are roots now. -/
  | shapeChanged (node : NodeId) (old new : Mutation) (detached : List NodeId)
  /-- All roots are new; so many there are. -/
  | replaced (roots : Nat)
  deriving DecidableEq

/-- Every event but a change of a field changes which nodes there are, or where they are. -/
def Event.isStructural : Event → Bool
  | fieldChanged _ _ => false
  | _ => true

/-- The observers of a workspace by number, and the number of the next one. -/
structure Observers where
  next : Nat := 0
  active : List Nat := []

namespace Observers

/-- One more observer, and its number. -/
def subscribe (o : Observers) : Observers × Nat := (⟨o.next + 1, o.active ++ [o.next]⟩, o.next)

/-- Without an observer, and whether it was there. -/
def unsubscribe (o : Observers) (n : Nat) : Observers × Bool :=
  ({ o with active := o.active.filter (· ≠ n) }, o.active.contains n)

/-- What each observer is told of some events, in order. -/
def deliver (o : Observers) (events : List Event) : List (Nat × Event) :=
  events.flatMap fun e => o.active.map fun n => (n, e)

end Observers

end BlockText

import BlockText.Scheduler
import BlockText.Session

/-!
# Desks

A desk is a session with a scheduler that hears of its changes, with a clock and with validation
tickets.
-/

namespace BlockText

/-- A session with what goes on around it. -/
structure Desk where
  session : Session
  scheduler : Scheduler
  tickets : Tickets := {}
  now : Nat := 0
  /-- Whether changes are still passed on to the scheduler. -/
  listening : Bool := true

/-- An event that was heard, and whether the session was busy then. -/
structure Heard where
  event : Event
  busy : Bool
  deriving DecidableEq

namespace Desk

/-- Passes an event on to the scheduler. -/
def hear (d : Desk) (h : Heard) : Desk :=
  { d with scheduler := d.scheduler.notify h.busy d.now }

/-- A step of the session. Its events go to the scheduler one by one; the answer comes with those
that were heard. -/
def apply {α : Type} (d : Desk) (step : Step α) : Desk × Except SessionError α × List Heard :=
  let after := { d with session := step.session }
  if d.listening then
    let heard := step.events.map fun e => ⟨e, step.busy⟩
    (heard.foldl hear after, step.answer, heard)
  else (after, step.answer, [])

/-- Stops passing on changes, and answers whether they were passed on. -/
def stopListening (d : Desk) : Desk × Bool := ({ d with listening := false }, d.listening)

end Desk

end BlockText

/-!
# Scheduling

A burst of changes asks for one conversion. Each request moves the one deadline, and the first poll
at or after it fires. Time is given by the caller, in milliseconds, and has no end here: a deadline
past the range of a clock, for which a request has no answer, is left out. Of the results of
validations only the one that was asked for last counts.
-/

namespace BlockText

/-- When a conversion is due after the last request, and when it is due now, if it was requested. -/
structure Scheduler where
  delay : Nat
  deadline : Option Nat := none
  /-- Whether changes that are made while a session is busy are left out. -/
  watchesBusy : Bool := false
  deriving DecidableEq

namespace Scheduler

/-- Asks for a conversion, in place of one asked for before. -/
def request (s : Scheduler) (now : Nat) : Scheduler := { s with deadline := some (now + s.delay) }

/-- Tells of a change. -/
def notify (s : Scheduler) (busy : Bool) (now : Nat) : Scheduler :=
  if s.watchesBusy && busy then s else s.request now

/-- Whether the conversion is due; it is due once. -/
def poll (s : Scheduler) (now : Nat) : Scheduler × Bool :=
  match s.deadline with
  | some deadline => if deadline ≤ now then ({ s with deadline := none }, true) else (s, false)
  | none => (s, false)

/-- Gives up the conversion that was asked for. -/
def cancel (s : Scheduler) : Scheduler := { s with deadline := none }

/-- Whether a conversion is asked for. -/
def isPending (s : Scheduler) : Bool := s.deadline.isSome

end Scheduler

/-- How many validations were asked for. -/
structure Tickets where
  issued : Nat := 0
  deriving DecidableEq

namespace Tickets

/-- One more validation, and its number. -/
def issue (t : Tickets) : Tickets × Nat := (⟨t.issued + 1⟩, t.issued)

/-- Whether a validation is the last that was asked for. -/
def isCurrent (t : Tickets) (ticket : Nat) : Bool := ticket + 1 == t.issued

end Tickets

end BlockText

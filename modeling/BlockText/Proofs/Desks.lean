import BlockText.Desk
import BlockText.Proofs.Sessions
import Mathlib.Data.List.Basic

/-!
# Replacements and the scheduler

A text that replaces the workspace makes a change that is not to ask for a conversion back. The
scheduler hears of it while the busy flag is taken, and so leaves it out. Edits are refused while
the flag is taken, so the scheduler hears of each of their changes, and each moves the deadline.
A desk on which a scheduler listens keeps listening, whatever is done: hence this holds after any
actions, and a text that is refused leaves the whole desk as it was.
-/

namespace BlockText

/-! ## One event -/

namespace Scheduler

variable {s : Scheduler} {now : Nat}

theorem notify_of_busy (h : s.watchesBusy = true) (now : Nat) : s.notify true now = s := by
  simp [notify, h]

theorem notify_of_free (s : Scheduler) (now : Nat) : s.notify false now = s.request now := by
  simp [notify]

/-- Only the deadline moves. -/
theorem notify_eq (s : Scheduler) (busy : Bool) (now : Nat) :
    ∃ deadline, s.notify busy now = { s with deadline := deadline } := by
  unfold notify
  split
  · exact ⟨s.deadline, rfl⟩
  · exact ⟨_, rfl⟩

theorem poll_eq (s : Scheduler) (now : Nat) :
    ∃ deadline, (s.poll now).1 = { s with deadline := deadline } := by
  unfold poll
  split
  · split
    · exact ⟨none, rfl⟩
    · exact ⟨s.deadline, rfl⟩
  · exact ⟨s.deadline, rfl⟩

end Scheduler

namespace Desk

/-- What can happen at a desk: work of its session, the clock, and uses of the scheduler and the
tickets. -/
inductive Action : Type 1 where
  | work (a : Session.Action)
  | wait (now : Nat)
  | request
  | poll
  | cancel
  | issue

/-- A desk after an action. -/
def after (d : Desk) : Action → Desk
  | .work a => (d.apply (d.session.perform a)).1
  | .wait now => { d with now := now }
  | .request => { d with scheduler := d.scheduler.request d.now }
  | .poll => { d with scheduler := (d.scheduler.poll d.now).1 }
  | .cancel => { d with scheduler := d.scheduler.cancel }
  | .issue => { d with tickets := d.tickets.issue.1 }

/-- A fresh session at a desk, after some actions. The scheduler hears of all changes, and leaves out
those that are made while the session is busy. -/
def history (setup : Setup) (delay : Nat) (actions : List Action) : Desk :=
  actions.foldl after
    { session := { setup := setup }, scheduler := { delay := delay, watchesBusy := true } }

/-! ## Listening -/

variable {setup : Setup} {delay : Nat} {d : Desk}

/-- The scheduler hears of all changes, leaves out those of a busy session, and has its delay. -/
structure Attentive (setup : Setup) (delay : Nat) (d : Desk) : Prop where
  fresh : Session.Fresh setup d.session
  delay_eq : d.scheduler.delay = delay
  watchesBusy : d.scheduler.watchesBusy = true
  listening : d.listening = true

theorem apply_of_listening {α : Type} (h : d.listening = true) (step : Step α) :
    d.apply step = ((step.events.map fun e => ⟨e, step.busy⟩).foldl hear
      { d with session := step.session }, step.answer,
        step.events.map fun e => ⟨e, step.busy⟩) := by
  simp [apply, h]

/-- Events that are heard move the deadline and nothing else. -/
theorem foldl_hear_eq (heard : List Heard) (d : Desk) : ∃ deadline,
    heard.foldl hear d = { d with scheduler := { d.scheduler with deadline := deadline } } := by
  induction heard generalizing d with
  | nil => exact ⟨d.scheduler.deadline, rfl⟩
  | cons h heard ih =>
    obtain ⟨first, hfirst⟩ := d.scheduler.notify_eq h.busy d.now
    obtain ⟨last, hlast⟩ := ih (d.hear h)
    refine ⟨last, ?_⟩
    rw [List.foldl_cons, hlast, hear, hfirst]

namespace Attentive

theorem reschedule (h : Attentive setup delay d) {s : Scheduler}
    (hs : ∃ deadline, s = { d.scheduler with deadline := deadline }) :
    Attentive setup delay { d with scheduler := s } := by
  obtain ⟨deadline, rfl⟩ := hs
  exact ⟨h.fresh, h.delay_eq, h.watchesBusy, h.listening⟩

theorem foldl_hear (h : Attentive setup delay d) (heard : List Heard) :
    Attentive setup delay (heard.foldl hear d) := by
  obtain ⟨deadline, heq⟩ := foldl_hear_eq heard d
  rw [heq]
  exact h.reschedule ⟨deadline, rfl⟩

/-- No action makes the scheduler miss a change from then on. -/
theorem after (h : Attentive setup delay d) (a : Action) : Attentive setup delay (d.after a) := by
  cases a with
  | work a =>
    have hfresh : Session.Fresh setup (d.session.perform a).session := by
      rw [Session.session_perform]
      exact h.fresh.after a
    have hwork : Attentive setup delay { d with session := (d.session.perform a).session } :=
      ⟨hfresh, h.delay_eq, h.watchesBusy, h.listening⟩
    show Attentive setup delay (d.apply (d.session.perform a)).1
    rw [apply_of_listening h.listening]
    exact hwork.foldl_hear _
  | wait now => exact ⟨h.fresh, h.delay_eq, h.watchesBusy, h.listening⟩
  | request => exact h.reschedule ⟨_, rfl⟩
  | poll => exact h.reschedule (d.scheduler.poll_eq d.now)
  | cancel => exact h.reschedule ⟨none, rfl⟩
  | issue => exact ⟨h.fresh, h.delay_eq, h.watchesBusy, h.listening⟩

end Attentive

theorem attentive_history (setup : Setup) (delay : Nat) (actions : List Action) :
    Attentive setup delay (history setup delay actions) := by
  induction actions using List.reverseRecOn with
  | nil => exact ⟨⟨rfl, .inl rfl⟩, rfl, rfl, rfl⟩
  | append_singleton actions a ih =>
    rw [history, List.foldl_append]
    exact ih.after a

/-! ## Replacements -/

namespace Attentive

variable {text : String}

/-- An event of a busy session is left out. -/
theorem hear_of_busy (h : Attentive setup delay d) (e : Event) : d.hear ⟨e, true⟩ = d := by
  rw [hear, Scheduler.notify_of_busy h.watchesBusy]

/-- An event of a session that is not busy moves the deadline. -/
theorem deadline_hear (h : Attentive setup delay d) {heard : Heard} (hfree : heard.busy = false) :
    (d.hear heard).scheduler.deadline = some (d.now + delay) := by
  rw [hear, hfree, Scheduler.notify_of_free, ← h.delay_eq]
  rfl

/-- What a text can do at a desk: a busy session refuses it, a text that cannot be read is refused as
well, and any other changes the session and leaves the scheduler as it was. -/
theorem apply_ofText_cases (h : Attentive setup delay d) (text : String) :
    (d.session.busy = true ∧ d.apply (d.session.ofText text) = (d, .error .busy, [])) ∨
    (d.session.busy = false ∧ ∃ f, Program.read setup text = .error f ∧
      d.apply (d.session.ofText text) = (d, .error (.reading f), [])) ∨
    (d.session.busy = false ∧ ∃ reading, Program.read setup text = .ok reading ∧
      d.apply (d.session.ofText text) =
        ({ d with session := { d.session with workspace := reading.workspace, cache := none } },
          .ok reading.notices, [⟨.replaced reading.workspace.roots.length, true⟩])) := by
  have hsetup := h.fresh.setup_eq
  rw [apply_of_listening h.listening]
  cases hbusy : d.session.busy with
  | true =>
    rw [Session.ofText_of_busy hbusy]
    exact .inl ⟨rfl, rfl⟩
  | false =>
    cases hread : Program.read setup text with
    | error f =>
      rw [Session.ofText_of_error hbusy (hsetup ▸ hread)]
      exact .inr (.inl ⟨rfl, f, rfl, rfl⟩)
    | ok reading =>
      rw [Session.ofText_of_ok hbusy (hsetup ▸ hread)]
      have hreplaced : Attentive setup delay { d with
          session := { d.session with workspace := reading.workspace, cache := none } } :=
        ⟨⟨hsetup, .inl rfl⟩, h.delay_eq, h.watchesBusy, h.listening⟩
      refine .inr (.inr ⟨rfl, reading, rfl, ?_⟩)
      simp only [List.map_cons, List.map_nil, List.foldl_cons, List.foldl_nil]
      rw [hreplaced.hear_of_busy]

/-! ## Edits -/

/-- What is heard of an edit is heard while the session is not busy. -/
theorem free_of_mem_edit {α : Type} (h : Attentive setup delay d)
    (change : Registry → Workspace → Edited α) :
    ∀ heard ∈ (d.apply (d.session.edit change)).2.2, heard.busy = false := by
  intro heard hmem
  rw [apply_of_listening h.listening] at hmem
  obtain ⟨e, he, rfl⟩ := List.mem_map.mp hmem
  cases hbusy : d.session.busy with
  | true =>
    -- a busy session refuses the edit, so it fires nothing
    rw [Session.edit, if_pos hbusy] at he
    cases he
  | false => simp [Session.edit, hbusy]

/-- Events that are heard while the session is not busy leave the deadline the delay away. -/
theorem deadline_foldl_hear (h : Attentive setup delay d) {heard : List Heard} (hne : heard ≠ [])
    (hfree : ∀ x ∈ heard, x.busy = false) :
    (heard.foldl hear d).scheduler.deadline = some (d.now + delay) := by
  -- the last of them decides
  obtain ⟨earlier, last, rfl⟩ := heard.eq_nil_or_concat'.resolve_left hne
  have hlast : last.busy = false := hfree last (List.mem_append_right _ (List.mem_singleton_self _))
  have hnow : (earlier.foldl hear d).now = d.now := by
    obtain ⟨deadline, heq⟩ := foldl_hear_eq earlier d
    rw [heq]
  rw [List.foldl_append, List.foldl_cons, List.foldl_nil,
    (h.foldl_hear earlier).deadline_hear hlast, hnow]

theorem deadline_edit {α : Type} (h : Attentive setup delay d)
    (change : Registry → Workspace → Edited α)
    (hne : (d.apply (d.session.edit change)).2.2 ≠ []) :
    (d.apply (d.session.edit change)).1.scheduler.deadline = some (d.now + delay) := by
  have hfree := h.free_of_mem_edit change
  have hedited : Attentive setup delay { d with session := (d.session.edit change).session } :=
    ⟨h.fresh.after (.edit change), h.delay_eq, h.watchesBusy, h.listening⟩
  rw [apply_of_listening h.listening] at hne hfree ⊢
  exact hedited.deadline_foldl_hear hne hfree

end Attentive

/-- After any actions: a text that is refused leaves the desk as it was, and nothing is heard; it is
refused exactly if the session is busy or the text cannot be read. Any other text takes the place of
the workspace; of that one event is heard, the flag is free afterwards and the deadline stands. Each
event of an edit is heard while the flag is free, and moves the deadline. -/
theorem ofText_silent (setup : Setup) (delay : Nat) (actions : List Action) :
    let d := history setup delay actions
    (∀ text e, (d.apply (d.session.ofText text)).2.1 = .error e →
      d.apply (d.session.ofText text) = (d, .error e, []) ∧
      (d.session.busy = true ∧ e = .busy ∨
        d.session.busy = false ∧ ∃ f, Program.read setup text = .error f ∧ e = .reading f)) ∧
    (∀ text notices, (d.apply (d.session.ofText text)).2.1 = .ok notices →
      let after := (d.apply (d.session.ofText text)).1
      d.session.busy = false ∧ ∃ reading, Program.read setup text = .ok reading ∧
        notices = reading.notices ∧
        after.session.workspace.nodes = reading.workspace.nodes ∧
        after.session.workspace.roots = reading.workspace.roots ∧
        (d.apply (d.session.ofText text)).2.2 =
          [⟨.replaced reading.workspace.roots.length, true⟩] ∧
        after.session.busy = false ∧ after.scheduler.deadline = d.scheduler.deadline) ∧
    ∀ (α : Type) (change : Registry → Workspace → Edited α) (answer : α),
      (d.apply (d.session.edit change)).2.1 = .ok answer →
      ∀ earlier heard later,
        (d.apply (d.session.edit change)).2.2 = earlier ++ heard :: later →
        heard.busy = false ∧
        ((earlier ++ [heard]).foldl hear d).scheduler.deadline = some (d.now + delay) ∧
        (d.apply (d.session.edit change)).1.scheduler.deadline = some (d.now + delay) := by
  intro d
  have h : Attentive setup delay d := attentive_history setup delay actions
  refine ⟨?_, ?_, ?_⟩
  · intro text e he
    obtain ⟨hbusy, hdone⟩ | ⟨hfree, f, hread, hdone⟩ | ⟨_, reading, _, hdone⟩ :=
      h.apply_ofText_cases text <;> rw [hdone] at he ⊢
    · obtain rfl : SessionError.busy = e := Except.error.inj he
      exact ⟨rfl, .inl ⟨hbusy, rfl⟩⟩
    · obtain rfl : SessionError.reading f = e := Except.error.inj he
      exact ⟨rfl, .inr ⟨hfree, f, hread, rfl⟩⟩
    · cases he
  · intro text notices hok
    obtain ⟨_, hdone⟩ | ⟨_, f, _, hdone⟩ | ⟨hfree, reading, hread, hdone⟩ :=
      h.apply_ofText_cases text <;> rw [hdone] at hok ⊢
    · cases hok
    · cases hok
    · exact ⟨hfree, reading, hread, (Except.ok.inj hok).symm, rfl, rfl, rfl, hfree, rfl⟩
  · intro α change answer _ earlier heard later hsplit
    have hfree := h.free_of_mem_edit change
    have hdone := h.deadline_edit change
    rw [hsplit] at hfree hdone
    refine ⟨hfree heard (by simp), ?_, hdone (by simp)⟩
    refine h.deadline_foldl_hear (by simp) fun x hx => hfree x ?_
    rw [List.append_cons]
    exact List.mem_append_left _ hx

/-- A conversion is asked for at 0, and the time is 7. -/
def burst : List Action :=
  [.work (.edit fun r w => w.create r ⟨.showString, [], none⟩), .wait 7]

/-- A conversion is due at 10. At 7 a text that cannot be read and one that can leave that as it is,
and an edit moves it to 17. -/
theorem ofText_silent_burst :
    let d := history {} 10 burst
    d.scheduler.deadline = some 10 ∧
    (∃ e, d.apply (d.session.ofText "nonsense\n") = (d, .error e, [])) ∧
    (∃ notices, (d.apply (d.session.ofText "basic.show_string(\"\")\n")).2.1 = .ok notices ∧
      (d.apply (d.session.ofText "basic.show_string(\"\")\n")).1.scheduler.deadline =
        d.scheduler.deadline) ∧
    (d.apply (d.session.edit fun r w => w.create r ⟨.showString, [], none⟩)).1.scheduler.deadline =
      some 17 := by
  obtain ⟨hrefused, hreplaced, hedited⟩ := ofText_silent {} 10 burst
  have hbad : ((history {} 10 burst).apply
      ((history {} 10 burst).session.ofText "nonsense\n")).2.1.isOk = false := by decide +kernel
  have hgood : ((history {} 10 burst).apply
      ((history {} 10 burst).session.ofText "basic.show_string(\"\")\n")).2.1.isOk = true := by
    decide +kernel
  refine ⟨by decide +kernel, ?_, ?_, ?_⟩
  · cases he : ((history {} 10 burst).apply
        ((history {} 10 burst).session.ofText "nonsense\n")).2.1 with
    | ok notices =>
      rw [he] at hbad
      cases hbad
    | error e => exact ⟨e, (hrefused _ e he).1⟩
  · cases hn : ((history {} 10 burst).apply
        ((history {} 10 burst).session.ofText "basic.show_string(\"\")\n")).2.1 with
    | error e =>
      rw [hn] at hgood
      cases hgood
    | ok notices =>
      obtain ⟨-, reading, -, -, -, -, -, -, hdeadline⟩ := hreplaced _ notices hn
      exact ⟨notices, rfl, hdeadline⟩
  · have hheard : ((history {} 10 burst).apply ((history {} 10 burst).session.edit
        fun r w => w.create r ⟨.showString, [], none⟩)).2.2 =
          [] ++ ⟨.created 1 .showString, false⟩ :: [] := by decide +kernel
    have hanswer : ((history {} 10 burst).apply ((history {} 10 burst).session.edit
        fun r w => w.create r ⟨.showString, [], none⟩)).2.1 = .ok 1 := by decide +kernel
    obtain ⟨-, -, hdeadline⟩ := hedited _ _ _ hanswer _ _ _ hheard
    have hnow : (history {} 10 burst).now = 7 := by decide +kernel
    rw [hnow] at hdeadline
    exact hdeadline

end Desk

end BlockText

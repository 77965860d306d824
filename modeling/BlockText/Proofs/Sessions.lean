import BlockText.Session
import Mathlib.Data.List.Induction

/-!
# The cached text of a session

A session answers with its cached text, so a change of the workspace that forgets the cache would
show. The actions of a session are given as data, with every edit there can be: also one that
changes the workspace and is refused afterwards. Each action keeps the cache in step with the
workspace, and asking for the text changes nothing but the cache. Hence, after any actions, the
answer is the text of the workspace as it is then, which is the workspace that the other actions
made.
-/

namespace BlockText

/-- A step without what it answers if it is not refused. -/
def Step.silent {α : Type} (step : Step α) : Step Unit :=
  { step with answer := step.answer.map fun _ => () }

namespace Session

/-- What can be done with a session. -/
inductive Action : Type 1 where
  | toText
  | validate (text : String)
  | ofText (text : String)
  | edit {α : Type} (change : Registry → Workspace → Edited α)
  | normalize
  | acquire
  | release

/-- An action that asks for the text. -/
def Action.asks : Action → Bool
  | toText => true
  | _ => false

/-- A session after an action, whether that was refused or not. -/
def after (s : Session) : Action → Session
  | .toText => s.toText.1
  | .validate _ => s
  | .ofText text => (s.ofText text).session
  | .edit change => (s.edit change).session
  | .normalize => s.normalize.session
  | .acquire => s.acquire.session
  | .release => s.release.1

/-- What an action does, but for what it answers if it is not refused. -/
def perform (s : Session) : Action → Step Unit
  | .toText => ⟨s.toText.1, .ok (), [], s.busy⟩
  | .validate text => ⟨s, s.validate text, [], s.busy⟩
  | .ofText text => (s.ofText text).silent
  | .edit change => (s.edit change).silent
  | .normalize => s.normalize.silent
  | .acquire => s.acquire
  | .release => ⟨s.release.1, .ok (), [], s.busy⟩

theorem session_perform (s : Session) (a : Action) : (s.perform a).session = s.after a := by
  cases a <;> rfl

/-- A fresh session after some actions. -/
def history (setup : Setup) (actions : List Action) : Session :=
  actions.foldl after { setup := setup }

theorem history_append (setup : Setup) (actions : List Action) (a : Action) :
    history setup (actions ++ [a]) = (history setup actions).after a := by
  rw [history, List.foldl_append]
  rfl

/-! ## Replacing the workspace -/

section OfText

variable {s : Session} {text : String}

theorem exclusively_of_busy {α : Type} (h : s.busy = true) (run : Session → Step α) :
    s.exclusively run = ⟨s, .error .busy, [], true⟩ := by
  simp [exclusively, acquire, h]

theorem exclusively_of_free {α : Type} (h : s.busy = false) (run : Session → Step α) :
    s.exclusively run =
      { run { s with busy := true } with
        session := { (run { s with busy := true }).session with busy := false } } := by
  simp [exclusively, acquire, release, h]

theorem ofText_of_busy (h : s.busy = true) (text : String) :
    s.ofText text = ⟨s, .error .busy, [], true⟩ := exclusively_of_busy h _

/-- A text that cannot be read leaves the session as it was: the flag that was taken is given
back. -/
theorem ofText_of_error (h : s.busy = false) {f : Program.Failure}
    (hread : Program.read s.setup text = .error f) :
    s.ofText text = ⟨s, .error (.reading f), [], true⟩ := by
  obtain ⟨setup, w, cache, busy⟩ := s
  obtain rfl : busy = false := h
  rw [ofText, exclusively_of_free rfl]
  simp only at hread ⊢
  rw [hread]

/-- A text that can be read takes the place of the workspace, and the one event is fired while the
flag is taken. -/
theorem ofText_of_ok (h : s.busy = false) {reading : Program.Reading}
    (hread : Program.read s.setup text = .ok reading) :
    s.ofText text = ⟨{ s with workspace := reading.workspace, cache := none },
      .ok reading.notices, [.replaced reading.workspace.roots.length], true⟩ := by
  obtain ⟨setup, w, cache, busy⟩ := s
  obtain rfl : busy = false := h
  rw [ofText, exclusively_of_free rfl]
  simp only at hread ⊢
  rw [hread]
  rfl

end OfText

/-! ## The cache and the workspace -/

/-- The setup is the one at the start, and what is cached, if anything, is the text of the
workspace. -/
structure Fresh (setup : Setup) (s : Session) : Prop where
  setup_eq : s.setup = setup
  cache_eq : s.cache = none ∨ s.cache = some (Program.write setup s.workspace)

namespace Fresh

variable {setup : Setup} {s : Session}

/-- With a fresh cache or none, the answer is the text, which is cached now. -/
theorem toText_eq (h : Fresh setup s) :
    s.toText = ({ s with cache := some (Program.write setup s.workspace) },
      Program.write setup s.workspace) := by
  obtain ⟨_, w, cache, busy⟩ := s
  obtain ⟨rfl, hcache⟩ := h
  cases cache with
  | none => rfl
  | some text =>
    obtain rfl : text = _ := by simpa using hcache
    rfl

/-- No action leaves a text behind that is not the text of the workspace. -/
theorem after (h : Fresh setup s) (a : Action) : Fresh setup (s.after a) := by
  have hdropped (w : Workspace) (busy : Bool) :
      Fresh setup { s with workspace := w, cache := none, busy := busy } :=
    ⟨h.setup_eq, .inl rfl⟩
  cases a with
  | toText =>
    show Fresh setup s.toText.1
    rw [h.toText_eq]
    exact ⟨h.setup_eq, .inr rfl⟩
  | validate text => exact h
  | ofText text =>
    show Fresh setup (s.ofText text).session
    cases hbusy : s.busy with
    | true =>
      rw [ofText_of_busy hbusy]
      exact h
    | false =>
      cases hread : Program.read s.setup text with
      | error f =>
        rw [ofText_of_error hbusy hread]
        exact h
      | ok reading =>
        rw [ofText_of_ok hbusy hread]
        exact hdropped _ _
  | edit change =>
    show Fresh setup (s.edit change).session
    unfold edit
    -- A refused edit may have changed the workspace, so only the busy flag saves the cache.
    split
    · exact h
    · exact hdropped _ _
  | normalize => exact hdropped _ _
  | acquire =>
    show Fresh setup s.acquire.session
    unfold acquire
    split
    · exact h
    · exact ⟨h.setup_eq, h.cache_eq⟩
  | release => exact ⟨h.setup_eq, h.cache_eq⟩

end Fresh

theorem fresh_history (setup : Setup) (actions : List Action) :
    Fresh setup (history setup actions) := by
  induction actions using List.reverseRecOn with
  | nil => exact ⟨rfl, .inl rfl⟩
  | append_singleton actions a ih =>
    rw [history_append]
    exact ih.after a

/-! ## What the cache cannot change -/

/-- A session without its cache. -/
def forget (s : Session) : Session := { s with cache := none }

/-- Without the cache a request leaves no trace. -/
theorem forget_toText (s : Session) : s.toText.1.forget = s.forget := by
  unfold toText
  split <;> rfl

/-- The actions that are no requests do not look at the cache. -/
theorem forget_after {a : Action} (ha : a.asks = false) (s : Session) :
    (s.after a).forget = (s.forget.after a).forget := by
  cases a with
  | toText => cases ha
  | ofText text =>
    show (s.ofText text).session.forget = (s.forget.ofText text).session.forget
    cases hbusy : s.busy with
    | true =>
      rw [ofText_of_busy hbusy, ofText_of_busy (s := s.forget) hbusy]
      rfl
    | false =>
      cases hread : Program.read s.setup text with
      | error f =>
        rw [ofText_of_error hbusy hread, ofText_of_error (s := s.forget) hbusy hread]
        rfl
      | ok reading =>
        rw [ofText_of_ok hbusy hread, ofText_of_ok (s := s.forget) hbusy hread]
        rfl
  | edit change =>
    show (s.edit change).session.forget = (s.forget.edit change).session.forget
    unfold edit
    cases hbusy : s.busy <;> simp [forget, hbusy]
  | acquire =>
    show s.acquire.session.forget = s.forget.acquire.session.forget
    unfold acquire
    cases hbusy : s.busy <;> simp [forget, hbusy]
  | validate text => rfl
  | normalize => rfl
  | release => rfl

/-- Without their caches, a history and the history in which nobody asked for the text agree. -/
theorem forget_history (setup : Setup) (actions : List Action) :
    (history setup actions).forget = (history setup (actions.filter (!·.asks))).forget := by
  induction actions using List.reverseRecOn with
  | nil => rfl
  | append_singleton actions a ih =>
    rw [history_append, List.filter_append]
    cases ha : a.asks with
    | true =>
      cases a with
      | toText =>
        show (history setup actions).toText.1.forget = _
        rw [forget_toText, ih]
        simp [Action.asks]
      | _ => cases ha
    | false =>
      have hlast : [a].filter (!·.asks) = [a] := by simp [ha]
      rw [hlast, history_append, forget_after ha, ih, ← forget_after ha]

/-- After any actions the cache holds the text of the workspace or nothing; the answer to a request
is the text of the workspace, and leaves all but the cache as it was. The workspace is the one that
the actions make without any request. -/
theorem toText_history (setup : Setup) (actions : List Action) :
    let s := history setup actions
    (s.cache = none ∨ s.cache = some (Program.write setup s.workspace)) ∧
    s.toText = ({ s with cache := some (Program.write setup s.workspace) },
      Program.write setup s.workspace) ∧
    s.workspace = (history setup (actions.filter (!·.asks))).workspace := by
  have hfresh := fresh_history setup actions
  have hsame : (history setup actions).forget.workspace =
      (history setup (actions.filter (!·.asks))).forget.workspace :=
    congrArg Session.workspace (forget_history setup actions)
  exact ⟨hfresh.cache_eq, hfresh.toText_eq, hsame⟩

-- An edit that changes the workspace and then reports an error: the old text is not served again.
example :
    (history {} [.toText, .edit fun r w =>
      ({ w.create r ⟨.showString, [], none⟩ with
        answer := .error (.unknownNode 7) } : Edited NodeId)]).toText.2 =
        "basic.show_string(\"Hello!\")\n" := by
  decide +kernel

end Session

end BlockText

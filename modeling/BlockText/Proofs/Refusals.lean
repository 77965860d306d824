import BlockText.Proofs.Selections

/-!
# Refused edits

An edit changes the workspace in steps, and many of its steps may be refused: a node is taken out of
its place before it is put into another, and a conditional is given fresh inputs before its nodes
are moved there. In a forest whose ids are all spent no step after the first change is refused, so
an edit that is refused has done nothing, whatever the registry holds of the catalogue. Only making
a node is different: a node that is refused has spent its id. An edit whose counts run over is not
refused, it has no outcome.
-/

namespace BlockText

open Workspace

theorem Registry.Selected.plainConditions {r : Registry} (hr : r.Selected) : r.PlainConditions := by
  intro k d l _ _ hl
  rw [hr.find?_eq hl]
  exact ⟨rfl, _, rfl, rfl⟩

namespace Edited

variable {α β : Type} {w : Workspace} {e : Edited α}

/-- An edit that leaves the workspace and fires nothing if it is refused. -/
def Clean (w : Workspace) (e : Edited α) : Prop :=
  ∀ err, e.answer = .error err → e.workspace = w ∧ e.events = []

theorem clean_refused (w : Workspace) (err : EditError) : Clean w (refused w err : Edited α) :=
  fun _ _ => ⟨rfl, rfl⟩

theorem clean_of_ok {a : α} (h : e.answer = .ok a) : Clean w e := by
  intro err he
  rw [h] at he
  cases he

theorem Clean.map (h : Clean w e) (f : α → β) : Clean w (e.map f) := by
  intro err he
  cases ha : e.answer with
  | ok a =>
    have he : e.answer.map f = .error err := he
    rw [ha] at he
    cases he
  | error err' => exact h err' ha

end Edited

open Edited

namespace Workspace

variable {r : Registry} {w : Workspace} {id parent child : NodeId} {input : String}

theorem clean_connectValue (h : Forest w) : Clean w (w.connectValue r parent input child) := by
  cases hcheck : w.checkMove r Role.isValue parent input child with
  | error e =>
    rw [connectValue, hcheck]
    exact clean_refused w e
  | ok s =>
    cases s with
    | statements children =>
      rw [connectValue, hcheck]
      exact clean_refused w _
    | value occupant shadow =>
      cases occupant with
      | none =>
        rw [connectValue_of_vacant h.linked hcheck]
        exact clean_of_ok rfl
      | some displaced =>
        rw [connectValue_of_occupied h.linked hcheck]
        exact clean_of_ok rfl

theorem clean_insertStatement (h : Forest w) (place : Nat) :
    Clean w (w.insertStatement r parent input place child) := by
  cases hcheck : w.checkMove r (· = .statement) parent input child with
  | error e =>
    rw [insertStatement, hcheck]
    exact clean_refused w e
  | ok s =>
    cases s with
    | value occupant shadow =>
      rw [insertStatement, hcheck]
      exact clean_refused w _
    | statements children =>
      rw [insertStatement_of_statements h.linked hcheck]
      exact clean_of_ok rfl

theorem clean_pushStatement (h : Forest w) : Clean w (w.pushStatement r parent input child) := by
  unfold pushStatement
  split
  · exact clean_refused w _
  · exact clean_insertStatement h _

theorem clean_detach : Clean w (w.detach id) := by
  unfold detach
  split
  · exact clean_refused w _
  · split
    · exact clean_refused w _
    · split
      · exact clean_of_ok rfl
      · exact clean_of_ok rfl

theorem clean_delete : Clean w (w.delete id) := by
  unfold delete
  split
  · exact clean_refused w _
  · split
    · exact clean_refused w _
    · exact clean_of_ok rfl

theorem clean_setField {field : String} {value : FieldValue} :
    Clean w (w.setField r id field value) := by
  unfold setField
  split
  · exact clean_refused w _
  · split
    · exact clean_refused w _
    · split
      · exact clean_refused w _
      · split
        · split
          · exact clean_of_ok rfl
          · exact clean_of_ok rfl
        · exact clean_refused w _

theorem clean_reshaping {e : Edited (List NodeId)} (he : Reshaping r w id e) : Clean w e := by
  cases he with
  | refused err => exact clean_refused w err
  | same => exact clean_of_ok rfl
  | changed he =>
    rw [he.outcome]
    exact clean_of_ok rfl

theorem clean_loadDocument (text : String) : Clean w (Edit.loadDocument w text) := by
  unfold Edit.loadDocument
  split
  · exact clean_refused w _
  · exact clean_of_ok rfl

/-- Every edit but the making of a node is clean. -/
theorem clean_run {r : Registry} (hr : r.Selected) {w : Workspace} (h : Forest w) (hlt : w.Below)
    {e : Edit} (he : ∀ kind fields mutation, e ≠ .create kind fields mutation) :
    Clean w (e.run r w) := by
  have hplain := hr.plainConditions
  cases e with
  | create kind fields mutation => exact absurd rfl (he kind fields mutation)
  | connectValue parent input child => exact (clean_connectValue h).map _
  | pushStatement parent input child => exact (clean_pushStatement h).map _
  | insertStatement parent input place child => exact (clean_insertStatement h place).map _
  | detach node => exact clean_detach.map _
  | delete node => exact clean_delete.map _
  | setField node field value => exact clean_setField.map _
  | addBranch node => exact (clean_reshaping (.addBranch hplain h hlt)).map _
  | removeBranch node index => exact (clean_reshaping (.removeBranch hplain h hlt index)).map _
  | addElse node => exact (clean_reshaping (.addElse hplain h hlt)).map _
  | removeElse node => exact (clean_reshaping (.removeElse hplain h hlt)).map _
  | reshape node target => exact (clean_reshaping (.reshape hplain h hlt target)).map _
  | load document => exact (clean_loadDocument document).map _

end Workspace

/-- In a forest whose ids are all spent, an edit that is refused leaves the workspace and fires no
event, with any selection of the catalogue. Only an edit for which ids or counts run out is neither
made nor refused. -/
theorem refused_run_eq {r : Registry} (hr : r.Selected) {w : Workspace} (h : Forest w)
    (hlt : w.Below) {e : Edit} (he : ∀ kind fields mutation, e ≠ .create kind fields mutation)
    {done : Edited Answer} (hrun : e.run? r w = some done) {err : EditError}
    (herr : done.answer = .error err) : done.workspace = w ∧ done.events = [] := by
  obtain ⟨-, -, rfl⟩ := Edit.run?_eq_some.mp hrun
  exact clean_run hr h hlt he err herr

/-- A conditional that the whole catalogue has made, with the default of its condition. -/
def soleConditional : Workspace := (({} : Workspace).create .builtin ⟨.ifElse, [], none⟩).workspace

theorem tidy_soleConditional : Tidy .builtin soleConditional :=
  Tidy.empty.create Registry.sound_builtin _

/-- A registry with conditionals but without the literal of their conditions adds no branch, and
nothing is left of the attempt. -/
theorem refused_addBranch_without_literal :
    (Registry.Selected ⟨[Kind.ifElse.definition]⟩) ∧ Forest soleConditional ∧
      soleConditional.Below ∧
      ∃ done, (Edit.addBranch 0).run? ⟨[Kind.ifElse.definition]⟩ soleConditional = some done ∧
        done.answer = .error (.registry (.notFound "logic_boolean")) ∧
        done.workspace = soleConditional ∧ done.events = [] := by
  have hnd : [Kind.ifElse].Nodup := List.nodup_singleton _
  have hr : Registry.Selected ⟨[Kind.ifElse.definition]⟩ := Registry.selected_definitions hnd
  have hrun : (Edit.addBranch 0).run? ⟨[Kind.ifElse.definition]⟩ soleConditional =
      some ((Edit.addBranch 0).run ⟨[Kind.ifElse.definition]⟩ soleConditional) := by
    rw [Edit.run?_eq_some]
    exact ⟨by decide +kernel, by decide +kernel, rfl⟩
  have herr : ((Edit.addBranch 0).run ⟨[Kind.ifElse.definition]⟩ soleConditional).answer =
      .error (.registry (.notFound "logic_boolean")) := by rfl
  exact ⟨hr, tidy_soleConditional.forest, tidy_soleConditional.below, _, hrun, herr,
    refused_run_eq hr tidy_soleConditional.forest tidy_soleConditional.below
      (by intro kind fields mutation he; cases he) hrun herr⟩

end BlockText

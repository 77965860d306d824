import BlockText.Edit
import BlockText.Proofs.Leftovers

/-!
# Ids that run out

An edit is run as if there were always a next id, and its outcome counts only if the next id is
still one when the edit is over. That look at the end is enough: no edit gives an id back, so an id
that was given out on the way is below the next id at the end. For the same reason a workspace that
has used up its ids stays as it is. No edit of it has an outcome, unless it takes over a document.
-/

namespace BlockText

namespace Workspace

variable {w : Workspace} {id : NodeId}

/-! ## Attaching and moving -/

theorem nextId_linkValue (input : String) (child : NodeId) :
    (w.linkValue id input child).1.nextId = w.nextId := by
  unfold linkValue
  split <;> rfl

theorem nextId_linkShadow (input : String) (child : NodeId) :
    (w.linkShadow id input child).1.nextId = w.nextId := by
  unfold linkShadow
  split
  · rfl
  · split
    · exact w.nextId_setShadow id input child
    · rfl

theorem nextId_linkStatement (input : String) (place : Option Nat) (child : NodeId) :
    (w.linkStatement id input place child).1.nextId = w.nextId := by
  unfold linkStatement
  split
  · rfl
  · rfl
  · cases place <;> rfl

theorem nextId_moveToTop (w : Workspace) (id : NodeId) : (w.moveToTop id).nextId = w.nextId :=
  w.nextId_unlink id

theorem nextId_moveAll (ms : List Move) (w : Workspace) :
    (moveAll id ms w).1.nextId = w.nextId := by
  induction ms generalizing w with
  | nil => rfl
  | cons mv ms ih =>
    have hmove : (w.move id mv).1.nextId = w.nextId := by
      cases mv with
      | shadow input c => exact nextId_linkShadow input c
      | value input c => exact nextId_linkValue input c
      | statement input c => exact nextId_linkStatement input none c
      | release c => exact w.nextId_pushRoot c
      | discard c => rfl
    rw [moveAll]
    split
    · next hm => rwa [hm] at hmove
    · next hm =>
      rw [hm] at hmove
      exact (ih _).trans hmove

theorem nextId_rescue (ss : List (NodeId × String)) (w : Workspace) :
    (rescue id ss w).1.nextId = w.nextId := by
  induction ss generalizing w with
  | nil => rfl
  | cons s ss ih =>
    rw [rescue]
    split
    · exact ih w
    · refine (ih _).trans ?_
      rw [nextId_pushRoot, nextId_unlink]

/-! ## Edits -/

theorem nextId_attached {link : Workspace × Except EditError Unit} {events : List Event} :
    (Edited.attached link events).workspace.nextId = link.1.nextId := by
  obtain ⟨v, answer⟩ := link
  cases answer <;> rfl

theorem nextId_insertStatement (r : Registry) (input : String) (place : Nat) (child : NodeId) :
    (w.insertStatement r id input place child).workspace.nextId = w.nextId := by
  unfold insertStatement
  split
  · rfl
  · rfl
  · rw [nextId_attached, nextId_linkStatement, nextId_unlink]

theorem nextId_pushStatement (r : Registry) (input : String) (child : NodeId) :
    (w.pushStatement r id input child).workspace.nextId = w.nextId := by
  unfold pushStatement
  split
  · rfl
  · exact nextId_insertStatement r input _ child

theorem nextId_connectValue (r : Registry) (input : String) (child : NodeId) :
    (w.connectValue r id input child).workspace.nextId = w.nextId := by
  unfold connectValue
  split
  · rfl
  · rfl
  · rw [nextId_attached, nextId_linkValue, nextId_unlink]
  · rw [nextId_attached, nextId_linkValue, nextId_moveToTop, nextId_unlink]

theorem nextId_detach (w : Workspace) (id : NodeId) :
    (w.detach id).workspace.nextId = w.nextId := by
  unfold detach
  split
  · rfl
  · split
    · rfl
    · split
      · rfl
      · exact nextId_moveToTop w id

theorem nextId_delete (w : Workspace) (id : NodeId) :
    (w.delete id).workspace.nextId = w.nextId := by
  unfold delete
  split
  · rfl
  · split
    · rfl
    · exact w.nextId_unlink id

theorem nextId_setField (r : Registry) (field : String) (value : FieldValue) :
    (w.setField r id field value).workspace.nextId = w.nextId := by
  unfold setField
  repeat' split
  all_goals rfl

/-- A change of mutation makes defaults and gives no id back. -/
theorem nextId_le_changeShape (r : Registry) (target : Mutation) (place : Nat → Option Nat)
    (keep : Bool) : w.nextId ≤ (w.changeShape r id target place keep).workspace.nextId := by
  have hbuilt (specs : List InputSpec) :
      w.nextId ≤ (buildInputs (fun b w => w.make r b) id specs w).1.nextId :=
    (Grows.buildInputs (Grows.makeUpTo r (r.definitions.length + 1)) id specs w).nextId_le
  unfold changeShape
  split
  · exact Nat.le_refl _
  · split
    · exact Nat.le_refl _
    · split
      · exact Nat.le_refl _
      · split
        · exact Nat.le_refl _
        · next d _ =>
          split
          · have hbuilt := hbuilt (d.shape.inputsFor (some target))
            split
            · next hb => rwa [hb] at hbuilt
            · next v inputs hb =>
              rw [hb] at hbuilt
              dsimp only
              split
              · next u _ hm =>
                have hmoved := congrArg (·.1.nextId) hm
                rw [nextId_moveAll] at hmoved
                exact Nat.le_trans hbuilt (Nat.le_of_eq hmoved)
              · next u hm =>
                have hmoved := congrArg (·.1.nextId) hm
                rw [nextId_moveAll] at hmoved
                refine Nat.le_trans hbuilt (Nat.le_of_eq (hmoved.trans ?_))
                exact (nextId_rescue _ u).symm
          · exact Nat.le_refl _

end Workspace

namespace Edit

variable {r : Registry} {w : Workspace} {e : Edit}

/-- No edit gives an id back. -/
theorem nextId_le_run (he : ∀ document, e ≠ .load document) :
    w.nextId ≤ (e.run r w).workspace.nextId := by
  cases e with
  | create kind fields mutation =>
    show w.nextId ≤ (createNamed w r kind fields mutation).workspace.nextId
    unfold createNamed
    split
    · exact Nat.le_refl _
    · exact (Workspace.Grows.create w r _).1.nextId_le
  | connectValue parent input child =>
    exact Nat.le_of_eq (Workspace.nextId_connectValue r input child).symm
  | pushStatement parent input child =>
    exact Nat.le_of_eq (Workspace.nextId_pushStatement r input child).symm
  | insertStatement parent input place child =>
    exact Nat.le_of_eq (Workspace.nextId_insertStatement r input place child).symm
  | detach node => exact Nat.le_of_eq (w.nextId_detach node).symm
  | delete node => exact Nat.le_of_eq (w.nextId_delete node).symm
  | setField node field value => exact Nat.le_of_eq (Workspace.nextId_setField r field value).symm
  | addBranch node =>
    show w.nextId ≤ (w.addBranch r node).workspace.nextId
    unfold Workspace.addBranch
    split
    · exact Nat.le_refl _
    · exact Workspace.nextId_le_changeShape r _ _ _
  | removeBranch node index =>
    show w.nextId ≤ (w.removeBranch r node index).workspace.nextId
    unfold Workspace.removeBranch
    split
    · exact Nat.le_refl _
    · split
      · exact Nat.le_refl _
      · exact Workspace.nextId_le_changeShape r _ _ _
  | addElse node =>
    show w.nextId ≤ (w.addElse r node).workspace.nextId
    unfold Workspace.addElse
    split
    · exact Nat.le_refl _
    · split
      · exact Nat.le_refl _
      · exact Workspace.nextId_le_changeShape r _ _ _
  | removeElse node =>
    show w.nextId ≤ (w.removeElse r node).workspace.nextId
    unfold Workspace.removeElse
    split
    · exact Nat.le_refl _
    · split
      · exact Workspace.nextId_le_changeShape r _ _ _
      · exact Nat.le_refl _
  | reshape node target =>
    show w.nextId ≤ (w.reshape r node target).workspace.nextId
    unfold Workspace.reshape
    split
    · exact Nat.le_refl _
    · exact Workspace.nextId_le_changeShape r _ _ _
  | load document => exact absurd rfl (he document)

/-- Where no id is left, no edit has an outcome but to take over a document. -/
theorem run?_of_limit_le (hw : NodeId.limit ≤ w.nextId) (he : ∀ document, e ≠ .load document) :
    e.run? r w = none := by
  by_contra hsome
  obtain ⟨done, hdone⟩ := Option.ne_none_iff_exists'.mp hsome
  obtain ⟨-, hlt, -⟩ := run?_eq_some.mp hdone
  exact Nat.lt_irrefl _ (Nat.lt_of_le_of_lt (Nat.le_trans hw (nextId_le_run he)) hlt)

end Edit

end BlockText

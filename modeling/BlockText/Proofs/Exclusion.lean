import BlockText.Proofs.Idle
import BlockText.Proofs.Sessions

/-!
# Work while the busy flag is taken

Whoever holds the busy flag expects that nothing happens to the workspace. A text and an edit are
refused then, and asking for the text or for whether a text can be read changes nothing but the
cache. The rules do not look at the flag: they correct the workspace of a busy session as they do at
any time. So a session that is busy keeps its workspace exactly as long as the rules are not applied
or have nothing to do.
-/

namespace BlockText

namespace Session

/-- An action that is more than taking the flag or giving it back. -/
def Action.works : Action → Bool
  | acquire => false
  | release => false
  | _ => true

/-- An action that applies the rules. -/
def Action.corrects : Action → Bool
  | normalize => true
  | _ => false

variable {s : Session} {a : Action}

/-- A busy session refuses what does not apply the rules, or answers without a change. -/
theorem perform_of_busy (hbusy : s.busy = true) (hw : a.works = true) (hc : a.corrects = false) :
    (s.after a).forget = s.forget ∧ (s.perform a).events = [] := by
  cases a with
  | toText => exact ⟨s.forget_toText, rfl⟩
  | validate text => exact ⟨rfl, rfl⟩
  | ofText text =>
    show (s.ofText text).session.forget = s.forget ∧ (s.ofText text).events = []
    rw [ofText_of_busy hbusy]
    exact ⟨rfl, rfl⟩
  | edit change =>
    show (s.edit change).session.forget = s.forget ∧ (s.edit change).events = []
    rw [edit, if_pos hbusy]
    exact ⟨rfl, rfl⟩
  | normalize => cases hc
  | acquire => cases hw
  | release => cases hw

/-- What works with a session does not give its flag back. -/
theorem busy_after (hbusy : s.busy = true) (hw : a.works = true) : (s.after a).busy = true := by
  cases hc : a.corrects with
  | false =>
    obtain ⟨hsame, -⟩ := perform_of_busy hbusy hw hc
    exact (congrArg Session.busy hsame).trans hbusy
  | true =>
    cases a with
    | normalize => exact hbusy
    | _ => cases hc

/-- Whatever was done before: work with a session whose flag is taken leaves the flag taken, and it
leaves the nodes and the roots as they are and fires nothing exactly if it does not apply the rules
or they have nothing to do. -/
theorem unchanged_while_busy_iff (setup : Setup) (actions : List Action) (a : Action)
    (hw : a.works = true) (hbusy : (history setup actions).busy = true) :
    let s := history setup actions
    (s.after a).busy = true ∧
    (((s.after a).workspace.nodes = s.workspace.nodes ∧
      (s.after a).workspace.roots = s.workspace.roots ∧ (s.perform a).events = []) ↔
      (a.corrects = true → setup.rules.Idle s.workspace)) := by
  intro s
  refine ⟨busy_after hbusy hw, ?_⟩
  cases hc : a.corrects with
  | false =>
    obtain ⟨hsame, hsilent⟩ := perform_of_busy hbusy hw hc
    have hworkspace : (s.after a).forget.workspace = s.forget.workspace := by rw [hsame]
    replace hworkspace : (s.after a).workspace = s.workspace := hworkspace
    rw [hworkspace]
    exact iff_of_true ⟨rfl, rfl, hsilent⟩ (by simp)
  | true =>
    cases a with
    | normalize =>
      have hsetup : s.setup = setup := (fresh_history setup actions).setup_eq
      rw [← hsetup]
      exact (s.setup.rules.normalize_unchanged_iff s.workspace).trans ⟨fun h _ => h, fun h => h rfl⟩
    | _ => cases hc

/-- Two blocks that may be root once, and somebody who holds the flag. -/
def heldWithTwoStarts : List Action :=
  [.edit fun r w => w.create r ⟨.onStart, [], none⟩,
    .edit fun r w => w.create r ⟨.onStart, [], none⟩, .acquire]

/-- With two starts the rules do change the workspace of a busy session, while an edit does not. -/
theorem unchanged_while_busy_two_starts :
    let s := history {} heldWithTwoStarts
    s.busy = true ∧
    ¬ ((s.after .normalize).workspace.nodes = s.workspace.nodes ∧
      (s.after .normalize).workspace.roots = s.workspace.roots ∧
      (s.perform .normalize).events = []) ∧
    (s.after (.edit fun _ w => w.delete 0)).workspace.roots = s.workspace.roots := by
  have hbusy : (history {} heldWithTwoStarts).busy = true := by decide +kernel
  obtain ⟨-, hnormalize⟩ := unchanged_while_busy_iff {} heldWithTwoStarts .normalize rfl hbusy
  obtain ⟨-, hedit⟩ := unchanged_while_busy_iff {} heldWithTwoStarts
    (.edit fun _ w => w.delete 0) rfl hbusy
  refine ⟨hbusy, fun h => ?_, (hedit.mpr (by simp [Action.corrects])).2.1⟩
  have hidle := hnormalize.mp h rfl
  have htwo : ((history {} heldWithTwoStarts).workspace.get? 1).map (·.shadow) = some false := by
    decide +kernel
  obtain ⟨n, hn, hreal⟩ := Option.map_eq_some_iff.mp htwo
  have hshadow := hidle.single .onStart (by decide) 1 (by decide +kernel) n hn
  rw [hreal] at hshadow
  cases hshadow

/-- The rules do not wait for the flag: of two starts in a busy session one is deleted. -/
theorem normalize_while_busy :
    let s := history {} heldWithTwoStarts
    s.busy = true ∧ s.workspace.roots = [0, 1] ∧
    (s.after .normalize).workspace.roots = [0] ∧
    (s.perform .normalize).events = [.deleted [1]] := by
  decide +kernel

end Session

end BlockText

import BlockText.Proofs.Editing
import BlockText.Rules

/-!
# Applying the rules

The rules delete roots, and for the rest they set flags. So whatever holds of a workspace holds
after the rules if a deletion keeps it and if it does not read the flags.
-/

namespace BlockText

open Wiring

/-- The same workspace but for the flags of its nodes. -/
structure Reflagged (w v : Workspace) : Prop where
  roots : v.roots = w.roots
  nextId : v.nextId = w.nextId
  nodes : ∃ flag : NodeId → Node → Option Disabled, ∀ x,
    v.get? x = (w.get? x).map fun n => { n with disabled := flag x n }

namespace Reflagged

variable {u v w : Workspace}

theorem refl (w : Workspace) : Reflagged w w :=
  ⟨rfl, rfl, fun _ n => n.disabled, fun x => by cases w.get? x <;> rfl⟩

theorem trans (h : Reflagged w v) (h' : Reflagged v u) : Reflagged w u := by
  obtain ⟨f, hf⟩ := h.nodes
  obtain ⟨g, hg⟩ := h'.nodes
  refine ⟨h'.roots.trans h.roots, h'.nextId.trans h.nextId,
    fun x n => g x { n with disabled := f x n }, fun x => ?_⟩
  rw [hg, hf, Option.map_map]
  rfl

theorem setDisabled (w : Workspace) (id : NodeId) (reason : Option Disabled) :
    Reflagged w (w.setDisabled id reason) := by
  refine ⟨rfl, rfl, fun x n => if x = id then reason else n.disabled, fun x => ?_⟩
  rw [Workspace.setDisabled, Workspace.get?_update]
  by_cases hx : x = id
  · subst hx
    simp
  · cases w.get? x <;> simp [hx]

theorem map (w : Workspace) (flag : Node → Option Disabled) :
    Reflagged w { w with nodes := w.nodes.map fun _ n => { n with disabled := flag n } } :=
  ⟨rfl, rfl, fun _ n => flag n, fun x => SortedMap.get?_map w.nodes _ x⟩

theorem foldl {α : Type} {f : Workspace → α → Workspace} (hf : ∀ w a, Reflagged w (f w a))
    (as : List α) (w : Workspace) : Reflagged w (as.foldl f w) := by
  induction as generalizing w with
  | nil => exact refl w
  | cons a as ih => exact (hf w a).trans (ih (f w a))

theorem flagGroup (w : Workspace) (ids : List NodeId) : Reflagged w (Rules.flagGroup w ids) := by
  cases ids with
  | nil => exact refl w
  | cons first others =>
    unfold Rules.flagGroup
    refine trans ?_ (foldl (fun w id => setDisabled w id _) others _)
    split
    · exact setDisabled w first none
    · exact refl w

theorem flagAll (rules : List HandlerRule) (w : Workspace) :
    Reflagged w (Rules.flagAll rules w).1 := by
  induction rules generalizing w with
  | nil => exact refl w
  | cons rule rules ih =>
    exact (foldl flagGroup (Rules.handlers w rule).values w).trans (ih _)

/-- The links of the nodes are the same. -/
theorem wiring (h : Reflagged w v) : v.wiring = w.wiring := by
  obtain ⟨f, hf⟩ := h.nodes
  funext x
  simp only [Workspace.wiring, hf, Option.map_map]
  rfl

theorem parent? (h : Reflagged w v) (x : NodeId) : v.parent? x = w.parent? x := by
  rw [← Workspace.parent?_wiring, ← Workspace.parent?_wiring, h.wiring]

/-- There are as many nodes. -/
theorem size (h : Reflagged w v) : v.size = w.size := by
  obtain ⟨f, hf⟩ := h.nodes
  have hnodes : v.nodes = w.nodes.map fun x n => { n with disabled := f x n } := by
    refine SortedMap.ext fun x => ?_
    rw [SortedMap.get?_map]
    exact hf x
  simp [Workspace.size, hnodes, SortedMap.size, SortedMap.map]

theorem forest (h : Reflagged w v) (hw : Forest w) : Forest v := hw.congr h.wiring h.roots

theorem keeps (h : Reflagged w v) : Keeps w v := by
  obtain ⟨f, hf⟩ := h.nodes
  intro x m hx
  rw [hf] at hx
  obtain ⟨n, hn, rfl⟩ := Option.map_eq_some_iff.mp hx
  exact ⟨n, hn, rfl, rfl, rfl, rfl, rfl⟩

theorem slots (h : Reflagged w v) {r : Registry} {P : InputSpec → Slot → Prop}
    (hP : w.Slots r P) : v.Slots r P := by
  obtain ⟨f, hf⟩ := h.nodes
  refine hP.keeps fun x m hx => ?_
  rw [hf] at hx
  obtain ⟨n, hn, rfl⟩ := Option.map_eq_some_iff.mp hx
  exact ⟨n, hn, rfl, rfl, fun _ => id⟩

theorem tidy (h : Reflagged w v) {r : Registry} (hw : Tidy r w) : Tidy r v where
  forest := h.forest hw.forest
  conforms := hw.conforms.keeps h.keeps (h.forest hw.forest).linked (Nat.le_of_eq h.nextId.symm)
    (h.slots hw.conforms.slots)
  furnished := .keeps h.keeps (h.forest hw.forest) (h.slots hw.furnished.slots)
    (h.roots ▸ hw.furnished.roots)

end Reflagged

namespace Rules

variable {I : Workspace → Prop}

theorem deleteAll_keeps (hd : ∀ w id, I w → I (w.delete id).workspace) (ids : List NodeId)
    {w : Workspace} (h : I w) : I (deleteAll ids w).workspace := by
  induction ids generalizing w with
  | nil => exact h
  | cons id ids ih => exact ih (hd w id h)

theorem pruneKind_keeps (hd : ∀ w id, I w → I (w.delete id).workspace) {p : Pruned}
    (h : I p.workspace) (kind : Kind) : I (pruneKind p kind).workspace := by
  unfold pruneKind
  split
  · exact deleteAll_keeps hd _ h
  · exact h

theorem prune_keeps (hd : ∀ w id, I w → I (w.delete id).workspace) (kinds : List Kind)
    {w : Workspace} (h : I w) : I (prune kinds w).workspace := by
  have hrun : ∀ (kinds : List Kind) (p : Pruned), I p.workspace →
      I (kinds.foldl pruneKind p).workspace := by
    intro kinds
    induction kinds with
    | nil => exact fun _ hp => hp
    | cons kind kinds ih => exact fun p hp => ih _ (pruneKind_keeps hd hp kind)
  exact hrun _ _ h

/-- After the single roots the rules set flags and nothing else. -/
theorem reflagged_normalize (rules : Rules) (w : Workspace) :
    Reflagged (prune rules.singletons w).workspace (rules.normalize w).workspace :=
  ((Reflagged.map _ _).trans (Reflagged.flagAll _ _)).trans (Reflagged.map _ _)

theorem normalize_keeps (hd : ∀ w id, I w → I (w.delete id).workspace)
    (hf : ∀ w v, Reflagged w v → I w → I v) (rules : Rules) {w : Workspace} (h : I w) :
    I (rules.normalize w).workspace :=
  hf _ _ (rules.reflagged_normalize w) (prune_keeps hd _ h)

end Rules

theorem Tidy.normalize {r : Registry} {w : Workspace} (h : Tidy r w) (rules : Rules) :
    Tidy r (rules.normalize w).workspace :=
  rules.normalize_keeps (fun _ id hw => hw.delete id) (fun _ _ hf hw => hf.tidy hw) h

end BlockText

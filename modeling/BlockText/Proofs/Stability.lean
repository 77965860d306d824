import BlockText.Proofs.Verdicts

/-!
# Rules that do not read what they write

The rules set flags, and some of their passes read the flags that are there: gating leaves a
duplicate alone, and a handler that is the first of its group loses no other flag. Still nothing of
what the rules bring about goes back to the flags that they find. Two runs on workspaces that differ
in flags only stay alike through the deletions, and what comes after them is read off the rest of
the workspace. So a second run finds nothing to delete, and gives every node the flag it has.
-/

namespace BlockText

open Workspace

variable {w v : Workspace} {x : NodeId} {kind : Kind}

/-! ## Workspaces that differ in flags -/

namespace Reflagged

/-- The flags can be set back to what they were. -/
theorem symm (h : Reflagged w v) : Reflagged v w := by
  obtain ⟨f, hf⟩ := h.nodes
  refine ⟨h.roots.symm, h.nextId.symm, fun x _ => Rules.flag? w x, fun x => ?_⟩
  rw [hf, Option.map_map]
  cases hn : w.get? x with
  | none => rfl
  | some n =>
    have hflag : Rules.flag? w x = n.disabled := by rw [Rules.flag?, hn, Option.bind_some]
    simp only [Option.map_some, Function.comp_apply, hflag]

/-- A change of a node that neither reads nor writes flags. -/
theorem update (h : Reflagged w v) (id : NodeId) {f : Node → Node}
    (hf : ∀ n flag, f { n with disabled := flag } = { f n with disabled := flag }) :
    Reflagged (w.update id f) (v.update id f) := by
  obtain ⟨g, hg⟩ := h.nodes
  -- the flags of `v` are kept by the change, so they are read off `v` itself
  refine ⟨h.roots, h.nextId, fun x _ => Rules.flag? v x, fun x => ?_⟩
  have hflag (n : Node) (hn : w.get? x = some n) : Rules.flag? v x = g x n := by
    rw [Rules.flag?, hg, hn]
    rfl
  rw [get?_update, get?_update]
  split
  · next hx =>
    subst hx
    rw [hg]
    cases hn : w.get? x with
    | none => rfl
    | some n =>
      have hkept := congrArg (fun flag => { f n with disabled := flag }) (hflag n hn).symm
      exact congrArg some ((hf n (g x n)).trans hkept)
  · rw [hg]
    cases hn : w.get? x with
    | none => rfl
    | some n => simp only [Option.map_some, hflag n hn]

theorem withRoots (h : Reflagged w v) (roots : List NodeId) :
    Reflagged { w with roots := roots } { v with roots := roots } :=
  ⟨rfl, h.nextId, h.nodes⟩

theorem unlink (h : Reflagged w v) (id : NodeId) : Reflagged (w.unlink id) (v.unlink id) := by
  unfold Workspace.unlink
  rw [h.parent? id]
  cases w.parent? id with
  | some p => exact (h.update p fun _ _ => rfl).update id fun _ _ => rfl
  | none =>
    rw [h.roots]
    exact (h.withRoots _).update id fun _ _ => rfl

theorem remove (h : Reflagged w v) (ids : List NodeId) :
    Reflagged (w.remove ids) (v.remove ids) := by
  obtain ⟨f, hf⟩ := h.nodes
  refine ⟨by rw [roots_remove, roots_remove, h.roots], h.nextId, f, fun x => ?_⟩
  rw [get?_remove, get?_remove]
  split
  · rfl
  · exact hf x

/-- The walk down meets the same nodes. -/
theorem descendants (h : Reflagged w v) (x : NodeId) : v.descendants x = w.descendants x := by
  obtain ⟨f, hf⟩ := h.nodes
  have hdown (bound : Nat) (x : NodeId) :
      v.descendantsUpTo bound x = w.descendantsUpTo bound x := by
    induction bound generalizing x with
    | zero => rfl
    | succ bound ih =>
      rw [descendantsUpTo, hf, descendantsUpTo]
      cases w.get? x with
      | none => rfl
      | some n => exact congrArg (x :: ·) (List.flatMap_congr fun c _ => ih c)
  rw [Workspace.descendants, hdown, h.size, Workspace.descendants]

end Reflagged

/-! ## Deletions -/

/-- Two edits with the same answer and the same events, and with workspaces that differ in flags. -/
structure Edited.Parallel {α : Type} (e e' : Edited α) : Prop where
  workspace : Reflagged e.workspace e'.workspace
  answer : e'.answer = e.answer
  events : e'.events = e.events

theorem Reflagged.delete (h : Reflagged w v) (x : NodeId) : (w.delete x).Parallel (v.delete x) := by
  obtain ⟨f, hf⟩ := h.nodes
  have hwalk := (h.unlink x).descendants x
  unfold Workspace.delete Workspace.node
  rw [hf]
  cases w.get? x with
  | none => exact ⟨h, rfl, rfl⟩
  | some n =>
    simp only [Option.map_some]
    split
    · exact ⟨h, rfl, rfl⟩
    · rw [hwalk]
      exact ⟨(h.unlink x).remove _, rfl, rfl⟩

namespace Rules

theorem deleteAll_reflagged (ids : List NodeId) (h : Reflagged w v) :
    (deleteAll ids w).Parallel (deleteAll ids v) := by
  induction ids generalizing w v with
  | nil => exact ⟨h, rfl, rfl⟩
  | cons id ids ih =>
    obtain ⟨hfirst, hanswer, hevents⟩ := h.delete id
    obtain ⟨hrest, hanswer', hevents'⟩ := ih hfirst
    refine ⟨hrest, ?_, ?_⟩
    · rw [deleteAll, deleteAll, hanswer, hanswer']
    · rw [deleteAll, deleteAll, hevents, hevents']

/-- Two runs that removed the same and said the same, and whose workspaces differ in flags. -/
structure Pruned.Parallel (p q : Pruned) : Prop where
  workspace : Reflagged p.workspace q.workspace
  removed : q.removed = p.removed
  notices : q.notices = p.notices
  events : q.events = p.events

theorem pruneKind_reflagged {p q : Pruned} (h : p.Parallel q) (kind : Kind) :
    (pruneKind p kind).Parallel (pruneKind q kind) := by
  unfold pruneKind
  rw [reflagged_topLevelOf h.workspace]
  cases p.workspace.topLevelOf kind with
  | nil => exact h
  | cons first others =>
    cases others with
    | nil => exact h
    | cons extra more =>
      obtain ⟨hworkspace, hanswer, hevents⟩ := deleteAll_reflagged (extra :: more) h.workspace
      refine ⟨hworkspace, ?_, ?_, ?_⟩
      · simp only [h.removed, hanswer]
      · simp only [h.notices]
      · simp only [h.events, hevents]

/-- The deletions do not depend on flags. -/
theorem prune_reflagged (kinds : List Kind) (h : Reflagged w v) :
    (prune kinds w).Parallel (prune kinds v) := by
  have hrun (ks : List Kind) (p q : Pruned) (hpq : p.Parallel q) :
      (ks.foldl pruneKind p).Parallel (ks.foldl pruneKind q) := by
    induction ks generalizing p q with
    | nil => exact hpq
    | cons kind ks ih => exact ih _ _ (pruneKind_reflagged hpq kind)
  exact hrun _ _ _ ⟨h, rfl, rfl, rfl⟩

/-! ## Flags -/

theorem flagHandlers_notice_reflagged (h : Reflagged w v) (rule : HandlerRule) :
    (flagHandlers v rule).2 = (flagHandlers w rule).2 := by
  have hgroups : handlers v rule = handlers w rule := by
    simp only [handlers, reflagged_topLevelOf h, reflagged_discriminant h]
  simp only [flagHandlers, hgroups]

/-- The notices about handlers do not depend on flags. -/
theorem flagAll_notices_reflagged (rules : List HandlerRule) (h : Reflagged w v) :
    (flagAll rules v).2 = (flagAll rules w).2 := by
  induction rules generalizing w v with
  | nil => rfl
  | cons rule rules ih =>
    have hnext : Reflagged (flagHandlers w rule).1 (flagHandlers v rule).1 :=
      ((reflagged_flagHandlers w rule).symm.trans h).trans (reflagged_flagHandlers v rule)
    have hnotice := congrArg (·.2) (flagHandlers_notice_reflagged h rule)
    show (flagHandlers v rule).2.2.toList ++ (flagAll rules (flagHandlers v rule).1).2 =
      (flagHandlers w rule).2.2.toList ++ (flagAll rules (flagHandlers w rule).1).2
    rw [ih hnext]
    exact congrArg (·.toList ++ _) hnotice

theorem isDuplicate_reflagged (h : Reflagged w v) (rules : Rules) (x : NodeId) :
    rules.isDuplicate v x = rules.isDuplicate w x := by
  simp only [isDuplicate, ruleFor, reflagged_kind? h, reflagged_peers h]

/-- The flag that the rules give a node does not depend on flags. -/
theorem flagFor_reflagged (h : Reflagged w v) (rules : Rules) (x : NodeId) {m n : Node}
    (hid : m.id = n.id) : rules.flagFor v x m = rules.flagFor w x n := by
  simp only [flagFor, isDuplicate_reflagged h, isEnabled_reflagged h, hid]

/-- After deletions that left the same nodes the rules leave the same workspace. -/
theorem normalize_workspace_eq {rules : Rules}
    (h : Reflagged (prune rules.singletons w).workspace (prune rules.singletons v).workspace) :
    (rules.normalize v).workspace = (rules.normalize w).workspace := by
  have hv := rules.reflagged_normalize v
  have hw := rules.reflagged_normalize w
  refine eq_of_get? (fun x => ?_) ?_ ?_
  · obtain ⟨f, hf⟩ := h.nodes
    rw [get?_normalize, get?_normalize, hf, Option.map_map]
    refine congrArg (Option.map · _) (funext fun n => ?_)
    exact congrArg (fun flag => { n with disabled := flag }) (flagFor_reflagged h rules x rfl)
  · rw [hv.roots, h.roots, hw.roots]
  · rw [hv.nextId, h.nextId, hw.nextId]

/-! ## Whole runs -/

/-- What the rules report is what the deletions and the handlers said, and the flags that are
left. -/
theorem normalize_eq (rules : Rules) (w : Workspace) : rules.normalize w =
    { workspace := (rules.normalize w).workspace
      answer := .ok ⟨(prune rules.singletons w).notices ++ (flagAll rules.uniqueHandlers
          (clearDuplicates (prune rules.singletons w).workspace)).2,
        (prune rules.singletons w).removed,
        (rules.normalize w).workspace.nodes.keys.filter fun id =>
          (((rules.normalize w).workspace.get? id).bind (·.disabled)).isSome⟩
      events := (prune rules.singletons w).events } := rfl

/-- The rules do the same to workspaces that differ in flags: they leave the same workspace, remove
the same nodes, say the same and fire the same events. -/
theorem normalize_eq_of_reflagged (h : Reflagged w v) (rules : Rules) :
    rules.normalize v = rules.normalize w := by
  obtain ⟨hleft, hremoved, hnotices, hevents⟩ := prune_reflagged rules.singletons h
  have hworkspace := normalize_workspace_eq hleft
  have hclear : Reflagged (clearDuplicates (prune rules.singletons w).workspace)
      (clearDuplicates (prune rules.singletons v).workspace) :=
    ((Reflagged.map _ _).symm.trans hleft).trans (.map _ _)
  have hhandlers := flagAll_notices_reflagged rules.uniqueHandlers hclear
  rw [normalize_eq rules v, normalize_eq rules w, hworkspace, hremoved, hnotices, hevents,
    hhandlers]

/-- The blocks of `crowded` with flags that the rules would not give them. -/
def misflagged : Workspace :=
  ((crowded.setDisabled 0 (some .duplicateHandler)).setDisabled 2 (some .needsEvent)).setDisabled 4
    (some .duplicateHandler)

theorem reflagged_misflagged : Reflagged crowded misflagged :=
  ((Reflagged.setDisabled _ _ _).trans (.setDisabled _ _ _)).trans (.setDisabled _ _ _)

theorem normalize_misflagged :
    Reflagged crowded misflagged ∧ misflagged ≠ crowded ∧
      standard.normalize misflagged = standard.normalize crowded :=
  ⟨reflagged_misflagged, by decide, normalize_eq_of_reflagged reflagged_misflagged standard⟩

/-! ## A second run -/

/-- After the deletions there is one root at most of each kind that may be root once. -/
theorem single_prune (h : Forest w)
    (hreal : ∀ x ∈ w.roots, ∀ n, w.get? x = some n → n.shadow = false) {kinds : List Kind}
    (hkind : kind ∈ kinds) : (prune kinds w).workspace.Single kind := by
  rw [(prune_eq_remove h hreal kinds).1]
  intro x hx y hy hkx hky
  rw [h.roots_remove_trees, List.mem_filter, decide_eq_true_iff] at hx hy
  -- what is left was of the same kind before
  have hbefore (z : NodeId) (hz : z ∈ w.roots ∧ z ∉ superfluous (Kind.ordered kinds) w)
      (hk : (w.remove (w.trees (superfluous (Kind.ordered kinds) w))).kind? z = some kind) :
      w.kind? z = some kind := by
    rwa [Workspace.kind?, get?_remove, if_neg (mt (h.mem_trees_root hz.1).mp hz.2)] at hk
  have hfirst {z : NodeId} (hz : z ∈ w.roots ∧ z ∉ superfluous (Kind.ordered kinds) w) :=
    (not_mem_superfluous_iff h.roots_nodup hz.1).mp hz.2 kind hkind
  have hbx := hbefore x hx hkx
  have hby := hbefore y hy hky
  exact Nat.le_antisymm (hfirst hx hbx y hy.1 hby) (hfirst hy hby x hx.1 hbx)

/-- In a forest without shadows at its top a second run of the rules removes nothing, reports the
same nodes as left out and leaves the workspace as the first run left it. -/
theorem normalize_normalize (h : Forest w)
    (hreal : ∀ x ∈ w.roots, ∀ n, w.get? x = some n → n.shadow = false) (rules : Rules) :
    ∃ c c', (rules.normalize w).answer = .ok c ∧
      (rules.normalize (rules.normalize w).workspace).answer = .ok c' ∧
      c'.removed = [] ∧ c'.disabled = c.disabled ∧
      (rules.normalize (rules.normalize w).workspace).workspace = (rules.normalize w).workspace ∧
      (rules.normalize (rules.normalize w).workspace).events = [] := by
  have hflags := rules.reflagged_normalize w
  have hsingle (k : Kind) (hk : k ∈ rules.singletons) :
      (rules.normalize w).workspace.Single k := by
    intro x hx y hy hkx hky
    rw [reflagged_kind? hflags] at hkx hky
    rw [hflags.roots] at hx hy
    exact single_prune h hreal hk x hx y hy hkx hky
  have hnd : (rules.normalize w).workspace.roots.Nodup :=
    hflags.roots ▸ h.roots_nodup.sublist (roots_prune_sublist rules.singletons w)
  have hprune := prune_eq hsingle hnd
  -- the second run starts from what the deletions of the first one left, with other flags
  have hsame : (rules.normalize (rules.normalize w).workspace).workspace =
      (rules.normalize w).workspace := by
    apply normalize_workspace_eq
    rw [hprune]
    exact hflags
  refine ⟨_, _, rfl, rfl, ?_, ?_, hsame, ?_⟩
  · exact congrArg Pruned.removed hprune
  · exact congrArg (fun v : Workspace => v.nodes.keys.filter fun id =>
      ((v.get? id).bind (·.disabled)).isSome) hsame
  · exact congrArg Pruned.events hprune

/-- Handlers of buttons have to differ in two fields one after the other, are gated, and may be root
once, as the start may. -/
def entangled : Rules :=
  ⟨[.onStart], [.onButtonPressed, .clearScreen], [.onStart, .onButtonPressed],
    [⟨.onButtonPressed, "SIDE"⟩, ⟨.onButtonPressed, "BUTTON"⟩]⟩

theorem normalize_normalize_entangled :
    Forest crowded ∧ (∀ x ∈ crowded.roots, ∀ n, crowded.get? x = some n → n.shadow = false) ∧
      ∃ c c', (entangled.normalize crowded).answer = .ok c ∧ c.removed = [1, 3] ∧
        c.disabled = [2, 4] ∧
        (entangled.normalize (entangled.normalize crowded).workspace).answer = .ok c' ∧
        c'.removed = [] ∧ c'.disabled = [2, 4] ∧
        (entangled.normalize (entangled.normalize crowded).workspace).workspace =
          (entangled.normalize crowded).workspace := by
  obtain ⟨c, c', hc, hc', hremoved, hdisabled, hsame, -⟩ :=
    normalize_normalize tidy_crowded.forest (fun _ hx _ => real_crowded hx) entangled
  have hfirst : c.removed = [1, 3] ∧ c.disabled = [2, 4] := by
    cases hc
    decide
  exact ⟨tidy_crowded.forest, fun _ hx _ => real_crowded hx, c, c', hc, hfirst.1, hfirst.2, hc',
    hremoved, hdisabled.trans hfirst.2, hsame⟩

end Rules

end BlockText

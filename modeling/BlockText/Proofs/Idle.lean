import BlockText.Proofs.Corrections

/-!
# What the rules leave alone

The rules delete roots and set flags. They delete nothing exactly if, of the kinds that may be root
once, each root but the first made cannot be deleted; and the flag that they give a node can be read
off the workspace: a handler of what an earlier one handles is a duplicate, and of all other nodes
those that may not run need an event. So a workspace that the rules leave alone is one in which
every node has its flag already. None of this asks for a forest, so it holds of any workspace.
-/

namespace BlockText

open Workspace

variable {w v : Workspace} {x : NodeId} {n : Node} {kind : Kind}

/-! ## Deletions -/

/-- A deletion that fires nothing was refused. -/
theorem Workspace.delete_eq_of_silent (h : (w.delete x).events = []) :
    (w.delete x).workspace = w := by
  cases hn : w.get? x with
  | none => simp [delete, node, hn, Edited.refused]
  | some n =>
    cases hs : n.shadow with
    | true => simp [delete, node, hn, hs, Edited.refused]
    | false => simp [delete, node, hn, hs] at h

/-- Of the nodes that are there only the shadows cannot be deleted. -/
theorem Workspace.delete_silent_iff (hn : w.get? x = some n) :
    (w.delete x).events = [] ↔ n.shadow = true := by
  cases hs : n.shadow <;> simp [delete, node, hn, hs, Edited.refused]

namespace Rules

theorem deleteAll_silent (ids : List NodeId) (w : Workspace) :
    ((deleteAll ids w).events = [] ↔ ∀ x ∈ ids, (w.delete x).events = []) ∧
      ((deleteAll ids w).events = [] → (deleteAll ids w).workspace = w) := by
  induction ids generalizing w with
  | nil => exact ⟨iff_of_true rfl (by simp), fun _ => rfl⟩
  | cons id ids ih =>
    have hevents : (deleteAll (id :: ids) w).events =
        (w.delete id).events ++ (deleteAll ids (w.delete id).workspace).events := rfl
    have hrest : (w.delete id).events = [] →
        (w.delete id).workspace = w := Workspace.delete_eq_of_silent
    rw [hevents, List.append_eq_nil_iff, List.forall_mem_cons]
    constructor
    · refine and_congr_right fun h => ?_
      rw [hrest h]
      exact (ih w).1
    · rintro ⟨h, hlater⟩
      show (deleteAll ids (w.delete id).workspace).workspace = w
      rw [hrest h] at hlater ⊢
      exact (ih w).2 hlater

/-- All roots of a kind but the first made cannot be deleted. -/
def Spared (w : Workspace) (kind : Kind) : Prop :=
  ∀ x ∈ (w.topLevelOf kind).tail, (w.delete x).events = []

/-- Pruning a kind adds events unless its roots are spared, and without events it does nothing. -/
theorem pruneKind_events (p : Pruned) (kind : Kind) : ∃ more,
    (pruneKind p kind).events = p.events ++ more ∧ (more = [] ↔ Spared p.workspace kind) ∧
      (more = [] → (pruneKind p kind).workspace = p.workspace) := by
  unfold pruneKind Spared
  split
  · next first extra rest htop =>
    obtain ⟨hiff, hsame⟩ := deleteAll_silent (extra :: rest) p.workspace
    refine ⟨_, rfl, ?_, hsame⟩
    rw [hiff, htop, List.tail_cons]
  · next hnone =>
    refine ⟨[], (List.append_nil _).symm, iff_of_true rfl ?_, fun _ => rfl⟩
    -- there is one root of the kind at most
    cases htop : p.workspace.topLevelOf kind with
    | nil => simp
    | cons first others =>
      cases others with
      | nil => simp
      | cons extra rest => exact absurd htop (hnone first extra rest)

theorem foldl_pruneKind_silent (kinds : List Kind) (p : Pruned) :
    ((kinds.foldl pruneKind p).events = [] ↔
      p.events = [] ∧ ∀ k ∈ kinds, Spared p.workspace k) ∧
      ((kinds.foldl pruneKind p).events = [] →
        (kinds.foldl pruneKind p).workspace = p.workspace) := by
  induction kinds generalizing p with
  | nil => simp
  | cons kind kinds ih =>
    obtain ⟨more, hevents, hiff, hsame⟩ := pruneKind_events p kind
    obtain ⟨hlater, hlast⟩ := ih (pruneKind p kind)
    rw [hevents, List.append_eq_nil_iff, hiff] at hlater
    rw [List.foldl_cons, List.forall_mem_cons]
    constructor
    · rw [hlater, and_assoc]
      refine and_congr_right fun _ => and_congr_right fun hspared => ?_
      rw [hsame (hiff.mpr hspared)]
    · intro h
      rw [hlast h, hsame (hiff.mpr (hlater.mp h).1.2)]

theorem prune_silent (kinds : List Kind) (w : Workspace) :
    ((prune kinds w).events = [] ↔ ∀ k ∈ kinds, Spared w k) ∧
      ((prune kinds w).events = [] → (prune kinds w).workspace = w) := by
  obtain ⟨hiff, hsame⟩ := foldl_pruneKind_silent (Kind.ordered kinds) ⟨w, [], [], []⟩
  refine ⟨hiff.trans ?_, hsame⟩
  simp only [true_and, mem_ordered]

/-! ## Duplicates -/

/-- The handlers of what a handler handles, in order of creation. -/
def peers (w : Workspace) (rule : HandlerRule) (x : NodeId) : List NodeId :=
  (w.topLevelOf rule.kind).filter fun y =>
    discriminant w rule.field y = discriminant w rule.field x

/-- The rule that decides about a node: the last one for its kind. -/
def ruleFor (rules : Rules) (w : Workspace) (x : NodeId) : Option HandlerRule :=
  (w.kind? x).bind fun kind => (fieldFor kind rules.uniqueHandlers).map (⟨kind, ·⟩)

/-- Whether an earlier handler handles what a node does. -/
def isDuplicate (rules : Rules) (w : Workspace) (x : NodeId) : Bool :=
  (rules.ruleFor w x).any fun rule => (peers w rule x).tail.contains x

/-- In a group all but the first are duplicates. -/
theorem flag?_flagGroup_iff {group : List NodeId} (hx : x ∈ group) (hn : w.get? x = some n) :
    flag? (flagGroup w group) x = some .duplicateHandler ↔ x ∈ group.tail := by
  refine ⟨fun h => ?_, fun h => flag?_flagGroup_of_mem_tail h hn⟩
  by_contra hhead
  cases group with
  | nil => cases hx
  | cons first others =>
    rw [List.tail_cons] at hhead
    obtain rfl : x = first := (List.mem_cons.mp hx).resolve_right hhead
    -- without the others nothing was set after the flag of the first was cleared
    unfold flagGroup at h
    rw [flag?_foldl_setDisabled, if_neg hhead] at h
    exact flag?_flagGroup_singleton w x h

theorem flag?_flagHandlers_iff {rule : HandlerRule} (hx : x ∈ w.topLevelOf rule.kind)
    (hn : w.get? x = some n) :
    flag? (flagHandlers w rule).1 x = some .duplicateHandler ↔ x ∈ (peers w rule x).tail := by
  obtain ⟨hex, honly⟩ := group_of_mem hx
  refine flag?_foldl_flagGroup
    (Q := fun f => f = some .duplicateHandler ↔ x ∈ (peers w rule x).tail) ?_ hex
  intro g hg hxg v hv
  obtain ⟨f, hf⟩ := hv.nodes
  rw [flag?_flagGroup_iff hxg ((hf x).trans (congrArg _ hn)), honly g hg hxg, peers]

theorem reflagged_peers (h : Reflagged w v) (rule : HandlerRule) (x : NodeId) :
    peers v rule x = peers w rule x := by
  simp only [peers, reflagged_topLevelOf h, reflagged_discriminant h]

theorem mem_topLevelOf_of_mem_peers {rule : HandlerRule} (h : x ∈ (peers w rule x).tail) :
    x ∈ w.topLevelOf rule.kind :=
  List.mem_of_mem_filter (List.mem_of_mem_tail h)

/-- The handler rules flag the duplicates and no other node. -/
theorem flag?_flagAll_iff (rules : Rules) (w : Workspace) (x : NodeId) :
    flag? (flagAll rules.uniqueHandlers (clearDuplicates w)).1 x = some .duplicateHandler ↔
      rules.isDuplicate w x = true := by
  have hclear : Reflagged w (clearDuplicates w) := .map _ _
  -- a node that is no root of a kind with a rule keeps the flag that clearing left
  have hother (hno : ∀ rule ∈ rules.uniqueHandlers, x ∉ w.topLevelOf rule.kind) :
      flag? (flagAll rules.uniqueHandlers (clearDuplicates w)).1 x ≠ some .duplicateHandler := by
    rw [flag?_flagAll_of_not_mem]
    · exact flag?_clearDuplicates w x
    · intro rule hrule
      rw [reflagged_topLevelOf hclear]
      exact hno rule hrule
  rw [isDuplicate]
  cases hrule : rules.ruleFor w x with
  | none =>
    refine iff_of_false (hother fun rule hmem hx => ?_) (by simp)
    rw [ruleFor, (mem_topLevelOf.mp hx).2, Option.bind_some, Option.map_eq_none_iff] at hrule
    exact kind_ne_of_fieldFor_eq_none hrule rule hmem rfl
  | some rule =>
    obtain ⟨kind, hkind, hrule⟩ := Option.bind_eq_some_iff.mp hrule
    obtain ⟨field, hfield, rfl⟩ := Option.map_eq_some_iff.mp hrule
    rw [Option.any_some, List.contains_iff_mem]
    by_cases hx : x ∈ w.topLevelOf kind
    · obtain ⟨m, hm⟩ : ∃ m, w.get? x = some m := by
        obtain ⟨m, hm, -⟩ := Option.map_eq_some_iff.mp hkind
        exact ⟨m, hm⟩
      refine flagAll_last (w := clearDuplicates w) hfield
        (Q := fun v => flag? v x = some .duplicateHandler ↔ x ∈ (peers w ⟨kind, field⟩ x).tail)
        (fun v hv => ?_) fun u v huv hu => ?_
      · have hall := hclear.trans hv
        obtain ⟨f, hf⟩ := hall.nodes
        rw [flag?_flagHandlers_iff (by rwa [reflagged_topLevelOf hall])
          ((hf x).trans (congrArg _ hm)), reflagged_peers hall]
      · rw [huv x (by rwa [reflagged_topLevelOf hclear])]
        exact hu
    · refine iff_of_false (hother fun rule _ hmem => ?_) fun h =>
        hx (mem_topLevelOf_of_mem_peers h)
      have hroot := mem_topLevelOf.mp hmem
      rw [hkind, Option.some.injEq] at hroot
      exact hx (hroot.2 ▸ hmem)

/-! ## Gating -/

/-- The flag that the rules give a node. -/
def flagFor (rules : Rules) (w : Workspace) (x : NodeId) (n : Node) : Option Disabled :=
  if rules.isDuplicate w x then some .duplicateHandler
  else if rules.isEnabled w n.id then none
  else some .needsEvent

/-- To what is left after the deletions the rules give every node its flag and change nothing
else. -/
theorem get?_normalize (rules : Rules) (w : Workspace) (x : NodeId) :
    (rules.normalize w).workspace.get? x = ((prune rules.singletons w).workspace.get? x).map
      fun n => { n with disabled := rules.flagFor (prune rules.singletons w).workspace x n } := by
  rw [normalize_workspace]
  generalize (prune rules.singletons w).workspace = u
  have hflags : Reflagged u (flagAll rules.uniqueHandlers (clearDuplicates u)).1 :=
    (Reflagged.map _ _).trans (.flagAll _ _)
  have hdup := rules.flag?_flagAll_iff u x
  obtain ⟨f, hf⟩ := hflags.nodes
  rw [get?_gate, hf, Option.map_map]
  rw [flag?, hf] at hdup
  cases hn : u.get? x with
  | none => rfl
  | some n =>
    rw [hn] at hdup
    replace hdup : f x n = some .duplicateHandler ↔ rules.isDuplicate u x = true := hdup
    simp only [Option.map_some, Function.comp_apply, gatedFlag, flagFor,
      isEnabled_reflagged hflags]
    by_cases hd : rules.isDuplicate u x = true
    · simp only [hd, hdup.mpr hd, if_true]
    · simp only [hd, mt hdup.mp hd, if_false]
      rfl

/-! ## All rules -/

/-- The rules have nothing to do: of the kinds that may be root once all roots but the first made are
shadows, and every node has its flag. -/
structure Idle (rules : Rules) (w : Workspace) : Prop where
  single : ∀ k ∈ rules.singletons, ∀ x ∈ (w.topLevelOf k).tail, ∀ n, w.get? x = some n →
    n.shadow = true
  flags : ∀ x n, w.get? x = some n → n.disabled = rules.flagFor w x n

theorem spared_iff : Spared w kind ↔
    ∀ x ∈ (w.topLevelOf kind).tail, ∀ n, w.get? x = some n → n.shadow = true := by
  refine forall₂_congr fun x hx => ?_
  obtain ⟨n, hn, -⟩ :=
    Option.map_eq_some_iff.mp (mem_topLevelOf.mp (List.mem_of_mem_tail hx)).2
  rw [delete_silent_iff hn, hn]
  simp

/-- The rules change no node and no root and fire nothing exactly if they have nothing to do. -/
theorem normalize_unchanged_iff (rules : Rules) (w : Workspace) :
    ((rules.normalize w).workspace.nodes = w.nodes ∧
      (rules.normalize w).workspace.roots = w.roots ∧ (rules.normalize w).events = []) ↔
      rules.Idle w := by
  obtain ⟨hiff, hsame⟩ := prune_silent rules.singletons w
  have hevents : (rules.normalize w).events = (prune rules.singletons w).events := rfl
  rw [hevents]
  have hflag (x : NodeId) (n : Node) (f : Option Disabled) :
      { n with disabled := f } = n ↔ n.disabled = f := by
    obtain ⟨⟩ := n
    simp [eq_comm]
  constructor
  · rintro ⟨hnodes, -, hsilent⟩
    have hprune := hsame hsilent
    refine ⟨fun k hk => spared_iff.mp (hiff.mp hsilent k hk), fun x n hn => ?_⟩
    have hget := rules.get?_normalize w x
    rw [hprune, get?, hnodes, ← get?, hn, Option.map_some, Option.some.injEq] at hget
    exact (hflag x n _).mp hget.symm
  · rintro ⟨hsingle, hflags⟩
    have hsilent := hiff.mpr fun k hk => spared_iff.mpr (hsingle k hk)
    have hprune := hsame hsilent
    refine ⟨SortedMap.ext fun x => ?_, ?_, hsilent⟩
    · refine (rules.get?_normalize w x).trans ?_
      rw [hprune]
      cases hn : w.get? x with
      | none => exact hn.symm
      | some n =>
        rw [Option.map_some, (hflag x n _).mpr (hflags x n hn)]
        exact hn.symm
    · rw [(rules.reflagged_normalize w).roots, hprune]

end Rules

end BlockText

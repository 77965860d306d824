import BlockText.Catalogue.Builtin
import BlockText.Edit
import BlockText.Proofs.Branching
import BlockText.Proofs.Normalizing

/-!
# Histories of edits

A history starts with the empty workspace and applies edits and rules, those that are refused
included. With the built-in catalogue every workspace of a history is tidy, so it is well formed:
links, layouts, defaults, roles and fields are all as they should be. Two changes are no part of a
history: taking over a document, whose contents are not checked against the shapes, and connecting
a node to the input where it stands. A history goes on only as far as its counts hold: an edit for
which there are not enough ids, or whose branches cannot be counted, has no outcome.
-/

namespace BlockText

open Wiring

/-! ## The built-in catalogue -/

theorem Registry.find?_builtin (kind : Kind) :
    Registry.builtin.find? kind = some kind.definition := by
  cases kind <;> rfl

/-- A default is a value without inputs whose field accepts what it is to hold. -/
def ShadowSpec.isLiteral (s : ShadowSpec) : Bool :=
  let shape := s.kind.definition.shape
  shape.role.isValue && (match shape.layout with | .fixed inputs => inputs.isEmpty | _ => false) &&
    (shape.field? s.field).any fun f => f.accepts s.value

/-- The default that an input declares. -/
def InputSpec.default? : InputSpec → Option ShadowSpec
  | .value _ _ default => default
  | .statement _ => none

theorem ShadowSpec.isLiteral_of_mem (kind : Kind) (m : Option Mutation) {name : String}
    {check : Check} {s : ShadowSpec}
    (h : .value name check (some s) ∈ kind.definition.shape.inputsFor m) : s.isLiteral = true := by
  have hconditional {m : Mutation} (h : .value name check (some s) ∈ Conditional.inputs m) :
      s.isLiteral = true := by
    rcases List.mem_append.mp h with h | h
    · obtain ⟨i, -, hi⟩ := List.mem_flatMap.mp h
      simp only [List.mem_cons, InputSpec.value.injEq, Option.some.injEq, reduceCtorEq,
        List.not_mem_nil, or_false] at hi
      rw [hi.2.2]
      rfl
    · split at h <;> simp at h
  have hfixed : ∀ specs : List InputSpec, kind.definition.shape.layout = .fixed specs →
      specs.all (fun spec => spec.default?.all ShadowSpec.isLiteral) = true := by
    intro specs hs
    cases kind <;> cases hs <;> decide +kernel
  unfold Shape.inputsFor at h
  split at h
  · exact hconditional h
  · next specs hs => exact List.all_eq_true.mp (hfixed specs hs) _ h

theorem Registry.sound_builtin : Registry.builtin.Sound where
  field_names := by
    intro kind d hd
    rw [find?_builtin, Option.some.injEq] at hd
    subst hd
    cases kind <;> decide
  accepts_default := by
    intro kind d hd
    rw [find?_builtin, Option.some.injEq] at hd
    subst hd
    have hall : kind.definition.shape.fields.all (fun f => f.accepts f.default) = true := by
      cases kind <;> decide +kernel
    exact fun f hf => List.all_eq_true.mp hall f hf
  literal := by
    intro kind d hd m name check s hs
    rw [find?_builtin, Option.some.injEq] at hd
    subst hd
    have hlit := ShadowSpec.isLiteral_of_mem kind m hs
    simp only [ShadowSpec.isLiteral, Bool.and_eq_true, Option.any_eq_true] at hlit
    obtain ⟨⟨hrole, hlayout⟩, f, hf, hv⟩ := hlit
    refine ⟨s.kind.definition, find?_builtin _, hrole, ?_, f, hf, hv⟩
    split at hlayout
    · next inputs he => rw [he, List.isEmpty_iff.mp hlayout]
    · cases hlayout

/-! ## Well-formed workspaces -/

/-- All that is to be expected of a workspace. -/
structure WellFormed (r : Registry) (w : Workspace) : Prop where
  /-- Every node is stored under its id, below the next one. -/
  stored : ∀ x n, w.get? x = some n → n.id = x ∧ x < w.nextId
  roots_nodup : w.roots.Nodup
  roots_top : ∀ x ∈ w.roots, ∃ n, w.get? x = some n ∧ n.parent = none
  /-- A node that is no root stands at one place of one slot, in the node that it names. -/
  owned_once : ∀ x n, w.get? x = some n → x ∉ w.roots → ∃ p k, n.parent = some p ∧
    w.get? p = some k ∧ k.owned.count x = 1 ∧ ∀ q m, w.get? q = some m → x ∈ m.owned → q = p
  /-- What stands in a slot is there and names its owner. -/
  owned_there : ∀ p k x, w.get? p = some k → x ∈ k.owned →
    ∃ n, w.get? x = some n ∧ n.parent = some p
  /-- Every chain of parents ends at a root. -/
  chain : ∀ x n, w.get? x = some n → ∃ as, Chain w.wiring x as ∧ as.getLast?.getD x ∈ w.roots
  /-- Inputs are those of the shape and the mutation; value slots hold values and the declared
  defaults, statement slots hold statements. -/
  inputs : ∀ x n, w.get? x = some n → ∃ d, r.find? n.kind = some d ∧
    n.mutation.isSome = d.shape.isBranching ∧
    Laid (fun spec s => s.Fits (w.role? r) spec ∧ s.Furnished w.tag? spec)
      (d.shape.inputsFor n.mutation) n.inputs
  /-- The nodes flagged as defaults are those that stand as defaults. -/
  shadow_iff : ∀ x n, w.get? x = some n → (n.shadow = true ↔ ∃ p k name child,
    w.get? p = some k ∧ (⟨name, .value child (some x)⟩ : Input) ∈ k.inputs)
  /-- What is neither value nor statement is at the top level. -/
  top_level : ∀ x, w.role? r x = some .root ∨ w.role? r x = some .helper → x ∈ w.roots
  fields : ∀ x n d, w.get? x = some n → r.find? n.kind = some d → d.shape.Admits n.fields

namespace Tidy

open Workspace

variable {r : Registry} {w : Workspace} {x : NodeId} {n : Node}

/-- A node that is no root stands in an input of its parent. -/
theorem input_of_not_root (h : Tidy r w) (hx : w.get? x = some n) (hroot : x ∉ w.roots) :
    ∃ p k, n.parent = some p ∧ w.get? p = some k ∧ ∃ i ∈ k.inputs, x ∈ i.slot.owned := by
  cases hp : n.parent with
  | none =>
    exact absurd ((h.forest.mem_roots x).mpr (top_wiring.mpr ⟨n, hx, hp⟩)) hroot
  | some p =>
    have hparent : w.wiring.parent? x = some p := by
      simp [Workspace.parent?, hx, hp]
    obtain ⟨l, hl, hxl⟩ := h.forest.linked.owned_of_parent hparent
    obtain ⟨k, hk, rfl⟩ := get?_of_wiring hl
    obtain ⟨i, hi, hxi⟩ := List.mem_flatMap.mp hxl
    exact ⟨p, k, rfl, hk, i, hi, hxi⟩

/-- What an input asks of its slot. -/
theorem meets (h : Tidy r w) {p : NodeId} {k : Node} (hp : w.get? p = some k) {i : Input}
    (hi : i ∈ k.inputs) : ∃ spec, i.slot.Fits (w.role? r) spec ∧ i.slot.Furnished w.tag? spec := by
  obtain ⟨d, hd, -⟩ := h.conforms.described p k hp
  obtain ⟨a, ha, rfl⟩ := List.getElem_of_mem hi
  have hfits := h.conforms.slots p k d hp hd
  have hfurn := h.furnished.slots p k d hp hd
  have ha' : a < (d.shape.inputsFor k.mutation).length := hfits.length_eq ▸ ha
  exact ⟨_, (hfits.get ha' ha).2, (hfurn.get ha' ha).2⟩

theorem shadow_iff (h : Tidy r w) (hx : w.get? x = some n) :
    n.shadow = true ↔ ∃ p k name child, w.get? p = some k ∧
      (⟨name, .value child (some x)⟩ : Input) ∈ k.inputs := by
  have htag : w.tag? x = some ⟨n.kind, n.shadow⟩ := by simp [tag?, hx]
  constructor
  · intro hs
    have hreal : ¬ (w.tag? x).any (fun t => t.shadow) = false := by simp [htag, hs]
    obtain ⟨p, k, -, hk, i, hi, hxi⟩ := h.input_of_not_root hx fun hr =>
      hreal (h.furnished.roots x hr)
    obtain ⟨spec, -, hfurn⟩ := h.meets hk hi
    obtain ⟨name, slot⟩ := i
    cases slot with
    | statements cs =>
      cases spec with
      | value _ _ _ => exact hfurn.elim
      | statement _ => exact absurd (hfurn x hxi) hreal
    | value child shadow =>
      cases spec with
      | statement _ => exact hfurn.elim
      | value _ _ default =>
        rcases List.mem_append.mp hxi with hc | hc
        · exact absurd (hfurn.1 x (Option.mem_toList.mp hc)) hreal
        · rw [Option.mem_toList] at hc
          exact ⟨p, k, name, child, hk, hc ▸ hi⟩
  · rintro ⟨p, k, name, child, hk, hi⟩
    obtain ⟨spec, -, hfurn⟩ := h.meets hk hi
    cases spec with
    | statement _ => exact hfurn.elim
    | value _ _ default =>
      cases default with
      | none => cases hfurn.2
      | some s =>
        have := Option.some.inj hfurn.2
        rw [htag, Option.some.injEq] at this
        exact congrArg Tag.shadow this

theorem top_level (h : Tidy r w) (hx : w.role? r x = some .root ∨ w.role? r x = some .helper) :
    x ∈ w.roots := by
  obtain ⟨n, hn⟩ : ∃ n, w.get? x = some n := by
    cases hn : w.get? x with
    | none => simp [role?, hn] at hx
    | some n => exact ⟨n, rfl⟩
  by_contra hroot
  obtain ⟨p, k, -, hk, i, hi, hxi⟩ := h.input_of_not_root hn hroot
  obtain ⟨spec, hfits, -⟩ := h.meets hk hi
  obtain ⟨name, slot⟩ := i
  cases spec <;> cases slot
  · have := hfits x hxi
    rcases hx with hx | hx <;> simp [hx, Role.isValue] at this
  · exact hfits
  · exact hfits
  · have := hfits x hxi
    rcases hx with hx | hx <;> simp [hx] at this

theorem wellFormed (h : Tidy r w) : WellFormed r w where
  stored := h.conforms.stored
  roots_nodup := h.forest.roots_nodup
  roots_top := fun _ hx => h.forest.root_there hx
  owned_once := by
    intro x n hx hroot
    obtain ⟨p, k, hp, hk, i, hi, hxi⟩ := h.input_of_not_root hx hroot
    have hown : x ∈ k.owned := List.mem_flatMap.mpr ⟨i, hi, hxi⟩
    refine ⟨p, k, hp, hk, ?_, fun q m hq hm => ?_⟩
    · exact List.count_eq_one_of_mem (h.forest.linked.owned_nodup (wiring_of_get? hk)) hown
    · exact h.forest.linked.owner_unique (wiring_of_get? hq) (wiring_of_get? hk) hm hown
  owned_there := by
    intro p k x hk hx
    obtain ⟨l, hl, hlp⟩ := h.forest.linked.owned_there (wiring_of_get? hk) hx
    obtain ⟨n, hn, rfl⟩ := get?_of_wiring hl
    exact ⟨n, hn, hlp⟩
  chain := by
    intro x n hx
    have hc := chain_ancestors h.forest.linked hx
    exact ⟨_, hc, (h.forest.mem_roots _).mpr (hc.mem_top_iff.mpr rfl).2⟩
  inputs := by
    intro x n hx
    obtain ⟨d, hd, hmut, -⟩ := h.conforms.described x n hx
    refine ⟨d, hd, hmut, ?_⟩
    have hfits := h.conforms.slots x n d hx hd
    have hfurn := h.furnished.slots x n d hx hd
    exact hfits.mp (fun spec i hs hf => ⟨hf.1, hs.2, hf.2⟩) hfurn
  shadow_iff := fun _ _ hx => h.shadow_iff hx
  top_level := fun _ hx => h.top_level hx
  fields := by
    intro x n d hx hd
    obtain ⟨d', hd', -, hadm⟩ := h.conforms.described x n hx
    rw [hd, Option.some.injEq] at hd'
    exact hd' ▸ hadm

end Tidy

namespace WellFormed

variable {r : Registry} {w : Workspace}

/-- A node with a parent is no root, so its parent owns it once. -/
theorem owner {x p : NodeId} {n : Node} (h : WellFormed r w) (hx : w.get? x = some n)
    (hp : n.parent = some p) : ∃ k, w.get? p = some k ∧ k.owned.count x = 1 := by
  have hroot : x ∉ w.roots := by
    intro hroot
    obtain ⟨n', hn', htop⟩ := h.roots_top x hroot
    obtain rfl : n' = n := Option.some.inj (hn'.symm.trans hx)
    cases htop.symm.trans hp
  obtain ⟨p', k, hp', hk, hcount, -⟩ := h.owned_once x n hx hroot
  obtain rfl : p' = p := Option.some.inj (hp'.symm.trans hp)
  exact ⟨k, hk, hcount⟩

theorem linked (h : WellFormed r w) : w.wiring.Linked where
  owned_nodup := by
    intro p l hl
    obtain ⟨k, hk, rfl⟩ := Workspace.get?_of_wiring hl
    refine List.nodup_iff_count_le_one.mpr fun x => ?_
    show k.owned.count x ≤ 1
    by_cases hx : x ∈ k.owned
    · obtain ⟨n, hn, hp⟩ := h.owned_there p k x hk hx
      obtain ⟨k', hk', hcount⟩ := h.owner hn hp
      obtain rfl : k' = k := Option.some.inj (hk'.symm.trans hk)
      exact Nat.le_of_eq hcount
    · rw [List.count_eq_zero_of_not_mem hx]
      exact Nat.zero_le 1
  parent_of_owned := by
    intro p l x hl hx
    obtain ⟨k, hk, rfl⟩ := Workspace.get?_of_wiring hl
    obtain ⟨n, hn, hp⟩ := h.owned_there p k x hk hx
    exact parent?_eq_some.mpr ⟨n.link, Workspace.wiring_of_get? hn, hp⟩
  owned_of_parent := by
    intro x p hp
    obtain ⟨l, hl, hlp⟩ := parent?_eq_some.mp hp
    obtain ⟨n, hn, rfl⟩ := Workspace.get?_of_wiring hl
    obtain ⟨k, hk, hcount⟩ := h.owner hn hlp
    have hmem : x ∈ k.owned := List.count_pos_iff.mp (hcount ▸ Nat.one_pos)
    exact ⟨k.link, Workspace.wiring_of_get? hk, hmem⟩
  chain := by
    intro x l hl
    obtain ⟨n, hn, rfl⟩ := Workspace.get?_of_wiring hl
    obtain ⟨as, has, -⟩ := h.chain x n hn
    exact ⟨as, has⟩

theorem forest (h : WellFormed r w) : Forest w where
  linked := h.linked
  roots_nodup := h.roots_nodup
  top_iff := by
    intro x
    rw [Workspace.top_wiring]
    constructor
    · rintro ⟨n, hn, hp⟩
      refine .inl (by_contra fun hroot => ?_)
      obtain ⟨p, -, hp', -⟩ := h.owned_once x n hn hroot
      cases hp.symm.trans hp'
    · rintro (hroot | hx)
      · exact h.roots_top x hroot
      · cases hx
  apart := by simp

theorem slots (h : WellFormed r w) :
    w.Slots r fun spec s => s.Fits (w.role? r) spec ∧ s.Furnished w.tag? spec := by
  intro x n d hx hd
  obtain ⟨d', hd', -, hlaid⟩ := h.inputs x n hx
  obtain rfl : d' = d := Option.some.inj (hd'.symm.trans hd)
  exact hlaid

/-- A root is no default: it would stand in a slot, and name its owner. -/
theorem tag?_root (h : WellFormed r w) {x : NodeId} (hroot : x ∈ w.roots) :
    (w.tag? x).any (fun t => t.shadow) = false := by
  obtain ⟨n, hn, htop⟩ := h.roots_top x hroot
  rw [Workspace.tag?, hn, Option.map_some, Option.any_some, Bool.eq_false_iff]
  intro hflag
  obtain ⟨p, k, name, child, hk, hi⟩ := (h.shadow_iff x n hn).mp hflag
  have howned : x ∈ k.owned := List.mem_flatMap.mpr ⟨_, hi, by simp [Slot.owned]⟩
  obtain ⟨n', hn', hp⟩ := h.owned_there p k x hk howned
  obtain rfl : n' = n := Option.some.inj (hn'.symm.trans hn)
  cases htop.symm.trans hp

/-- A well-formed workspace is tidy. -/
theorem tidy (h : WellFormed r w) : Tidy r w where
  forest := h.forest
  conforms := by
    refine ⟨h.stored, fun x n hx => ?_, h.slots.mono fun _ _ _ _ _ _ hs => hs.1⟩
    obtain ⟨d, hd, hmut, -⟩ := h.inputs x n hx
    exact ⟨d, hd, hmut, h.fields x n d hx hd⟩
  furnished := ⟨h.slots.mono fun _ _ _ _ _ _ hs => hs.2, fun _ => h.tag?_root⟩

end WellFormed

/-! ## Histories -/

/-- A change of a workspace: an edit, or the rules applied. -/
inductive Change where
  | edit (e : Edit)
  | normalize (rules : Rules)

namespace Change

/-- The workspace after a change, which may have been refused. -/
def run (r : Registry) (w : Workspace) : Change → Workspace
  | edit e => (e.run r w).workspace
  | normalize rules => (rules.normalize w).workspace

/-- The workspace after a change, as far as counts go. The rules make no nodes and count no
branches. -/
def run? (r : Registry) (w : Workspace) : Change → Option Workspace
  | edit e => (e.run? r w).map (·.workspace)
  | normalize rules => some (rules.normalize w).workspace

theorem run_of_run? {r : Registry} {w v : Workspace} {c : Change} (h : c.run? r w = some v) :
    c.run r w = v := by
  cases c with
  | normalize rules => exact Option.some.inj h
  | edit e =>
    obtain ⟨done, hdone, rfl⟩ := Option.map_eq_some_iff.mp h
    exact congrArg Edited.workspace (Edit.run?_eq_some.mp hdone).2.2

/-- A change is regular unless it takes over a document or connects a node to the input where it
already is the child. -/
def Regular (w : Workspace) : Change → Prop
  | edit (.load _) => False
  | edit (.connectValue parent input child) => w.child? parent input ≠ some child
  | _ => True

end Change

/-- The workspaces that regular changes make of the empty one. -/
inductive History (r : Registry) : Workspace → Prop
  | start : History r {}
  | step {w v : Workspace} (c : Change) :
      History r w → c.Regular w → c.run? r w = some v → History r v

/-- One more change. That its counts hold is found out by running it. -/
theorem History.change {r : Registry} {w : Workspace} (c : Change) (h : History r w)
    (hc : c.Regular w) (hcounts : (c.run? r w).isSome = true := by decide +kernel) :
    History r (c.run r w) := by
  obtain ⟨v, hv⟩ := Option.isSome_iff_exists.mp hcounts
  rw [Change.run_of_run? hv]
  exact .step c h hc hv

theorem Tidy.createNamed {r : Registry} {w : Workspace} (hr : r.Sound) (h : Tidy r w) (name : String)
    (fields : List (String × FieldValue)) (mutation : Option Mutation) :
    Tidy r (Edit.createNamed w r name fields mutation).workspace := by
  unfold Edit.createNamed
  split
  · exact h
  · exact h.create hr _

/-- One regular change keeps a tidy workspace. -/
theorem Tidy.change {r : Registry} {w : Workspace} (hr : r.Sound) (h : Tidy r w) (c : Change)
    (hc : c.Regular w) : Tidy r (c.run r w) := by
  cases c with
  | normalize rules => exact h.normalize rules
  | edit e =>
    cases e with
    | create kind fields mutation => exact h.createNamed hr kind fields mutation
    | connectValue parent input child => exact h.connectValue hc
    | pushStatement parent input child => exact h.pushStatement
    | insertStatement parent input place child => exact h.insertStatement
    | detach node => exact h.detach node
    | delete node => exact h.delete node
    | setField node field value => exact h.setField
    | addBranch node => exact h.addBranch hr
    | removeBranch node index => exact h.removeBranch hr
    | addElse node => exact h.addElse hr
    | removeElse node => exact h.removeElse hr
    | reshape node target => exact h.reshape hr
    | load document => exact hc.elim

theorem History.tidy {r : Registry} {w : Workspace} (hr : r.Sound) (h : History r w) :
    Tidy r w := by
  induction h with
  | start => exact .empty
  | step c _ hc hrun ih =>
    rw [← Change.run_of_run? hrun]
    exact ih.change hr c hc

/-- Whatever regular changes were made, successful or refused, and as long as ids and counts last,
with the built-in catalogue the workspace is well formed. -/
theorem wellFormed_of_history {w : Workspace} (h : History .builtin w) :
    WellFormed .builtin w :=
  (h.tidy Registry.sound_builtin).wellFormed

/-- A conditional takes a second branch, a comparison becomes its condition, a branch that is not
there is to be removed, and the rules are applied. -/
theorem wellFormed_of_history_conditional :
    ∃ w, History .builtin w ∧ w.roots = [0] ∧ w.nodes.keys = [0, 1, 3, 4, 5, 6] ∧
      WellFormed .builtin w := by
  have h1 : History .builtin _ :=
    .change (.edit (.create "if_else" [] none)) .start trivial
  have h2 := h1.change (.edit (.addBranch 0)) trivial
  have h3 := h2.change (.edit (.create "logic_compare" [] none)) trivial
  have h4 := h3.change (.edit (.connectValue 0 "IF1" 4))
    (show Workspace.child? _ 0 "IF1" ≠ some 4 by decide +kernel)
  have h5 := h4.change (.edit (.removeBranch 0 7)) trivial
  have h6 := h5.change (.normalize .standard) trivial
  exact ⟨_, h6, by decide +kernel, by decide +kernel, wellFormed_of_history h6⟩

end BlockText

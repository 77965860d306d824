import BlockText.Proofs.Forest
import BlockText.Workspace.Build
import Mathlib.Data.List.Forall2

/-!
# Shapes and defaults

Beside its links a workspace has to follow the shapes of its registry. Two conditions are kept apart.
A workspace conforms when every node is stored under its id, has the fields and the inputs of its
shape, and its slots hold nodes of the right role. It is furnished when the slots hold the defaults
that the shapes declare, and the nodes flagged as defaults are exactly these. Both are conditions on
single slots, given the kinds of the nodes in them; so one lemma for each change of a workspace
serves both.
-/

namespace BlockText

/-! ## What single slots ask for -/

/-- What a slot asks of a node: its kind, and whether it is flagged as a default. -/
structure Tag where
  kind : Kind
  shadow : Bool

namespace Slot

/-- A slot is of the declared sort, and the nodes in it are of the role that it takes. -/
def Fits (role? : NodeId → Option Role) : InputSpec → Slot → Prop
  | .value _ _ _, .value child shadow =>
    ∀ c ∈ child.toList ++ shadow.toList, (role? c).any Role.isValue = true
  | .statement _, .statements children => ∀ c ∈ children, role? c = some .statement
  | _, _ => False

/-- A slot holds the declared default, and its other nodes are no defaults. -/
def Furnished (tag? : NodeId → Option Tag) : InputSpec → Slot → Prop
  | .value _ _ default, .value child shadow =>
    (∀ c ∈ child, (tag? c).any (fun t => t.shadow) = false) ∧
      shadow.map tag? = default.map fun d => some ⟨d.kind, true⟩
  | .statement _, .statements children =>
    ∀ c ∈ children, (tag? c).any (fun t => t.shadow) = false
  | _, _ => False

variable {role? role?' : NodeId → Option Role} {tag? tag?' : NodeId → Option Tag}
  {spec : InputSpec} {s : Slot} {c : NodeId}

theorem Fits.congr (h : s.Fits role? spec) (hr : ∀ c ∈ s.owned, role?' c = role? c) :
    s.Fits role?' spec := by
  cases spec <;> cases s
  · intro c hc
    rw [hr c hc]
    exact h c hc
  · exact h
  · exact h
  · intro c hc
    rw [hr c hc]
    exact h c hc

theorem Furnished.congr (h : s.Furnished tag? spec) (ht : ∀ c ∈ s.owned, tag?' c = tag? c) :
    s.Furnished tag?' spec := by
  cases spec with
  | value name check default =>
    cases s with
    | value child shadow =>
      refine ⟨fun c hc => ?_, ?_⟩
      · rw [ht c (by simp [owned, Option.mem_def.mp hc])]
        exact h.1 c hc
      · rw [← h.2]
        cases shadow with
        | none => rfl
        | some x => simp [ht x (by simp [owned])]
    | statements children => exact h
  | statement name =>
    cases s with
    | value child shadow => exact h
    | statements children =>
      intro c hc
      rw [ht c hc]
      exact h c hc

/-! ### Changes of a slot -/

open Workspace

theorem Fits.drop (h : s.Fits role? spec) (c : NodeId) :
    (dropFromSlot c s).Fits role? spec := by
  have hsub : ∀ x ∈ (dropFromSlot c s).owned, x ∈ s.owned := by
    intro x hx
    rw [owned_dropFromSlot] at hx
    exact List.mem_of_mem_filter hx
  cases spec <;> cases s
  · exact fun x hx => h x (hsub x hx)
  · exact h
  · exact h
  · exact fun x hx => h x (hsub x hx)

/-- A node that is no default is in no slot as the default. -/
theorem Furnished.drop (h : s.Furnished tag? spec) (hc : (tag? c).any (fun t => t.shadow) = false) :
    (dropFromSlot c s).Furnished tag? spec := by
  cases spec with
  | value name check default =>
    cases s with
    | value child shadow =>
      obtain ⟨hchild, hshadow⟩ := h
      have hne : shadow ≠ some c := by
        rintro rfl
        cases default with
        | none => cases hshadow
        | some d =>
          rw [Option.map_some, Option.map_some, Option.some.injEq] at hshadow
          simp [hshadow] at hc
      refine ⟨fun x hx => hchild x ?_, ?_⟩
      · split at hx
        · cases hx
        · exact hx
      · rw [if_neg hne]
        exact hshadow
    | statements children => exact h
  | statement name =>
    cases s with
    | value child shadow => exact h
    | statements children => exact fun x hx => h x (List.mem_of_mem_filter hx)

theorem Fits.child (h : s.Fits role? spec) (hc : (role? c).any Role.isValue = true) :
    (childInSlot c s).Fits role? spec := by
  cases spec <;> cases s
  · intro x hx
    rcases List.mem_append.mp hx with hx | hx
    · rw [Option.toList_some, List.mem_singleton] at hx
      rw [hx]
      exact hc
    · exact h x (List.mem_append_right _ hx)
  · exact h
  · exact h
  · exact h

theorem Furnished.child (h : s.Furnished tag? spec)
    (hc : (tag? c).any (fun t => t.shadow) = false) : (childInSlot c s).Furnished tag? spec := by
  cases spec <;> cases s
  · refine ⟨fun x hx => ?_, h.2⟩
    cases hx
    exact hc
  · exact h
  · exact h
  · exact h

theorem Fits.statement (h : s.Fits role? spec) (hc : role? c = some .statement) (place : Nat) :
    (statementInSlot place c s).Fits role? spec := by
  cases spec <;> cases s
  · exact h
  · exact h
  · exact h
  · intro x hx
    rcases List.eq_or_mem_of_mem_insertIdx hx with rfl | hx
    · exact hc
    · exact h x hx

theorem Furnished.statement (h : s.Furnished tag? spec)
    (hc : (tag? c).any (fun t => t.shadow) = false) (place : Nat) :
    (statementInSlot place c s).Furnished tag? spec := by
  cases spec <;> cases s
  · exact h
  · exact h
  · exact h
  · intro x hx
    rcases List.eq_or_mem_of_mem_insertIdx hx with rfl | hx
    · exact hc
    · exact h x hx

end Slot

/-! ## Workspaces -/

/-- A map of fields holds exactly the fields of a shape, with values that they accept. -/
def Shape.Admits (s : Shape) (fields : SortedMap String FieldValue) : Prop :=
  ∀ name, match s.field? name with
    | some spec => ∃ v, fields.get? name = some v ∧ spec.accepts v = true
    | none => fields.get? name = none

/-- The inputs of a layout, in slots that meet a condition. -/
abbrev Laid (P : InputSpec → Slot → Prop) : List InputSpec → List Input → Prop :=
  List.Forall₂ fun spec i => i.name = spec.name ∧ P spec i.slot

theorem Laid.mono {P Q : InputSpec → Slot → Prop} {specs : List InputSpec} {inputs : List Input}
    (h : Laid P specs inputs) (hPQ : ∀ i ∈ inputs, ∀ spec, P spec i.slot → Q spec i.slot) :
    Laid Q specs inputs := by
  induction h with
  | nil => exact .nil
  | cons hi _ ih =>
    exact .cons ⟨hi.1, hPQ _ List.mem_cons_self _ hi.2⟩
      (ih fun i hi => hPQ i (List.mem_cons_of_mem _ hi))

/-- An input of a layout, with what declares it. -/
theorem Laid.of_mem {P : InputSpec → Slot → Prop} {specs : List InputSpec} {inputs : List Input}
    (h : Laid P specs inputs) {i : Input} (hi : i ∈ inputs) :
    ∃ spec ∈ specs, spec.name = i.name ∧ P spec i.slot := by
  obtain ⟨k, hk, rfl⟩ := List.getElem_of_mem hi
  have hk' : k < specs.length := h.length_eq ▸ hk
  have hget := h.get hk' hk
  exact ⟨_, List.getElem_mem hk', hget.1.symm, hget.2⟩

theorem Laid.updateSlot {P : InputSpec → Slot → Prop} {specs : List InputSpec}
    {inputs : List Input} {input : String} {f : Slot → Slot} (h : Laid P specs inputs)
    (hP : ∀ spec ∈ specs, spec.name = input → ∀ s, P spec s → P spec (f s)) :
    Laid P specs (Node.updateSlot input f inputs) := by
  induction h with
  | nil => exact .nil
  | cons hi h ih =>
    unfold Node.updateSlot
    split
    · next hname =>
      have hname := hi.1.symm.trans (eq_of_beq hname)
      exact .cons ⟨hi.1, hP _ List.mem_cons_self hname _ hi.2⟩ h
    · exact .cons hi (ih fun spec hs => hP spec (List.mem_cons_of_mem _ hs))

namespace Workspace

/-- The role of a node. -/
def role? (w : Workspace) (r : Registry) (x : NodeId) : Option Role :=
  (w.get? x).bind fun n => (r.find? n.kind).map (·.shape.role)

/-- The tag of a node. -/
def tag? (w : Workspace) (x : NodeId) : Option Tag := (w.get? x).map fun n => ⟨n.kind, n.shadow⟩

/-- Every node has the inputs of its shape, and their slots meet a condition. -/
def Slots (w : Workspace) (r : Registry) (P : InputSpec → Slot → Prop) : Prop :=
  ∀ x n d, w.get? x = some n → r.find? n.kind = some d →
    Laid P (d.shape.inputsFor n.mutation) n.inputs

end Workspace

/-- Every node is stored under its id, below the next one; it is of a kind that is defined, with a
mutation if its shape takes one, with the fields and the inputs of its shape and with nodes of the
right role in its slots. -/
structure Conforms (r : Registry) (w : Workspace) : Prop where
  stored : ∀ x n, w.get? x = some n → n.id = x ∧ x < w.nextId
  described : ∀ x n, w.get? x = some n → ∃ d, r.find? n.kind = some d ∧
    n.mutation.isSome = d.shape.isBranching ∧ d.shape.Admits n.fields
  slots : w.Slots r (Slot.Fits (w.role? r))

/-- Every slot holds its default, and a node flagged as a default is one. -/
structure Furnished (r : Registry) (w : Workspace) : Prop where
  slots : w.Slots r (Slot.Furnished w.tag?)
  roots : ∀ x ∈ w.roots, (w.tag? x).any (fun t => t.shadow) = false

/-! ## Changes that keep the nodes -/

/-- Two nodes differ in their links and in why they are left out, at most. -/
structure Node.Alike (m n : Node) : Prop where
  id : m.id = n.id
  kind : m.kind = n.kind
  fields : m.fields = n.fields
  mutation : m.mutation = n.mutation
  shadow : m.shadow = n.shadow

theorem Node.Alike.refl (n : Node) : n.Alike n := ⟨rfl, rfl, rfl, rfl, rfl⟩

theorem Node.Alike.trans {k m n : Node} (h : k.Alike m) (h' : m.Alike n) : k.Alike n :=
  ⟨h.id.trans h'.id, h.kind.trans h'.kind, h.fields.trans h'.fields,
    h.mutation.trans h'.mutation, h.shadow.trans h'.shadow⟩

/-- Every node of `v` was a node of `w`, apart from its links and from why it is left out. -/
def Keeps (w v : Workspace) : Prop :=
  ∀ x m, v.get? x = some m → ∃ n, w.get? x = some n ∧ m.Alike n

namespace Keeps

variable {u v w : Workspace} {x : NodeId}

theorem trans (huv : Keeps u v) (hvw : Keeps v w) : Keeps u w := by
  intro x m hx
  obtain ⟨n, hn, ha⟩ := hvw x m hx
  obtain ⟨k, hk, ha'⟩ := huv x n hn
  exact ⟨k, hk, ha.trans ha'⟩

theorem role? (h : Keeps w v) {m : Node} (hx : v.get? x = some m) (r : Registry) :
    v.role? r x = w.role? r x := by
  obtain ⟨n, hn, ha⟩ := h x m hx
  simp [Workspace.role?, hx, hn, ha.kind]

theorem tag? (h : Keeps w v) {m : Node} (hx : v.get? x = some m) : v.tag? x = w.tag? x := by
  obtain ⟨n, hn, ha⟩ := h x m hx
  simp [Workspace.tag?, hx, hn, ha.kind, ha.shadow]

theorem update {f : Node → Node} (hf : ∀ n, (f n).Alike n) (id : NodeId) :
    Keeps w (w.update id f) := by
  intro x m hx
  rw [Workspace.get?_update] at hx
  split at hx
  · next he =>
    obtain ⟨n, hn, rfl⟩ := Option.map_eq_some_iff.mp hx
    exact ⟨n, he ▸ hn, hf n⟩
  · exact ⟨m, hx, .refl m⟩

theorem unlink (h : w.wiring.Linked) (c : NodeId) : Keeps w (w.unlink c) := by
  intro x m hx
  rw [Workspace.get?_unlink h] at hx
  obtain ⟨n, hn, rfl⟩ := Option.map_eq_some_iff.mp hx
  exact ⟨n, hn, rfl, rfl, rfl, rfl, rfl⟩

theorem remove (ids : List NodeId) : Keeps w (w.remove ids) := by
  intro x m hx
  rw [Workspace.get?_remove] at hx
  split at hx
  · cases hx
  · exact ⟨m, hx, .refl m⟩

theorem place (p c : NodeId) (input : String) (f : Slot → Slot) :
    Keeps w ((w.update p fun n => n.withSlot input f).update c fun n =>
      { n with parent := some p }) := by
  have h1 : Keeps w (w.update p fun n => n.withSlot input f) :=
    update (f := fun n => n.withSlot input f) (fun _ => ⟨rfl, rfl, rfl, rfl, rfl⟩) p
  exact h1.trans (update (f := fun n => { n with parent := some p })
    (fun _ => ⟨rfl, rfl, rfl, rfl, rfl⟩) c)

end Keeps

namespace Workspace.Slots

variable {r : Registry} {w v : Workspace} {P Q : InputSpec → Slot → Prop}

/-- What is said of the slots of a workspace may use that they are its slots. -/
theorem mono (h : w.Slots r P)
    (hPQ : ∀ x n, w.get? x = some n → ∀ i ∈ n.inputs, ∀ spec, P spec i.slot → Q spec i.slot) :
    w.Slots r Q := by
  intro x n d hx hd
  exact (h x n d hx hd).mono (hPQ x n hx)

/-- The slots of one node after another: each node of `v` was one of `w`, and what its slots hold
now follows from what they held. -/
theorem keeps (h : w.Slots r P) (hk : ∀ x m, v.get? x = some m → ∃ n, w.get? x = some n ∧
      m.kind = n.kind ∧ m.mutation = n.mutation ∧ ∀ specs : List InputSpec,
        Laid P specs n.inputs → Laid Q specs m.inputs) :
    v.Slots r Q := by
  intro x m d hx hd
  obtain ⟨n, hn, hkind, hmut, hslots⟩ := hk x m hx
  rw [hmut]
  exact hslots _ (h x n d hn (hkind ▸ hd))

/-- The condition on the slot of one input. -/
theorem of_mem (h : w.Slots r P) {x : NodeId} {n : Node} {d : Definition} (hx : w.get? x = some n)
    (hd : r.find? n.kind = some d) {i : Input} (hi : i ∈ n.inputs) :
    ∃ spec ∈ d.shape.inputsFor n.mutation, spec.name = i.name ∧ P spec i.slot :=
  (h x n d hx hd).of_mem hi

/-- The condition on one slot. -/
theorem of_slot? (h : w.Slots r P) {x : NodeId} {n : Node} {d : Definition} {input : String}
    {s : Slot} (hx : w.get? x = some n) (hd : r.find? n.kind = some d)
    (hs : n.slot? input = some s) :
    ∃ spec ∈ d.shape.inputsFor n.mutation, spec.name = input ∧ P spec s := by
  obtain ⟨i, hi, hname, rfl⟩ := Node.slot?_mem hs
  obtain ⟨spec, hspec, hsname, hP⟩ := h.of_mem hx hd hi
  exact ⟨spec, hspec, hsname.trans hname, hP⟩

theorem unlink (h : w.Slots r P) (hl : w.wiring.Linked) {c : NodeId}
    (hP : ∀ spec s, P spec s → P spec (dropFromSlot c s)) : (w.unlink c).Slots r P := by
  refine h.keeps fun x m hx => ?_
  rw [get?_unlink hl] at hx
  obtain ⟨n, hn, rfl⟩ := Option.map_eq_some_iff.mp hx
  refine ⟨n, hn, rfl, rfl, fun specs hf => ?_⟩
  exact List.forall₂_map_right_iff.mpr (hf.imp fun spec i hi => ⟨hi.1, hP _ _ hi.2⟩)

theorem remove (h : w.Slots r P) (ids : List NodeId) : (w.remove ids).Slots r P := by
  refine h.keeps fun x m hx => ?_
  rw [get?_remove] at hx
  split at hx
  · cases hx
  · exact ⟨m, hx, rfl, rfl, fun _ => id⟩

theorem update (h : w.Slots r P) (y : NodeId) {f : Node → Node}
    (hf : ∀ n, (f n).kind = n.kind ∧ (f n).mutation = n.mutation ∧ (f n).inputs = n.inputs) :
    (w.update y f).Slots r P := by
  refine h.keeps fun x m hx => ?_
  rw [get?_update] at hx
  split at hx
  · next he =>
    obtain ⟨n, hn, rfl⟩ := Option.map_eq_some_iff.mp hx
    refine ⟨n, he ▸ hn, (hf n).1, (hf n).2.1, fun specs hs => ?_⟩
    rw [(hf n).2.2]
    exact hs
  · exact ⟨m, hx, rfl, rfl, fun _ => id⟩

theorem withSlot (h : w.Slots r P) (y : NodeId) {input : String} {f : Slot → Slot}
    (hP : ∀ n d, w.get? y = some n → r.find? n.kind = some d →
      ∀ spec ∈ d.shape.inputsFor n.mutation, spec.name = input → ∀ s, P spec s → P spec (f s)) :
    (w.update y fun n => n.withSlot input f).Slots r P := by
  intro x m d hx hd
  rw [get?_update] at hx
  split at hx
  · next he =>
    subst he
    obtain ⟨n, hn, rfl⟩ := Option.map_eq_some_iff.mp hx
    exact (h x n d hn hd).updateSlot (hP n d hn hd)
  · exact h x m d hx hd

theorem place (h : w.Slots r P) (p c : NodeId) {input : String} {f : Slot → Slot}
    (hP : ∀ spec s, P spec s → P spec (f s)) :
    ((w.update p fun n => n.withSlot input f).update c fun n =>
      { n with parent := some p }).Slots r P :=
  (h.withSlot p fun _ _ _ _ spec _ _ s => hP spec s).update c fun _ => ⟨rfl, rfl, rfl⟩

end Workspace.Slots

namespace Conforms

variable {r : Registry} {w v : Workspace}

/-- A linked workspace of nodes that were there before conforms, if its slots hold what fitted
them before. -/
theorem keeps (h : Conforms r w) (hk : Keeps w v) (hl : v.wiring.Linked)
    (hn : w.nextId ≤ v.nextId) (hs : v.Slots r (Slot.Fits (w.role? r))) : Conforms r v where
  stored := by
    intro x m hx
    obtain ⟨n, hx', ha⟩ := hk x m hx
    obtain ⟨hid, hlt⟩ := h.stored x n hx'
    exact ⟨ha.id.trans hid, Nat.lt_of_lt_of_le hlt hn⟩
  described := by
    intro x m hx
    obtain ⟨n, hx', ha⟩ := hk x m hx
    rw [ha.kind, ha.mutation, ha.fields]
    exact h.described x n hx'
  slots := by
    refine hs.mono fun x n hx i hi spec hfits => hfits.congr fun c hc => ?_
    obtain ⟨l, hl, -⟩ := hl.owned_there (Workspace.wiring_of_get? hx)
      (List.mem_flatMap.mpr ⟨i, hi, hc⟩)
    obtain ⟨m, hm, -⟩ := Workspace.get?_of_wiring hl
    exact hk.role? hm r

theorem unlink (h : Conforms r w) (hl : w.wiring.Linked) (c : NodeId) :
    Conforms r (w.unlink c) := by
  refine h.keeps (.unlink hl c) (Workspace.linked_unlink hl c) (by simp) ?_
  exact h.slots.unlink hl fun spec s hs => hs.drop c

theorem remove (h : Conforms r w) {ids : List NodeId} (hl : (w.remove ids).wiring.Linked) :
    Conforms r (w.remove ids) :=
  h.keeps (.remove ids) hl (by simp) (h.slots.remove ids)

end Conforms

namespace Furnished

variable {r : Registry} {w v : Workspace} {loose : List NodeId}

/-- A forest of nodes that were there before is furnished, if its slots hold what furnished them
before and its roots were no defaults. -/
theorem keeps (hk : Keeps w v) (hf : Forest v loose)
    (hs : v.Slots r (Slot.Furnished w.tag?))
    (hr : ∀ x ∈ v.roots, (w.tag? x).any (fun t => t.shadow) = false) : Furnished r v where
  slots := by
    refine hs.mono fun x n hx i hi spec hfits => hfits.congr fun c hc => ?_
    obtain ⟨l, hl, -⟩ := hf.linked.owned_there (Workspace.wiring_of_get? hx)
      (List.mem_flatMap.mpr ⟨i, hi, hc⟩)
    obtain ⟨m, hm, -⟩ := Workspace.get?_of_wiring hl
    exact hk.tag? hm
  roots := by
    intro x hx
    obtain ⟨m, hm, -⟩ := hf.root_there hx
    rw [hk.tag? hm]
    exact hr x hx

end Furnished

end BlockText

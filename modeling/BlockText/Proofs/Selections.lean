import BlockText.Proofs.History

/-!
# Selections of the catalogue

A registry need not hold all built-in kinds, and it may hold them in any order. Registering them
fails for a kind that is taken and for no other reason, since every built-in definition passes its
check. What a selection makes of a blueprint the whole catalogue makes of it too, and it is the same
workspace. So what is known of workspaces over the catalogue holds over a selection, as long as the
kinds of all nodes are selected.
-/

namespace BlockText

open Workspace

/-! ## Registering kinds -/

namespace Registry

/-- A registry that holds built-in definitions, one for a kind. -/
structure Selected (r : Registry) : Prop where
  builtin : ∀ d ∈ r.definitions, d = d.kind.definition
  nodup : r.kinds.Nodup

theorem selected_definitions {kinds : List Kind} (h : kinds.Nodup) :
    Selected ⟨kinds.map Kind.definition⟩ where
  builtin := by
    intro d hd
    obtain ⟨k, -, rfl⟩ := List.mem_map.mp hd
    rw [k.kind_definition]
  nodup := by
    have hkinds : kinds.map ((·.kind) ∘ Kind.definition) = kinds.map id :=
      List.map_congr_left fun k _ => k.kind_definition
    show ((kinds.map Kind.definition).map (·.kind)).Nodup
    rw [List.map_map, hkinds, List.map_id]
    exact h

theorem selected_builtin : Registry.builtin.Selected := selected_definitions (by decide)

/-- Every built-in definition can be used. -/
theorem check_definition (k : Kind) : k.definition.check = .ok () := by
  cases k <;> rfl

/-- Kinds that are free and differ are registered one after the other. -/
theorem registerUntil_definitions {kinds : List Kind} {r : Registry}
    (h : (r.kinds ++ kinds).Nodup) : registerUntil (kinds.map Kind.definition) r =
      (⟨r.definitions ++ kinds.map Kind.definition⟩, .ok ()) := by
  induction kinds generalizing r with
  | nil => rw [List.map_nil, List.append_nil, registerUntil]
  | cons k kinds ih =>
    have hfree : r.contains k = false := by
      have hk : k ∉ r.kinds := fun hm =>
        (List.nodup_append'.mp h).2.2 hm List.mem_cons_self
      rw [contains, Option.isSome_eq_false_iff, Option.isNone_iff_eq_none, find?,
        List.find?_eq_none]
      intro d hd hkind
      exact hk (List.mem_map.mpr ⟨d, hd, of_decide_eq_true hkind⟩)
    have hregister : r.register k.definition = .ok ⟨r.definitions ++ [k.definition]⟩ := by
      rw [register, k.kind_definition, hfree, check_definition]
      rfl
    have hnext : ((⟨r.definitions ++ [k.definition]⟩ : Registry).kinds ++ kinds).Nodup := by
      show ((r.definitions ++ [k.definition]).map (·.kind) ++ kinds).Nodup
      rw [List.map_append, List.map_singleton, k.kind_definition, List.append_assoc]
      exact h
    rw [List.map_cons, registerUntil, hregister]
    simp only [ih hnext, List.append_assoc, List.singleton_append]

/-- Different kinds make a registry, in the order in which they are given. -/
theorem ofKinds_of_nodup {kinds : List Kind} (h : kinds.Nodup) :
    ofKinds kinds = .ok ⟨kinds.map Kind.definition⟩ := by
  have hall : registerUntil (kinds.map Kind.definition) empty =
      (⟨kinds.map Kind.definition⟩, .ok ()) := registerUntil_definitions h
  rw [ofKinds, ofDefinitions, hall]

variable {r : Registry}

theorem Selected.exists_kind (hr : r.Selected) {d : Definition} (h : d ∈ r.definitions) :
    ∃ k : Kind, d = k.definition :=
  ⟨d.kind, hr.builtin d h⟩

theorem Selected.find?_eq (hr : r.Selected) {k : Kind} {d : Definition}
    (h : r.find? k = some d) : d = k.definition := by
  have hkind : d.kind = k := by
    simpa using List.find?_some (show r.definitions.find? _ = some d from h)
  rw [hr.builtin d (List.mem_of_find?_eq_some h), hkind]

theorem Selected.length_le (hr : r.Selected) :
    r.definitions.length ≤ Registry.builtin.definitions.length := by
  have hsub := (List.subperm_of_subset hr.nodup fun k _ => k.mem_all).length_le
  rwa [kinds, List.length_map] at hsub

end Registry

/-! ## Making nodes -/

namespace Workspace

variable {r : Registry} {w v : Workspace} {b : Blueprint} {x : NodeId}

/-- Inputs that were built, with one more in front of them. -/
def addInput (i : Input) : Workspace × Except EditError (List Input) →
    Workspace × Except EditError (List Input)
  | (w, .ok inputs) => (w, .ok (i :: inputs))
  | (w, .error e) => (w, .error e)

theorem addInput_ok {i : Input} {built : Workspace × Except EditError (List Input)}
    {inputs : List Input} (h : addInput i built = (v, .ok inputs)) :
    ∃ rest, built = (v, .ok rest) ∧ inputs = i :: rest := by
  obtain ⟨u, result⟩ := built
  cases result with
  | ok rest =>
    cases h
    exact ⟨rest, rfl, rfl⟩
  | error e => cases h

theorem addInput_fst (i : Input) (built : Workspace × Except EditError (List Input)) :
    (addInput i built).1 = built.1 := by
  obtain ⟨u, result⟩ := built
  cases result <;> rfl

/-- Inputs that were built are built the same if the defaults are made the same. -/
theorem buildInputs_mono {make make' : Blueprint → Workspace → Workspace × Except EditError NodeId}
    (hmake : ∀ b w v x, make b w = (v, .ok x) → make' b w = (v, .ok x)) (owner : NodeId)
    {specs : List InputSpec} {inputs : List Input}
    (h : buildInputs make owner specs w = (v, .ok inputs)) :
    buildInputs make' owner specs w = (v, .ok inputs) := by
  induction specs generalizing w v inputs with
  | nil => exact h
  | cons spec specs ih =>
    have hrest {u : Workspace} {i : Input}
        (h : addInput i (buildInputs make owner specs u) = (v, .ok inputs)) :
        addInput i (buildInputs make' owner specs u) = (v, .ok inputs) := by
      obtain ⟨rest, hbuild, rfl⟩ := addInput_ok h
      rw [ih hbuild]
      rfl
    cases spec with
    | statement name => exact hrest h
    | value name check default =>
      cases default with
      | none => exact hrest h
      | some s =>
        rw [buildInputs] at h ⊢
        split at h
        · cases h
        · next u y hy =>
          rw [hmake _ _ _ _ hy]
          exact hrest h

/-- What a selection makes, the whole catalogue makes, with no smaller bound on the depth. -/
theorem makeUpTo_builtin (hr : r.Selected) {depth depth' : Nat} (hd : depth ≤ depth')
    (h : makeUpTo r depth b w = (v, .ok x)) : makeUpTo .builtin depth' b w = (v, .ok x) := by
  induction depth generalizing depth' b w v x with
  | zero => cases h
  | succ depth ih =>
    obtain ⟨depth', rfl⟩ : ∃ n, depth' = n + 1 := ⟨depth' - 1, by omega⟩
    cases hfind : r.find? b.kind with
    | none => simp [makeUpTo, Registry.lookup, hfind] at h
    | some d =>
      obtain rfl := hr.find?_eq hfind
      rw [makeUpTo, Registry.lookup, hfind] at h
      rw [makeUpTo, Registry.lookup, Registry.find?_builtin]
      simp only at h ⊢
      split at h
      · cases h
      · split at h
        · cases h
        · next hbuild =>
          have hle : depth ≤ depth' := Nat.le_of_succ_le_succ hd
          rw [buildInputs_mono (fun b w v x hm => ih hle hm) _ hbuild]
          exact h

theorem make_builtin (hr : r.Selected) (h : w.make r b = (v, .ok x)) :
    w.make .builtin b = (v, .ok x) :=
  makeUpTo_builtin hr (Nat.succ_le_succ hr.length_le) h

/-! ## Workspaces over a selection -/

/-- The kinds of all nodes are in a registry. -/
def Within (w : Workspace) (r : Registry) : Prop :=
  ∀ x n, w.get? x = some n → ∃ d, r.find? n.kind = some d

namespace Within

theorem empty : Within {} r := by
  intro x n hx
  cases hx

theorem update (h : w.Within r) {f : Node → Node} (hf : ∀ n, (f n).kind = n.kind) (id : NodeId) :
    (w.update id f).Within r := by
  intro x m hx
  rw [get?_update] at hx
  split at hx
  · obtain ⟨n, hn, rfl⟩ := Option.map_eq_some_iff.mp hx
    rw [hf]
    exact h id n hn
  · exact h x m hx

theorem remove (h : w.Within r) (ids : List NodeId) : (w.remove ids).Within r := by
  intro x m hx
  rw [get?_remove] at hx
  split at hx
  · cases hx
  · exact h x m hx

theorem put (h : w.Within r) {n : Node} {d : Definition} (hd : r.find? n.kind = some d) :
    (w.put n).Within r := by
  intro x m hx
  rw [get?_put] at hx
  split at hx
  · cases hx
    exact ⟨d, hd⟩
  · exact h x m hx

theorem keeps (h : w.Within r) (hk : Keeps w v) : v.Within r := by
  intro x m hx
  obtain ⟨n, hn, halike⟩ := hk x m hx
  rw [halike.kind]
  exact h x n hn

/-- Building inputs makes nodes of kinds that are there, if making the defaults does. -/
theorem buildInputs {make : Blueprint → Workspace → Workspace × Except EditError NodeId}
    (hmake : ∀ b (w : Workspace), w.Within r → (make b w).1.Within r) (owner : NodeId)
    (specs : List InputSpec) (h : w.Within r) :
    (Workspace.buildInputs make owner specs w).1.Within r := by
  induction specs generalizing w with
  | nil => exact h
  | cons spec specs ih =>
    have hrest {u : Workspace} (hu : u.Within r) (i : Input) :
        (addInput i (Workspace.buildInputs make owner specs u)).1.Within r := by
      rw [addInput_fst]
      exact ih hu
    cases spec with
    | statement name => exact hrest h _
    | value name check default =>
      cases default with
      | none => exact hrest h _
      | some s =>
        have hmade := hmake ⟨s.kind, [(s.field, s.value)], none⟩ w h
        rw [Workspace.buildInputs]
        split
        · next hm => rwa [hm] at hmade
        · next u y hm =>
          rw [hm] at hmade
          exact hrest (hmade.update (f := fun n => { n with parent := some owner, shadow := true })
            (fun _ => rfl) y) _

theorem makeUpTo (h : w.Within r) (depth : Nat) (b : Blueprint) :
    (Workspace.makeUpTo r depth b w).1.Within r := by
  induction depth generalizing w b with
  | zero => exact h
  | succ depth ih =>
    rw [Workspace.makeUpTo, Registry.lookup]
    cases hfind : r.find? b.kind with
    | none => exact h
    | some d =>
      simp only
      split
      · exact h
      · next fields _ =>
        generalize (if d.shape.isBranching = true then some (b.mutation.getD {}) else none) = m
        have hput : (({ w with nextId := w.nextId + 1 } : Workspace).put
            ⟨w.nextId, b.kind, fields, [], none, false, none, m⟩).Within r :=
          put (w := { w with nextId := w.nextId + 1 }) h hfind
        have hbuilt := hput.buildInputs (fun b w hw => ih hw b) w.nextId (d.shape.inputsFor m)
        split
        · next he => rwa [he] at hbuilt
        · next u inputs he =>
          rw [he] at hbuilt
          exact hbuilt.update (f := fun n => { n with inputs := inputs }) (fun _ => rfl) w.nextId

theorem make (h : w.Within r) (hm : w.make r b = (v, .ok x)) : v.Within r := by
  have := h.makeUpTo (r.definitions.length + 1) b
  rwa [show Workspace.makeUpTo r _ b w = _ from hm] at this

end Within

end Workspace

/-- A tidy workspace over the catalogue is tidy over a selection that has its kinds. -/
theorem Tidy.select {r : Registry} {w : Workspace} {loose : List NodeId}
    (h : Tidy .builtin w loose) (hr : r.Selected) (hw : w.Within r) : Tidy r w loose := by
  have hfind {x : NodeId} {n : Node} (hx : w.get? x = some n) :
      r.find? n.kind = some n.kind.definition := by
    obtain ⟨d, hd⟩ := hw x n hx
    rw [hd, hr.find?_eq hd]
  have hrole (x : NodeId) : w.role? r x = w.role? .builtin x := by
    rw [role?, role?]
    cases hx : w.get? x with
    | none => rfl
    | some n => rw [Option.bind_some, Option.bind_some, hfind hx, Registry.find?_builtin]
  have hslots {P : InputSpec → Slot → Prop} (hP : w.Slots .builtin P) : w.Slots r P := by
    intro x n d hx hd
    apply hP x n d hx
    rw [hr.find?_eq hd, Registry.find?_builtin]
  refine ⟨h.forest, ⟨h.conforms.stored, ?_, ?_⟩, hslots h.furnished.slots, h.furnished.roots⟩
  · intro x n hx
    obtain ⟨d, hd, hrest⟩ := h.conforms.described x n hx
    rw [Registry.find?_builtin] at hd
    exact ⟨d, hd ▸ hfind hx, hrest⟩
  · refine (hslots h.conforms.slots).mono fun x n _ i _ spec hfits => hfits.congr fun c _ => ?_
    exact hrole c

end BlockText

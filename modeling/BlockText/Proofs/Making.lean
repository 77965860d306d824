import BlockText.Proofs.Editing

/-!
# Making nodes

In a registry whose defaults are literals that it defines, making a node fails in its fields only.
Then the outcome can be said outright: the node, its inputs empty but for their defaults, and the
default nodes, which take the ids after it in the order of the inputs.
-/

namespace BlockText

/-- In every shape the fields have distinct names and accept their defaults, and each default of an
input is a literal: a value without inputs whose field accepts what it is to hold. -/
structure Registry.Sound (r : Registry) : Prop where
  field_names : ∀ {kind d}, r.find? kind = some d → (d.shape.fields.map (·.name)).Nodup
  accepts_default : ∀ {kind d}, r.find? kind = some d → ∀ f ∈ d.shape.fields,
    f.accepts f.default = true
  literal : ∀ {kind d}, r.find? kind = some d → ∀ m name check s,
    .value name check (some s) ∈ d.shape.inputsFor m → ∃ l, r.find? s.kind = some l ∧
      l.shape.role.isValue = true ∧ l.shape.layout = .fixed [] ∧
      ∃ f, l.shape.field? s.field = some f ∧ f.accepts s.value = true

open Wiring

namespace Workspace

/-! ## Fields -/

theorem get?_foldl_default (fs : List FieldSpec) (hnd : (fs.map (·.name)).Nodup)
    (m : SortedMap String FieldValue) (name : String) :
    ((fs.map fun f => (f.name, f.default)).foldl (fun m e => m.insert e.1 e.2) m).get? name =
      match fs.find? fun f => f.name == name with
      | some f => some f.default
      | none => m.get? name := by
  induction fs generalizing m with
  | nil => rfl
  | cons f fs ih =>
    rw [List.map_cons, List.nodup_cons] at hnd
    rw [List.map_cons, List.foldl_cons, ih hnd.2, List.find?_cons]
    by_cases hf : f.name = name
    · have hnone : (fs.find? fun g => g.name == name) = none := by
        rw [List.find?_eq_none]
        intro g hg hgn
        exact hnd.1 (List.mem_map.mpr ⟨g, hg, (eq_of_beq hgn).trans hf.symm⟩)
      simp [hnone, hf, SortedMap.get?_insert]
    · have hf' : (f.name == name) = false := by simpa using hf
      rw [hf']
      cases fs.find? fun g => g.name == name with
      | some g => rfl
      | none => simp [SortedMap.get?_insert, Ne.symm hf]

theorem admits_defaultFields {r : Registry} (hr : r.Sound) {kind : Kind} {d : Definition}
    (hd : r.find? kind = some d) : d.shape.Admits (defaultFields d.shape) := by
  intro name
  rw [defaultFields, SortedMap.ofList, get?_foldl_default _ (hr.field_names hd), Shape.field?]
  cases hf : d.shape.fields.find? fun f => f.name == name with
  | some f =>
    exact ⟨f.default, rfl, hr.accepts_default hd f (List.mem_of_find?_eq_some hf)⟩
  | none => rfl

theorem admits_fillFields {s : Shape} {id : NodeId} {values : List (String × FieldValue)}
    {fields result : SortedMap String FieldValue} (h : s.Admits fields)
    (hf : fillFields s id values fields = .ok result) : s.Admits result := by
  induction values generalizing fields with
  | nil =>
    cases hf
    exact h
  | cons v values ih =>
    unfold fillFields at hf
    split at hf
    · cases hf
    · next spec hspec =>
      split at hf
      · next hacc => exact ih (Tidy.admits_insert h hspec hacc) hf
      · cases hf

/-! ## Defaults -/

/-- The node of a default. -/
def defaultNode (r : Registry) (owner : NodeId) (s : ShadowSpec) (id : NodeId) : Node :=
  let fields : SortedMap String FieldValue :=
    match r.find? s.kind with
    | some l => (defaultFields l.shape).insert s.field s.value
    | none => .empty
  ⟨id, s.kind, fields, [], some owner, true, none, none⟩

/-- The nodes of the defaults of some inputs, with ids from a first one on. -/
def defaultNodes (r : Registry) (owner : NodeId) : List InputSpec → NodeId → List Node
  | [], _ => []
  | .value _ _ (some s) :: specs, id =>
    defaultNode r owner s id :: defaultNodes r owner specs (id + 1)
  | .value _ _ none :: specs, id => defaultNodes r owner specs id
  | .statement _ :: specs, id => defaultNodes r owner specs id

/-- The inputs with their defaults. -/
def freshInputs : List InputSpec → NodeId → List Input
  | [], _ => []
  | .value name _ (some _) :: specs, id =>
    ⟨name, .value none (some id)⟩ :: freshInputs specs (id + 1)
  | .value name _ none :: specs, id => ⟨name, .value none none⟩ :: freshInputs specs id
  | .statement name :: specs, id => ⟨name, .statements []⟩ :: freshInputs specs id

/-- Puts a node that takes the next id. -/
def add (w : Workspace) (n : Node) : Workspace := { w.put n with nextId := w.nextId + 1 }

/-- Puts nodes that take the next ids. -/
def addAll (w : Workspace) (ns : List Node) : Workspace := ns.foldl add w

/-- A change of a node that was just put is a change of what is put. -/
theorem put_update (w : Workspace) {n : Node} {f : Node → Node} (hf : (f n).id = n.id) :
    (w.put n).update n.id f = w.put (f n) := by
  have hnodes : (w.nodes.insert n.id n).adjust n.id f = w.nodes.insert (f n).id (f n) := by
    refine SortedMap.ext fun x => ?_
    rw [SortedMap.get?_adjust, SortedMap.get?_insert, SortedMap.get?_insert,
      SortedMap.get?_insert, hf, if_pos rfl]
    split <;> rfl
  simp only [put, update, hnodes]

variable {r : Registry}

/-- Making a literal puts one node. -/
theorem makeUpTo_literal {s : ShadowSpec} {l : Definition} {f : FieldSpec} (depth : Nat)
    (w : Workspace) (hl : r.find? s.kind = some l) (hlayout : l.shape.layout = .fixed [])
    (hf : l.shape.field? s.field = some f) (hv : f.accepts s.value = true) (owner : NodeId) :
    ∃ v, makeUpTo r (depth + 1) ⟨s.kind, [(s.field, s.value)], none⟩ w = (v, .ok w.nextId) ∧
      (v.update w.nextId fun n => { n with parent := some owner, shadow := true }) =
        w.add (defaultNode r owner s w.nextId) := by
  have hlookup : r.lookup s.kind = .ok l := by simp [Registry.lookup, hl]
  have hbranching : l.shape.isBranching = false := by simp [Shape.isBranching, hlayout]
  have hspecs : l.shape.inputsFor none = [] := by simp [Shape.inputsFor, hlayout]
  let n : Node := ⟨w.nextId, s.kind, (defaultFields l.shape).insert s.field s.value, [], none,
    false, none, none⟩
  refine ⟨({ w with nextId := w.nextId + 1 }.put n).update n.id fun n => { n with inputs := [] },
    ?_, ?_⟩
  · simp [makeUpTo, hlookup, fillFields, hf, hv, hbranching, hspecs, buildInputs, n]
  · rw [put_update _ rfl, put_update _ rfl]
    simp [add, put, defaultNode, hl, n]

/-- Making a default of a sound registry puts one node. -/
theorem makeUpTo_default (hr : r.Sound) {kind : Kind} {d : Definition}
    (hd : r.find? kind = some d) (m : Option Mutation) (depth : Nat) (owner : NodeId) :
    ∀ name check s, .value name check (some s) ∈ d.shape.inputsFor m → ∀ w, ∃ v,
      makeUpTo r (depth + 1) ⟨s.kind, [(s.field, s.value)], none⟩ w = (v, .ok w.nextId) ∧
        (v.update w.nextId fun n => { n with parent := some owner, shadow := true }) =
          w.add (defaultNode r owner s w.nextId) := by
  intro name check s hs w
  obtain ⟨l, hl, -, hlayout, f, hfield, hv⟩ := hr.literal hd m name check s hs
  exact makeUpTo_literal depth w hl hlayout hfield hv owner

/-- Building inputs puts their defaults. -/
theorem buildInputs_eq {make : Blueprint → Workspace → Workspace × Except EditError NodeId}
    (owner : NodeId) {specs : List InputSpec} (w : Workspace)
    (hmake : ∀ name check s, .value name check (some s) ∈ specs → ∀ w, ∃ v,
      make ⟨s.kind, [(s.field, s.value)], none⟩ w = (v, .ok w.nextId) ∧
        (v.update w.nextId fun n => { n with parent := some owner, shadow := true }) =
          w.add (defaultNode r owner s w.nextId)) :
    buildInputs make owner specs w =
      (w.addAll (defaultNodes r owner specs w.nextId), .ok (freshInputs specs w.nextId)) := by
  induction specs generalizing w with
  | nil => rfl
  | cons spec specs ih =>
    have ih' (w : Workspace) := ih w fun name check s hs =>
      hmake name check s (List.mem_cons_of_mem _ hs)
    cases spec with
    | statement name => simp [buildInputs, ih', defaultNodes, freshInputs]
    | value name check default =>
      cases default with
      | none => simp [buildInputs, ih', defaultNodes, freshInputs]
      | some s =>
        obtain ⟨v, hv, hadd⟩ := hmake name check s List.mem_cons_self w
        simp only [buildInputs, hv, hadd, ih']
        rfl

/-- The node after its inputs were built, with a change that is made at the same time. -/
def furnish (w : Workspace) (r : Registry) (id : NodeId) (specs : List InputSpec) (f : Node → Node) :
    Workspace :=
  (w.addAll (defaultNodes r id specs w.nextId)).update id fun n =>
    { f n with inputs := freshInputs specs w.nextId }

@[simp] theorem nextId_add (w : Workspace) (n : Node) : (w.add n).nextId = w.nextId + 1 := rfl

theorem get?_add (w : Workspace) (n : Node) (x : NodeId) :
    (w.add n).get? x = if x = n.id then some n else w.get? x :=
  w.get?_put n x

theorem get?_addAll {ns : List Node} (hnd : (ns.map (·.id)).Nodup) (w : Workspace) (x : NodeId)
    (m : Node) : (w.addAll ns).get? x = some m ↔
      m ∈ ns ∧ m.id = x ∨ x ∉ ns.map (·.id) ∧ w.get? x = some m := by
  induction ns generalizing w with
  | nil => simp [addAll]
  | cons n ns ih =>
    rw [List.map_cons, List.nodup_cons] at hnd
    show ((w.add n).addAll ns).get? x = some m ↔ _
    rw [ih hnd.2, get?_add, List.map_cons, List.mem_cons, List.mem_cons, not_or]
    by_cases hx : x = n.id
    · subst hx
      constructor
      · rintro (⟨hm, hid⟩ | ⟨-, hm⟩)
        · exact .inl ⟨.inr hm, hid⟩
        · rw [if_pos rfl, Option.some.injEq] at hm
          exact .inl ⟨.inl hm.symm, hm ▸ rfl⟩
      · rintro (⟨rfl | hm, hid⟩ | ⟨⟨hne, -⟩, -⟩)
        · exact .inr ⟨hnd.1, by rw [if_pos rfl]⟩
        · exact .inl ⟨hm, hid⟩
        · exact absurd rfl hne
    · rw [if_neg hx]
      constructor
      · rintro (⟨hm, hid⟩ | ⟨hx', hm⟩)
        · exact .inl ⟨.inr hm, hid⟩
        · exact .inr ⟨⟨hx, hx'⟩, hm⟩
      · rintro (⟨rfl | hm, hid⟩ | ⟨⟨-, hx'⟩, hm⟩)
        · exact absurd hid.symm hx
        · exact .inl ⟨hm, hid⟩
        · exact .inr ⟨hx', hm⟩

@[simp] theorem roots_addAll (w : Workspace) (ns : List Node) : (w.addAll ns).roots = w.roots := by
  induction ns generalizing w with
  | nil => rfl
  | cons n ns ih => exact ih (w.add n)

@[simp] theorem nextId_addAll (w : Workspace) (ns : List Node) :
    (w.addAll ns).nextId = w.nextId + ns.length := by
  induction ns generalizing w with
  | nil => rfl
  | cons n ns ih =>
    show ((w.add n).addAll ns).nextId = _
    rw [ih, List.length_cons]
    exact Nat.add_right_comm w.nextId 1 ns.length

@[simp] theorem nextId_furnish (w : Workspace) (r : Registry) (id : NodeId)
    (specs : List InputSpec) (f : Node → Node) :
    (w.furnish r id specs f).nextId = w.nextId + (defaultNodes r id specs w.nextId).length :=
  w.nextId_addAll _

theorem map_id_defaultNodes (r : Registry) (owner : NodeId) (specs : List InputSpec)
    (id : NodeId) : (defaultNodes r owner specs id).map (·.id) =
      List.range' id (defaultNodes r owner specs id).length := by
  induction specs generalizing id with
  | nil => rfl
  | cons spec specs ih =>
    cases spec with
    | statement name => exact ih id
    | value name check default =>
      cases default with
      | none => exact ih id
      | some s => simp [defaultNodes, ih, List.range'_succ, defaultNode]

theorem owned_freshInputs (r : Registry) (owner : NodeId) (specs : List InputSpec) (id : NodeId) :
    (freshInputs specs id).flatMap (fun i => i.slot.owned) =
      (defaultNodes r owner specs id).map (·.id) := by
  induction specs generalizing id with
  | nil => rfl
  | cons spec specs ih =>
    cases spec with
    | statement name => simpa [freshInputs, Slot.owned, defaultNodes] using ih id
    | value name check default =>
      cases default with
      | none => simpa [freshInputs, Slot.owned, defaultNodes] using ih id
      | some s => simpa [freshInputs, Slot.owned, defaultNodes, defaultNode] using ih (id + 1)

theorem mem_defaultNodes {owner id : NodeId} {specs : List InputSpec} {n : Node}
    (h : n ∈ defaultNodes r owner specs id) : ∃ name check s,
      .value name check (some s) ∈ specs ∧ ∃ x, n = defaultNode r owner s x := by
  induction specs generalizing id with
  | nil => cases h
  | cons spec specs ih =>
    have tail {id : NodeId} (h : n ∈ defaultNodes r owner specs id) : ∃ name check s,
        .value name check (some s) ∈ spec :: specs ∧ ∃ x, n = defaultNode r owner s x := by
      obtain ⟨name, check, s, hs, hx⟩ := ih h
      exact ⟨name, check, s, List.mem_cons_of_mem _ hs, hx⟩
    cases spec with
    | statement name => exact tail h
    | value name check default =>
      cases default with
      | none => exact tail h
      | some s =>
        rcases List.mem_cons.mp h with rfl | h
        · exact ⟨name, check, s, List.mem_cons_self, id, rfl⟩
        · exact tail h

/-- A node whose fields are accepted is made, with its defaults. -/
theorem make_eq (hr : r.Sound) (w : Workspace) {b : Blueprint} {d : Definition}
    {fields : SortedMap String FieldValue} (hfind : r.find? b.kind = some d)
    (hf : fillFields d.shape w.nextId b.fields (defaultFields d.shape) = .ok fields)
    {m : Option Mutation}
    (hm : m = if d.shape.isBranching then some (b.mutation.getD {}) else none) :
    w.make r b = ((w.add ⟨w.nextId, b.kind, fields, [], none, false, none, m⟩).furnish r w.nextId
      (d.shape.inputsFor m) id, .ok w.nextId) := by
  have hd : r.lookup b.kind = .ok d := by simp [Registry.lookup, hfind]
  obtain ⟨depth, hdepth⟩ : ∃ depth, r.definitions.length = depth + 1 :=
    Nat.exists_eq_succ_of_ne_zero
      (Nat.ne_of_gt (List.length_pos_of_mem (List.mem_of_find?_eq_some hfind)))
  have hbuild := buildInputs_eq w.nextId
    (w.add ⟨w.nextId, b.kind, fields, [], none, false, none, m⟩)
    (makeUpTo_default hr hfind m depth w.nextId)
  rw [make, makeUpTo]
  simp only [hd, hdepth, hf, ← hm]
  rw [show ({ w with nextId := w.nextId + 1 } : Workspace).put ⟨w.nextId, b.kind, fields, [],
    none, false, none, m⟩ = w.add ⟨w.nextId, b.kind, fields, [], none, false, none, m⟩ from
      rfl, hbuild]
  rfl

/-- What making a node comes to: an unknown kind, a field that is refused, or a node with
its defaults. -/
theorem make_cases (hr : r.Sound) (w : Workspace) (b : Blueprint) :
    (∃ e, w.make r b = (w, .error e)) ∨
    (∃ e, w.make r b = ({ w with nextId := w.nextId + 1 }, .error e)) ∨
    ∃ d fields mutation, r.find? b.kind = some d ∧ d.shape.Admits fields ∧
      fillFields d.shape w.nextId b.fields (defaultFields d.shape) = .ok fields ∧
      mutation = (if d.shape.isBranching then some (b.mutation.getD {}) else none) ∧
      w.make r b = ((w.add ⟨w.nextId, b.kind, fields, [], none, false, none, mutation⟩).furnish r
        w.nextId (d.shape.inputsFor mutation) id, .ok w.nextId) := by
  cases hd : r.lookup b.kind with
  | error e => exact .inl ⟨.registry e, by rw [make, makeUpTo, hd]⟩
  | ok d =>
    have hfind := Tidy.find?_of_lookup hd
    cases hf : fillFields d.shape w.nextId b.fields (defaultFields d.shape) with
    | error e => exact .inr (.inl ⟨e, by simp [make, makeUpTo, hd, hf]⟩)
    | ok fields =>
      exact .inr (.inr ⟨d, fields, _, hfind, admits_fillFields (admits_defaultFields hr hfind) hf,
        hf, rfl, make_eq hr w hfind hf rfl⟩)

/-- The workspace with some nodes that name no parent. -/
def loosen (w : Workspace) (ids : List NodeId) : Workspace :=
  { w with nodes := w.nodes.map fun x n => if x ∈ ids then { n with parent := none } else n }

theorem get?_loosen (w : Workspace) (ids : List NodeId) (x : NodeId) :
    (w.loosen ids).get? x =
      (w.get? x).map fun n => if x ∈ ids then { n with parent := none } else n :=
  SortedMap.get?_map w.nodes _ x

theorem loosen_nil (w : Workspace) : w.loosen [] = w := by
  have hnodes : (w.loosen []).nodes = w.nodes := by
    refine SortedMap.ext fun x => ?_
    show (w.loosen []).get? x = w.get? x
    rw [get?_loosen]
    simp
  cases w
  simpa [loosen] using hnodes

theorem keeps_loosen (w : Workspace) (ids : List NodeId) : Keeps w (w.loosen ids) := by
  intro x m hx
  rw [get?_loosen] at hx
  obtain ⟨n, hn, rfl⟩ := Option.map_eq_some_iff.mp hx
  refine ⟨n, hn, ?_⟩
  split
  · exact ⟨rfl, rfl, rfl, rfl, rfl⟩
  · exact .refl n

section Furnish

variable {w : Workspace} {id : NodeId} {n : Node} {specs : List InputSpec} {f : Node → Node}

/-- The nodes of a workspace stand under ids before the next one. -/
def Below (w : Workspace) : Prop := ∀ x n, w.get? x = some n → x < w.nextId

theorem mem_ids_defaultNodes {x : NodeId} (h : x ∈ (defaultNodes r id specs w.nextId).map (·.id)) :
    w.nextId ≤ x ∧ x < w.nextId + (defaultNodes r id specs w.nextId).length := by
  rw [map_id_defaultNodes, List.mem_range'_1] at h
  exact h

variable (r) in
theorem get?_furnish (specs : List InputSpec) (f : Node → Node) (hlt : w.Below)
    (hid : w.get? id = some n) (x : NodeId) (m : Node) :
    (w.furnish r id specs f).get? x = some m ↔
      x = id ∧ m = { f n with inputs := freshInputs specs w.nextId } ∨
      m ∈ defaultNodes r id specs w.nextId ∧ m.id = x ∨ x ≠ id ∧ w.get? x = some m := by
  have hnd : ((defaultNodes r id specs w.nextId).map (·.id)).Nodup := by
    rw [map_id_defaultNodes]
    exact List.nodup_range'
  have hold {y : NodeId} {k : Node} (hy : w.get? y = some k) :
      y ∉ (defaultNodes r id specs w.nextId).map (·.id) := fun hm =>
    absurd (hlt y k hy) (Nat.not_lt.mpr (mem_ids_defaultNodes hm).1)
  rw [furnish, get?_update]
  by_cases hx : x = id
  · subst hx
    have hadd : (w.addAll (defaultNodes r x specs w.nextId)).get? x = some n :=
      (get?_addAll hnd w x n).mpr (.inr ⟨hold hid, hid⟩)
    rw [if_pos rfl, hadd, Option.map_some, Option.some.injEq]
    constructor
    · rintro rfl
      exact .inl ⟨rfl, rfl⟩
    · rintro (⟨-, rfl⟩ | ⟨hm, hmx⟩ | ⟨hne, -⟩)
      · rfl
      · exact absurd (List.mem_map.mpr ⟨m, hm, hmx⟩) (hold hid)
      · exact absurd rfl hne
  · rw [if_neg hx, get?_addAll hnd]
    constructor
    · rintro (hm | ⟨-, hm⟩)
      · exact .inr (.inl hm)
      · exact .inr (.inr ⟨hx, hm⟩)
    · rintro (⟨he, -⟩ | hm | ⟨-, hm⟩)
      · exact absurd he hx
      · exact .inl hm
      · exact .inr ⟨hold hm, hm⟩

/-- A node that was there owns exactly the nodes that name it. -/
theorem mem_owned_iff (hl : w.wiring.Linked) (hid : w.get? id = some n) {x : NodeId} :
    x ∈ n.owned ↔ w.parent? x = some id := by
  rw [← parent?_wiring]
  constructor
  · exact hl.parent_of_owned (wiring_of_get? hid)
  · intro hx
    obtain ⟨l, hl, hxl⟩ := hl.owned_of_parent hx
    rw [wiring_of_get? hid, Option.some.injEq] at hl
    rw [← hl] at hxl
    exact hxl

variable (r) in
theorem wiring_furnish (specs : List InputSpec) {f : Node → Node} (hl : w.wiring.Linked)
    (hlt : w.Below) (hid : w.get? id = some n) (hf : ∀ n, (f n).parent = n.parent) :
    ((w.furnish r id specs f).loosen n.owned).wiring =
      w.wiring.rewire id ((defaultNodes r id specs w.nextId).map (·.id)) := by
  have hget := get?_furnish r specs f hlt hid
  funext x
  rw [wiring, get?_loosen]
  by_cases hx : x ∈ (defaultNodes r id specs w.nextId).map (·.id)
  · obtain ⟨m, hm, hmx⟩ := List.mem_map.mp hx
    have hxo : x ∉ n.owned := by
      intro ho
      obtain ⟨l, hl, -⟩ := hl.owned_there (wiring_of_get? hid) ho
      obtain ⟨k, hk, -⟩ := get?_of_wiring hl
      exact absurd (hlt x k hk) (Nat.not_lt.mpr (mem_ids_defaultNodes hx).1)
    rw [(hget x m).mpr (.inr (.inl ⟨hm, hmx⟩)), Option.map_some, Option.map_some, if_neg hxo]
    obtain ⟨name, check, s, -, y, rfl⟩ := mem_defaultNodes hm
    simp [rewire, hx, Node.link, Node.owned, defaultNode]
  · by_cases hxid : x = id
    · subst hxid
      have hp : w.parent? x ≠ some x := fun hp =>
        hl.parent_ne (by rw [parent?_wiring]; exact hp) rfl
      have hxo : x ∉ n.owned := fun ho => hp ((mem_owned_iff hl hid).mp ho)
      have hnp : n.parent ≠ some x := by simpa [parent?, hid] using hp
      rw [(hget x _).mpr (.inl ⟨rfl, rfl⟩), Option.map_some, Option.map_some, if_neg hxo]
      simp [rewire, hx, wiring_of_get? hid, Node.link, Node.owned, hf, hnp,
        owned_freshInputs r x]
    · have hsame : (w.furnish r id specs f).get? x = w.get? x := by
        refine Option.ext fun m => ?_
        rw [hget]
        constructor
        · rintro (⟨he, -⟩ | ⟨hm, hmx⟩ | ⟨-, hm⟩)
          · exact absurd he hxid
          · exact absurd (List.mem_map.mpr ⟨m, hm, hmx⟩) hx
          · exact hm
        · exact fun hm => .inr (.inr ⟨hxid, hm⟩)
      rw [hsame]
      cases hk : w.get? x with
      | none => simp [rewire, hx, wiring, hk]
      | some k =>
        have hp := mem_owned_iff hl hid (x := x)
        simp only [parent?, hk, Option.bind_some] at hp
        by_cases hpk : k.parent = some id
        · have howned : ({ k with parent := none } : Node).owned = k.owned := rfl
          simp [rewire, hx, wiring_of_get? hk, hxid, hp, hpk, Node.link, howned]
        · simp [rewire, hx, wiring_of_get? hk, hxid, hp, hpk, Node.link]

end Furnish

end Workspace

/-! ## A node with its defaults -/

section Furnish

open Workspace

variable {r : Registry} {w : Workspace} {id : NodeId} {n : Node} {d : Definition}
  {specs : List InputSpec} {f : Node → Node} {loose : List NodeId}

theorem Forest.furnish (r : Registry) (specs : List InputSpec) {f : Node → Node}
    (h : Forest w loose) (hlt : w.Below) (hid : w.get? id = some n)
    (hf : ∀ n, (f n).parent = n.parent) :
    Forest ((w.furnish r id specs f).loosen n.owned) (n.owned ++ loose) := by
  have hfresh : ∀ x ∈ (defaultNodes r id specs w.nextId).map (·.id), w.wiring x = none := by
    intro x hx
    cases hk : w.get? x with
    | none => simp [wiring, hk]
    | some k => exact absurd (hlt x k hk) (Nat.not_lt.mpr (mem_ids_defaultNodes hx).1)
  have hroots : ((w.furnish r id specs f).loosen n.owned).roots = w.roots :=
    w.roots_addAll _
  have hw := wiring_furnish r specs h.linked hlt hid hf
  refine ⟨?_, ?_, ?_, ?_⟩
  · rw [hw]
    refine h.linked.rewire (wiring_of_get? hid) hfresh ?_
    rw [map_id_defaultNodes]
    exact List.nodup_range'
  · rw [hroots]
    exact h.roots_nodup
  · intro x
    rw [hw, top_rewire hfresh, h.top_iff, hroots, List.mem_append, parent?_wiring,
      mem_owned_iff h.linked hid]
    exact or_assoc.trans (or_congr_right or_comm)
  · intro x hx hr
    rw [hroots] at hr
    rcases List.mem_append.mp hx with hx | hx
    · exact h.not_owned_of_root hr hid hx
    · exact h.apart x hx hr

/-- A condition that holds of an empty slot with its default holds of fresh inputs. -/
theorem forall₂_freshInputs (r : Registry) (owner : NodeId) {specs : List InputSpec}
    {Q : InputSpec → Slot → Prop} {next : NodeId}
    (hdefault : ∀ name check s x, .value name check (some s) ∈ specs →
      defaultNode r owner s x ∈ defaultNodes r owner specs next →
      Q (.value name check (some s)) (.value none (some x)))
    (hvalue : ∀ name check, Q (.value name check none) (.value none none))
    (hstatement : ∀ name, Q (.statement name) (.statements [])) :
    Laid Q specs (freshInputs specs next) := by
  induction specs generalizing next with
  | nil => exact .nil
  | cons spec specs ih =>
    cases spec with
    | statement name =>
      refine .cons ⟨rfl, hstatement name⟩ (ih fun name check s x hs hx => ?_)
      exact hdefault name check s x (List.mem_cons_of_mem _ hs) hx
    | value name check default =>
      cases default with
      | none =>
        refine .cons ⟨rfl, hvalue name check⟩ (ih fun name check s x hs hx => ?_)
        exact hdefault name check s x (List.mem_cons_of_mem _ hs) hx
      | some s =>
        refine .cons ⟨rfl, hdefault name check s next List.mem_cons_self List.mem_cons_self⟩
          (ih fun name check s x hs hx => ?_)
        exact hdefault name check s x (List.mem_cons_of_mem _ hs) (List.mem_cons_of_mem _ hx)

theorem Workspace.Slots.furnish {P Q : InputSpec → Slot → Prop} (hr : r.Sound) (hlt : w.Below)
    (hid : w.get? id = some n) (hd : r.find? n.kind = some d)
    (hspecs : specs = d.shape.inputsFor (f n).mutation) (hf : (f n).kind = n.kind)
    (hold : ∀ x m e, x ≠ id → w.get? x = some m → r.find? m.kind = some e →
      Laid P (e.shape.inputsFor m.mutation) m.inputs)
    (hPQ : ∀ x m, w.get? x = some m → ∀ i ∈ m.inputs, ∀ spec, P spec i.slot → Q spec i.slot)
    (hnew : Laid Q specs (freshInputs specs w.nextId)) : (w.furnish r id specs f).Slots r Q := by
  intro x m e hx he
  rcases (get?_furnish r specs f hlt hid x m).mp hx with ⟨rfl, rfl⟩ | ⟨hm, hmx⟩ | ⟨hne, hm⟩
  · have hkind : r.find? n.kind = some e := by
      rw [← hf]
      exact he
    rw [hd, Option.some.injEq] at hkind
    subst hkind
    rw [hspecs] at hnew ⊢
    exact hnew
  · obtain ⟨name, check, s, hs, y, rfl⟩ := mem_defaultNodes hm
    rw [hspecs] at hs
    obtain ⟨l, hl, -, hlayout, -⟩ := hr.literal hd _ name check s hs
    have hel : r.find? s.kind = some e := he
    rw [hl, Option.some.injEq] at hel
    subst hel
    simp [Shape.inputsFor, hlayout, defaultNode]
  · exact (hold x m e hne hm he).mono (hPQ x m hm)

end Furnish

/-- A tidy workspace apart from the inputs of one node. -/
structure Prepared (r : Registry) (w : Workspace) (id : NodeId) (loose : List NodeId) : Prop where
  forest : Forest w loose
  stored : ∀ x n, w.get? x = some n → n.id = x ∧ x < w.nextId
  described : ∀ x n, w.get? x = some n → ∃ d, r.find? n.kind = some d ∧
    n.mutation.isSome = d.shape.isBranching ∧ d.shape.Admits n.fields
  fits : ∀ x n d, x ≠ id → w.get? x = some n → r.find? n.kind = some d →
    Laid (Slot.Fits (w.role? r)) (d.shape.inputsFor n.mutation) n.inputs
  furnished : ∀ x n d, x ≠ id → w.get? x = some n → r.find? n.kind = some d →
    Laid (Slot.Furnished w.tag?) (d.shape.inputsFor n.mutation) n.inputs
  roots : ∀ x ∈ w.roots, w.IsReal x

namespace Prepared

open Workspace

variable {r : Registry} {w : Workspace} {id : NodeId} {n : Node} {d : Definition}
  {specs : List InputSpec} {f : Node → Node} {loose : List NodeId}

theorem below (h : Prepared r w id loose) : w.Below := fun x n hx => (h.stored x n hx).2

/-- What is in a slot is there. -/
theorem there_of_slot (h : Prepared r w id loose) {x c : NodeId} {m : Node} {i : Input}
    (hx : w.get? x = some m) (hi : i ∈ m.inputs) (hc : c ∈ i.slot.owned) :
    ∃ k, w.get? c = some k := by
  obtain ⟨l, hl, -⟩ := h.forest.linked.owned_there (wiring_of_get? hx)
    (List.mem_flatMap.mpr ⟨i, hi, hc⟩)
  obtain ⟨k, hk, -⟩ := get?_of_wiring hl
  exact ⟨k, hk⟩

/-- A node that was there keeps its kind and its flag. -/
theorem furnish_there (specs : List InputSpec) {f : Node → Node} (h : Prepared r w id loose)
    (hid : w.get? id = some n)
    (hf : ∀ n, (f n).id = n.id ∧ (f n).kind = n.kind ∧ (f n).shadow = n.shadow) {x : NodeId}
    {m : Node} (hx : w.get? x = some m) :
    ∃ k, (w.furnish r id specs f).get? x = some k ∧ k.kind = m.kind ∧ k.shadow = m.shadow := by
  have hget := get?_furnish r specs f h.below hid x
  by_cases hxid : x = id
  · subst hxid
    rw [hid, Option.some.injEq] at hx
    subst hx
    exact ⟨_, (hget _).mpr (.inl ⟨rfl, rfl⟩), (hf n).2.1, (hf n).2.2⟩
  · exact ⟨m, (hget m).mpr (.inr (.inr ⟨hxid, hx⟩)), rfl, rfl⟩

theorem tag?_furnish (specs : List InputSpec) {f : Node → Node} (h : Prepared r w id loose)
    (hid : w.get? id = some n)
    (hf : ∀ n, (f n).id = n.id ∧ (f n).kind = n.kind ∧ (f n).shadow = n.shadow) {x : NodeId}
    {m : Node} (hx : w.get? x = some m) : (w.furnish r id specs f).tag? x = w.tag? x := by
  obtain ⟨k, hk, hkind, hshadow⟩ := h.furnish_there specs hid hf hx
  simp [tag?, hx, hk, hkind, hshadow]

theorem role?_furnish (specs : List InputSpec) {f : Node → Node} (h : Prepared r w id loose)
    (hid : w.get? id = some n)
    (hf : ∀ n, (f n).id = n.id ∧ (f n).kind = n.kind ∧ (f n).shadow = n.shadow) {x : NodeId}
    {m : Node} (hx : w.get? x = some m) : (w.furnish r id specs f).role? r x = w.role? r x := by
  obtain ⟨k, hk, hkind, -⟩ := h.furnish_there specs hid hf hx
  simp [role?, hx, hk, hkind]

variable (hr : r.Sound) (h : Prepared r w id loose) (hid : w.get? id = some n)
  (hd : r.find? n.kind = some d) (hspecs : specs = d.shape.inputsFor (f n).mutation)
  (hmut : (f n).mutation.isSome = d.shape.isBranching)
  (hf : ∀ n, (f n).id = n.id ∧ (f n).kind = n.kind ∧ (f n).shadow = n.shadow)
  (hfields : ∀ n, (f n).fields = n.fields)

include hr h hid hd hspecs hf

theorem fits_furnish :
    (w.furnish r id specs f).Slots r (Slot.Fits ((w.furnish r id specs f).role? r)) := by
  refine Slots.furnish hr h.below hid hd hspecs (hf n).2.1 h.fits ?_ ?_
  · intro x m hx i hi spec hs
    refine hs.congr fun c hc => ?_
    obtain ⟨k, hk⟩ := h.there_of_slot hx hi hc
    exact h.role?_furnish specs hid hf hk
  · refine forall₂_freshInputs r id ?_ ?_ ?_
    · intro name check s x hs hx c hc
      obtain rfl : c = x := by simpa using hc
      rw [hspecs] at hs
      obtain ⟨l, hl, hvalue, -⟩ := hr.literal hd _ name check s hs
      have hget := (get?_furnish r specs f h.below hid c _).mpr (.inr (.inl ⟨hx, rfl⟩))
      simp only [role?, hget, Option.bind_some]
      show ((r.find? s.kind).map (·.shape.role)).any Role.isValue = true
      simpa [hl] using hvalue
    · intro name check c hc
      cases hc
    · intro name c hc
      cases hc

theorem furnished_furnish :
    (w.furnish r id specs f).Slots r (Slot.Furnished (w.furnish r id specs f).tag?) := by
  refine Slots.furnish hr h.below hid hd hspecs (hf n).2.1 h.furnished ?_ ?_
  · intro x m hx i hi spec hs
    refine hs.congr fun c hc => ?_
    obtain ⟨k, hk⟩ := h.there_of_slot hx hi hc
    exact h.tag?_furnish specs hid hf hk
  · refine forall₂_freshInputs r id ?_ ?_ ?_
    · intro name check s x hs hx
      have hget := (get?_furnish r specs f h.below hid x _).mpr (.inr (.inl ⟨hx, rfl⟩))
      refine ⟨nofun, ?_⟩
      simp only [tag?, hget, Option.map_some]
      rfl
    · intro name check
      exact ⟨nofun, rfl⟩
    · intro name c hc
      cases hc

include hmut hfields

theorem conforms_furnish : Conforms r (w.furnish r id specs f) where
  stored := by
    intro x m hx
    have hnext : (w.furnish r id specs f).nextId =
        w.nextId + (defaultNodes r id specs w.nextId).length := w.nextId_addAll _
    rw [hnext]
    rcases (get?_furnish r specs f h.below hid x m).mp hx with ⟨rfl, rfl⟩ | ⟨hm, rfl⟩ | ⟨-, hm⟩
    · obtain ⟨hnid, hlt⟩ := h.stored _ _ hid
      exact ⟨(hf n).1.trans hnid, Nat.lt_add_right _ hlt⟩
    · exact ⟨rfl, (mem_ids_defaultNodes (List.mem_map.mpr ⟨m, hm, rfl⟩)).2⟩
    · obtain ⟨hmid, hlt⟩ := h.stored _ _ hm
      exact ⟨hmid, Nat.lt_add_right _ hlt⟩
  described := by
    intro x m hx
    rcases (get?_furnish r specs f h.below hid x m).mp hx with ⟨rfl, rfl⟩ | ⟨hm, -⟩ | ⟨-, hm⟩
    · obtain ⟨e, he, -, hadm⟩ := h.described _ _ hid
      rw [hd, Option.some.injEq] at he
      subst he
      refine ⟨d, ?_, hmut, ?_⟩
      · show r.find? (f n).kind = some d
        rw [(hf n).2.1]
        exact hd
      · show d.shape.Admits (f n).fields
        rw [hfields]
        exact hadm
    · obtain ⟨name, check, s, hs, y, rfl⟩ := mem_defaultNodes hm
      rw [hspecs] at hs
      obtain ⟨l, hl, -, hlayout, fs, hfs, hv⟩ := hr.literal hd _ name check s hs
      refine ⟨l, hl, by simp [defaultNode, Shape.isBranching, hlayout], ?_⟩
      simp only [defaultNode, hl]
      exact Tidy.admits_insert (admits_defaultFields hr hl) hfs hv
    · exact h.described x m hm
  slots := h.fits_furnish hr hid hd hspecs hf

/-- A node that takes fresh inputs leaves a tidy workspace, in which what it owned is loose. -/
theorem furnish (hparent : ∀ n, (f n).parent = n.parent) :
    Tidy r ((w.furnish r id specs f).loosen n.owned) (n.owned ++ loose) := by
  have hforest := h.forest.furnish r specs h.below hid hparent
  have hkeeps := (w.furnish r id specs f).keeps_loosen n.owned
  have hinputs : ∀ x m, ((w.furnish r id specs f).loosen n.owned).get? x = some m →
      ∃ k, (w.furnish r id specs f).get? x = some k ∧ m.kind = k.kind ∧
        m.mutation = k.mutation ∧ m.inputs = k.inputs := by
    intro x m hx
    rw [get?_loosen] at hx
    obtain ⟨k, hk, rfl⟩ := Option.map_eq_some_iff.mp hx
    refine ⟨k, hk, ?_⟩
    split <;> exact ⟨rfl, rfl, rfl⟩
  have hslots {P : InputSpec → Slot → Prop} (hP : (w.furnish r id specs f).Slots r P) :
      ((w.furnish r id specs f).loosen n.owned).Slots r P := by
    refine hP.keeps fun x m hx => ?_
    obtain ⟨k, hk, hkind, hmutation, hin⟩ := hinputs x m hx
    exact ⟨k, hk, hkind, hmutation, fun specs hs => hin ▸ hs⟩
  refine ⟨hforest, ?_, ?_⟩
  · refine (h.conforms_furnish hr hid hd hspecs hmut hf hfields).keeps hkeeps hforest.linked
      (Nat.le_refl _) ?_
    exact hslots (h.fits_furnish hr hid hd hspecs hf)
  · refine .keeps hkeeps hforest (hslots (h.furnished_furnish hr hid hd hspecs hf)) ?_
    intro x hx
    have hx : x ∈ w.roots := w.roots_addAll (defaultNodes r id specs w.nextId) ▸ hx
    obtain ⟨m, hm, -⟩ := h.forest.root_there hx
    rw [h.tag?_furnish specs hid hf hm]
    exact h.roots x hx

end Prepared

namespace Tidy

open Workspace

variable {r : Registry} {w v : Workspace} {loose : List NodeId} {n : Node} {d : Definition}
  {b : Blueprint} {x : NodeId}

theorem prepared (h : Tidy r w loose) (id : NodeId) : Prepared r w id loose where
  forest := h.forest
  stored := h.conforms.stored
  described := h.conforms.described
  fits := fun x n d _ hx hd => h.conforms.slots x n d hx hd
  furnished := fun x n d _ hx hd => h.furnished.slots x n d hx hd
  roots := h.furnished.roots

theorem get?_nextId (h : Tidy r w loose) : w.get? w.nextId = none := by
  cases hn : w.get? w.nextId with
  | none => rfl
  | some n => exact absurd (h.conforms.stored _ n hn).2 (Nat.lt_irrefl _)

/-- A fresh node without inputs, apart from them. -/
theorem prepared_add (h : Tidy r w loose) (hid : n.id = w.nextId) (hlink : n.link = ⟨none, []⟩)
    (hd : r.find? n.kind = some d) (hmut : n.mutation.isSome = d.shape.isBranching)
    (hadm : d.shape.Admits n.fields) : Prepared r (w.add n) w.nextId (w.nextId :: loose) := by
  have hnone : w.get? n.id = none := by
    rw [hid]
    exact h.get?_nextId
  have hget {y : NodeId} {m : Node} (hy : y ≠ w.nextId) (hm : (w.add n).get? y = some m) :
      w.get? y = some m := by
    rw [get?_add, if_neg (by rw [hid]; exact hy)] at hm
    exact hm
  have hthere {y : NodeId} {m : Node} (hm : w.get? y = some m) : (w.add n).get? y = some m := by
    rw [get?_add, if_neg, hm]
    rintro rfl
    rw [hnone] at hm
    cases hm
  have hslot {y c : NodeId} {m : Node} {i : Input} (hy : w.get? y = some m) (hi : i ∈ m.inputs)
      (hc : c ∈ i.slot.owned) : (w.add n).get? c = w.get? c := by
    obtain ⟨k, hk⟩ := (h.prepared 0).there_of_slot hy hi hc
    rw [hk, hthere hk]
  refine ⟨?_, ?_, ?_, ?_, ?_, ?_⟩
  · exact (hid ▸ h.forest.put hnone hlink).congr rfl rfl
  · intro y m hm
    rw [get?_add] at hm
    split at hm
    · next hy =>
      cases hm
      rw [hy]
      exact ⟨rfl, hid ▸ Nat.lt_succ_self _⟩
    · obtain ⟨hmid, hlt⟩ := h.conforms.stored y m hm
      exact ⟨hmid, Nat.lt_succ_of_lt hlt⟩
  · intro y m hm
    rw [get?_add] at hm
    split at hm
    · cases hm
      exact ⟨d, hd, hmut, hadm⟩
    · exact h.conforms.described y m hm
  · intro y m e hy hm he
    refine (h.conforms.slots y m e (hget hy hm) he).mono fun i hi spec hs => ?_
    exact hs.congr fun c hc => by simp only [role?, hslot (hget hy hm) hi hc]
  · intro y m e hy hm he
    refine (h.furnished.slots y m e (hget hy hm) he).mono fun i hi spec hs => ?_
    exact hs.congr fun c hc => by simp only [tag?, hslot (hget hy hm) hi hc]
  · intro y hy
    obtain ⟨m, hm, -⟩ := h.forest.root_there hy
    have := h.furnished.roots y hy
    rw [tag?, hm] at this
    rw [IsReal, tag?, hthere hm]
    exact this

/-- A node that was made is the one loose node more, and no default. -/
theorem make_ok (hr : r.Sound) (h : Tidy r w loose) (hm : w.make r b = (v, .ok x)) :
    Tidy r v (x :: loose) ∧ v.IsReal x ∧ x = w.nextId := by
  rcases make_cases hr w b with ⟨e, he⟩ | ⟨e, he⟩ | ⟨d, fields, m, hd, hadm, -, hmut, he⟩
  · rw [he] at hm
    cases hm
  · rw [he] at hm
    cases hm
  · rw [he] at hm
    cases hm
    have hmut' : m.isSome = d.shape.isBranching := by
      rw [hmut]
      split
      · next hb => simp [hb]
      · next hb => simpa using hb
    have hp := h.prepared_add (n := ⟨w.nextId, b.kind, fields, [], none, false, none, m⟩) rfl rfl
      hd hmut' hadm
    have hid := w.get?_add ⟨w.nextId, b.kind, fields, [], none, false, none, m⟩ w.nextId
    rw [if_pos rfl] at hid
    have ht := hp.furnish (f := id) hr hid hd rfl hmut' (fun _ => ⟨rfl, rfl, rfl⟩) (fun _ => rfl)
      (fun _ => rfl)
    rw [show Node.owned _ = [] from rfl, loosen_nil] at ht
    refine ⟨ht, ?_, rfl⟩
    obtain ⟨k, hk, -, hreal⟩ := hp.furnish_there (f := id) (d.shape.inputsFor m) hid
      (fun _ => ⟨rfl, rfl, rfl⟩) hid
    exact isReal_of_get? hk hreal

theorem make_error (hr : r.Sound) (h : Tidy r w loose) {e : EditError}
    (hm : w.make r b = (v, .error e)) : Tidy r v loose := by
  rcases make_cases hr w b with ⟨e, he⟩ | ⟨e, he⟩ | ⟨d, fields, m, -, -, -, -, he⟩
  · rw [he] at hm
    cases hm
    exact h
  · rw [he] at hm
    cases hm
    refine ⟨h.forest.congr rfl rfl, ⟨?_, h.conforms.described, h.conforms.slots⟩,
      ⟨h.furnished.slots, h.furnished.roots⟩⟩
    intro y m hm
    obtain ⟨hmid, hlt⟩ := h.conforms.stored y m hm
    exact ⟨hmid, Nat.lt_succ_of_lt hlt⟩
  · rw [he] at hm
    cases hm

theorem create (hr : r.Sound) (h : Tidy r w) (b : Blueprint) :
    Tidy r (w.create r b).workspace := by
  unfold Workspace.create
  split
  · next v e hm => exact h.make_error hr hm
  · next v x hm =>
    obtain ⟨ht, hreal, -⟩ := h.make_ok hr hm
    exact ht.addRoot List.not_mem_nil hreal

end Tidy

end BlockText

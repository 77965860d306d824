import BlockText.Proofs.Refusals

/-!
# What a refused node leaves behind

Making a node takes an id, checks the fields, puts the node and then builds its inputs. A kind that
is not registered and a field that is not accepted are noticed before the node is put. The default
of an input is made after that, and in a registry that lacks the kind of a default the node stays
behind: it has no inputs, names no parent and is no root. So a refused attempt leaves the nodes as
they were exactly if the blueprint itself is at fault.
-/

namespace BlockText

open Workspace

/-- A registry has the kind of a blueprint, and its shape accepts all the fields. -/
def Blueprint.Accepted (b : Blueprint) (r : Registry) : Prop :=
  ∃ d, r.find? b.kind = some d ∧
    ∀ f ∈ b.fields, ∃ spec, d.shape.field? f.1 = some spec ∧ spec.accepts f.2 = true

/-- Whether a registry lacks the kind of the default that an input declares. -/
def Registry.lacks (r : Registry) (spec : InputSpec) : Bool :=
  spec.default?.any fun s => (r.find? s.kind).isNone

theorem Registry.lacks_value {r : Registry} {name : String} {check : Check} {s : ShadowSpec} :
    r.lacks (.value name check (some s)) = true ↔ r.find? s.kind = none :=
  Option.isNone_iff_eq_none

namespace Workspace

variable {r : Registry} {u v w : Workspace} {b : Blueprint} {e : EditError}

/-! ## What is added -/

/-- A workspace with all the nodes of another and more, under ids that the other has not spent. -/
structure Grows (w v : Workspace) : Prop where
  nextId_le : w.nextId ≤ v.nextId
  get?_old : ∀ x < w.nextId, v.get? x = w.get? x
  below : w.Below → v.Below

namespace Grows

theorem refl (w : Workspace) : Grows w w := ⟨Nat.le_refl _, fun _ _ => rfl, id⟩

theorem trans (h : Grows u v) (h' : Grows v w) : Grows u w where
  nextId_le := Nat.le_trans h.nextId_le h'.nextId_le
  get?_old := fun x hx =>
    (h'.get?_old x (Nat.lt_of_lt_of_le hx h.nextId_le)).trans (h.get?_old x hx)
  below := fun hu => h'.below (h.below hu)

theorem spend (w : Workspace) : Grows w { w with nextId := w.nextId + 1 } where
  nextId_le := Nat.le_succ _
  get?_old := fun _ _ => rfl
  below := fun hw x n hn => Nat.lt_succ_of_lt (hw x n hn)

/-- A change to a node that is not among the old ones. -/
theorem update (h : Grows w v) {id : NodeId} (hid : w.nextId ≤ id) (f : Node → Node) :
    Grows w (v.update id f) where
  nextId_le := h.nextId_le
  get?_old := by
    intro x hx
    have hne : x ≠ id := Nat.ne_of_lt (Nat.lt_of_lt_of_le hx hid)
    rw [get?_update_of_ne _ hne]
    exact h.get?_old x hx
  below := by
    intro hw x n hn
    rw [get?_update] at hn
    split at hn
    · next he =>
      obtain ⟨m, hm, -⟩ := Option.map_eq_some_iff.mp hn
      exact he ▸ h.below hw id m hm
    · exact h.below hw x n hn

theorem add (w : Workspace) {n : Node} (hn : n.id = w.nextId) : Grows w (w.add n) where
  nextId_le := Nat.le_succ _
  get?_old := by
    intro x hx
    rw [get?_add, if_neg (hn ▸ Nat.ne_of_lt hx)]
  below := by
    intro hw x m hm
    rw [get?_add] at hm
    split at hm
    · next he => exact he.trans hn ▸ Nat.lt_succ_self w.nextId
    · exact Nat.lt_succ_of_lt (hw x m hm)

/-- Inputs that are built add to a workspace if the defaults that are made do. -/
theorem buildInputs {make : Blueprint → Workspace → Workspace × Except EditError NodeId}
    (hmake : ∀ b w, Grows w (make b w).1 ∧ ∀ x, (make b w).2 = .ok x → x = w.nextId)
    (owner : NodeId) (specs : List InputSpec) (w : Workspace) :
    Grows w (Workspace.buildInputs make owner specs w).1 := by
  induction specs generalizing w with
  | nil => exact refl w
  | cons spec specs ih =>
    have hrest (u : Workspace) (i : Input) :
        Grows u (addInput i (Workspace.buildInputs make owner specs u)).1 := by
      rw [addInput_fst]
      exact ih u
    cases spec with
    | statement name => exact hrest w _
    | value name check default =>
      cases default with
      | none => exact hrest w _
      | some s =>
        obtain ⟨hmade, hid⟩ := hmake ⟨s.kind, [(s.field, s.value)], none⟩ w
        rw [Workspace.buildInputs]
        split
        · next hm => rwa [hm] at hmade
        · next u y hm =>
          rw [hm] at hmade hid
          exact (hmade.update (hid y rfl ▸ Nat.le_refl _) _).trans (hrest _ _)

/-- What is made takes the next id. -/
theorem makeUpTo (r : Registry) (depth : Nat) (b : Blueprint) (w : Workspace) :
    Grows w (Workspace.makeUpTo r depth b w).1 ∧
      ∀ x, (Workspace.makeUpTo r depth b w).2 = .ok x → x = w.nextId := by
  induction depth generalizing b w with
  | zero => exact ⟨refl w, fun x hx => by cases hx⟩
  | succ depth ih =>
    rw [Workspace.makeUpTo, Registry.lookup]
    cases hfind : r.find? b.kind with
    | none => exact ⟨refl w, fun x hx => by cases hx⟩
    | some d =>
      simp only
      split
      · exact ⟨spend w, fun x hx => by cases hx⟩
      · next fields _ =>
        generalize (if d.shape.isBranching = true then some (b.mutation.getD {}) else none) = m
        have hput : Grows w (({ w with nextId := w.nextId + 1 } : Workspace).put
            ⟨w.nextId, b.kind, fields, [], none, false, none, m⟩) := add w rfl
        have hbuilt := hput.trans (buildInputs ih w.nextId (d.shape.inputsFor m) _)
        split
        · next he =>
          rw [he] at hbuilt
          exact ⟨hbuilt, fun x hx => by cases hx⟩
        · next u inputs he =>
          rw [he] at hbuilt
          refine ⟨hbuilt.update (Nat.le_refl _) _, fun x hx => ?_⟩
          cases hx
          rfl

theorem create (w : Workspace) (r : Registry) (b : Blueprint) :
    Grows w (w.create r b).workspace ∧
      ∀ x, (w.create r b).answer = .ok x → x = w.nextId := by
  obtain ⟨hmade, hid⟩ := makeUpTo r (r.definitions.length + 1) b w
  rw [← Workspace.make] at hmade hid
  unfold Workspace.create
  split
  · next v e hm =>
    rw [hm] at hmade
    exact ⟨hmade, fun x hx => by cases hx⟩
  · next v y hm =>
    rw [hm] at hmade hid
    refine ⟨⟨hmade.nextId_le, hmade.get?_old, hmade.below⟩, fun x hx => ?_⟩
    cases hx
    exact hid y rfl

end Grows

/-! ## What is left -/

/-- Fields are filled in exactly if the shape accepts each of them. -/
theorem fillFields_ok_iff {s : Shape} {id : NodeId} {values : List (String × FieldValue)}
    {fields : SortedMap String FieldValue} :
    (∃ result, fillFields s id values fields = .ok result) ↔
      ∀ f ∈ values, ∃ spec, s.field? f.1 = some spec ∧ spec.accepts f.2 = true := by
  induction values generalizing fields with
  | nil => simp [fillFields]
  | cons f values ih =>
    rw [List.forall_mem_cons, fillFields]
    cases hspec : s.field? f.1 with
    | none => simp
    | some spec =>
      cases hacc : spec.accepts f.2 with
      | false => simp [hacc]
      | true =>
        simp only [if_true, Option.some.injEq, exists_eq_left', true_and, hacc]
        exact ih

/-- Building inputs stops at the first default that cannot be made, with those before it made. -/
theorem buildInputs_lacking
    {make : Blueprint → Workspace → Workspace × Except EditError NodeId} (owner : NodeId)
    {before after : List InputSpec} {name : String} {check : Check} {s : ShadowSpec}
    (hmake : ∀ name check s, .value name check (some s) ∈ before → ∀ w, ∃ v,
      make ⟨s.kind, [(s.field, s.value)], none⟩ w = (v, .ok w.nextId) ∧
        (v.update w.nextId fun n => { n with parent := some owner, shadow := true }) =
          w.add (defaultNode r owner s w.nextId))
    (hlack : ∀ w, make ⟨s.kind, [(s.field, s.value)], none⟩ w = (w, .error e)) (w : Workspace) :
    buildInputs make owner (before ++ .value name check (some s) :: after) w =
      (w.addAll (defaultNodes r owner before w.nextId), .error e) := by
  induction before generalizing w with
  | nil =>
    rw [List.nil_append, buildInputs, hlack]
    rfl
  | cons spec before ih =>
    have hrest (w : Workspace) := ih (fun name check s hs =>
      hmake name check s (List.mem_cons_of_mem _ hs)) w
    rw [List.cons_append]
    cases spec with
    | statement name => simp [buildInputs, hrest, defaultNodes]
    | value name check default =>
      cases default with
      | none => simp [buildInputs, hrest, defaultNodes]
      | some t =>
        obtain ⟨v, hv, hadd⟩ := hmake name check t List.mem_cons_self w
        simp only [buildInputs, hv, hadd, hrest]
        rfl

/-- What is left of an attempt to make a node that was refused: nothing, or an id that is spent, or
the node without inputs and the defaults that were made before the one that is lacking. -/
inductive Leftover (r : Registry) (w : Workspace) (b : Blueprint) : Workspace → Prop
  | unknown : r.find? b.kind = none → Leftover r w b w
  | field {d : Definition} : r.find? b.kind = some d →
      (∀ result, fillFields d.shape w.nextId b.fields (defaultFields d.shape) ≠ .ok result) →
      Leftover r w b { w with nextId := w.nextId + 1 }
  | default {d : Definition} {fields : SortedMap String FieldValue} {m : Option Mutation}
      {before after : List InputSpec} {name : String} {check : Check} {s : ShadowSpec} :
      r.find? b.kind = some d →
      fillFields d.shape w.nextId b.fields (defaultFields d.shape) = .ok fields →
      d.shape.inputsFor m = before ++ .value name check (some s) :: after →
      r.find? s.kind = none →
      Leftover r w b ((w.add ⟨w.nextId, b.kind, fields, [], none, false, none, m⟩).addAll
        (defaultNodes r w.nextId before (w.nextId + 1)))

/-- A selection of the catalogue makes the defaults whose kinds it has. -/
theorem makeUpTo_selected (hr : r.Selected) {kind : Kind} {d : Definition}
    (hd : r.find? kind = some d) {m : Option Mutation} {name : String} {check : Check}
    {s : ShadowSpec} (hs : .value name check (some s) ∈ d.shape.inputsFor m)
    (hfind : r.find? s.kind ≠ none) (depth : Nat) (owner : NodeId) (w : Workspace) :
    ∃ v, makeUpTo r (depth + 1) ⟨s.kind, [(s.field, s.value)], none⟩ w = (v, .ok w.nextId) ∧
      (v.update w.nextId fun n => { n with parent := some owner, shadow := true }) =
        w.add (defaultNode r owner s w.nextId) := by
  obtain ⟨l, hl⟩ := Option.ne_none_iff_exists'.mp hfind
  obtain rfl := hr.find?_eq hd
  obtain ⟨l', hl', -, hlayout, f, hfield, hvalue⟩ :=
    Registry.sound_builtin.literal (Registry.find?_builtin kind) m name check s hs
  -- the literal of the selection is that of the catalogue
  obtain rfl : l' = l := by
    rw [Registry.find?_builtin, Option.some.injEq] at hl'
    rw [← hl', hr.find?_eq hl]
  exact makeUpTo_literal depth w hl hlayout hfield hvalue owner

/-- A default whose kind is not registered is refused before anything is done. -/
theorem makeUpTo_unknown (hfind : r.find? b.kind = none) (depth : Nat) (w : Workspace) :
    makeUpTo r (depth + 1) b w = (w, .error (.registry (.notFound b.kind.name))) := by
  simp [makeUpTo, Registry.lookup, hfind]

theorem leftover_of_make (hr : r.Selected) (h : w.make r b = (v, .error e)) :
    Leftover r w b v := by
  cases hd : r.find? b.kind with
  | none =>
    rw [make, makeUpTo_unknown hd] at h
    cases h
    exact .unknown hd
  | some d =>
    have hlookup : r.lookup b.kind = .ok d := by simp [Registry.lookup, hd]
    obtain ⟨depth, hdepth⟩ : ∃ depth, r.definitions.length = depth + 1 :=
      Nat.exists_eq_succ_of_ne_zero
        (Nat.ne_of_gt (List.length_pos_of_mem (List.mem_of_find?_eq_some hd)))
    rw [make, makeUpTo, hlookup] at h
    simp only at h
    cases hfields : fillFields d.shape w.nextId b.fields (defaultFields d.shape) with
    | error e' =>
      rw [hfields] at h
      cases h
      refine .field hd fun result hresult => ?_
      rw [hfields] at hresult
      cases hresult
    | ok fields =>
      rw [hfields] at h
      simp only at h
      generalize (if d.shape.isBranching = true then some (b.mutation.getD {}) else none) = m at h
      -- either every default can be made, or there is a first one that is lacking
      cases hlack : (d.shape.inputsFor m).find? r.lacks with
      | none =>
        rw [List.find?_eq_none] at hlack
        have hmake (name : String) (check : Check) (s : ShadowSpec)
            (hs : .value name check (some s) ∈ d.shape.inputsFor m) (u : Workspace) :=
          makeUpTo_selected hr hd hs (mt Registry.lacks_value.mpr (hlack _ hs)) depth w.nextId u
        rw [hdepth, buildInputs_eq w.nextId _ hmake] at h
        cases h
      | some spec =>
        obtain ⟨hspec, before, after, hsplit, hbefore⟩ :=
          List.find?_eq_some_iff_append.mp hlack
        cases spec with
        | statement name => cases hspec
        | value name check default =>
          cases default with
          | none => cases hspec
          | some s =>
            have hfind := Registry.lacks_value.mp hspec
            have hmake (name : String) (check : Check) (t : ShadowSpec)
                (ht : .value name check (some t) ∈ before) (u : Workspace) :=
              makeUpTo_selected hr hd (hsplit ▸ List.mem_append_left _ ht)
                (mt Registry.lacks_value.mpr (by simpa using hbefore _ ht)) depth w.nextId u
            rw [hdepth, hsplit, buildInputs_lacking w.nextId hmake fun u =>
              makeUpTo_unknown hfind depth u] at h
            cases h
            exact .default hd hfields hsplit hfind

namespace Leftover

theorem roots (h : Leftover r w b v) : v.roots = w.roots := by
  cases h with
  | unknown hfind => rfl
  | field hd hfields => rfl
  | default hd hfields hsplit hlack => exact roots_addAll _ _

/-- In the last case the node that was to be made is there: the defaults take the ids after it. -/
theorem get?_default {n : Node} {before : List InputSpec} (hn : n.id = w.nextId) :
    ((w.add n).addAll (defaultNodes r w.nextId before (w.nextId + 1))).get? w.nextId = some n := by
  have hids : ((defaultNodes r w.nextId before (w.nextId + 1)).map (·.id)).Nodup := by
    rw [map_id_defaultNodes]
    exact List.nodup_range'
  apply (get?_addAll hids (w.add n) w.nextId n).mpr
  right
  constructor
  · rw [map_id_defaultNodes, List.mem_range'_1]
    exact fun h => Nat.not_succ_le_self w.nextId h.1
  · rw [get?_add, if_pos hn.symm]

/-- A blueprint that was at fault left all nodes as they were. -/
theorem nodes_of_not_accepted (h : Leftover r w b v) (hb : ¬ b.Accepted r) :
    v.nodes = w.nodes := by
  cases h with
  | unknown hfind => rfl
  | field hd hfields => rfl
  | default hd hfields hsplit hlack =>
    exact absurd ⟨_, hd, fillFields_ok_iff.mp ⟨_, hfields⟩⟩ hb

/-- Of a blueprint that was not at fault the node is left, without inputs and without a parent. -/
theorem node_of_accepted (h : Leftover r w b v) (hb : b.Accepted r) :
    ∃ n, v.get? w.nextId = some n ∧ n.kind = b.kind ∧ n.parent = none ∧ n.inputs = [] := by
  obtain ⟨d, hd, hfields⟩ := hb
  cases h with
  | unknown hfind =>
    rw [hfind] at hd
    cases hd
  | field hd' hrefused =>
    obtain rfl : _ = d := Option.some.inj (hd'.symm.trans hd)
    obtain ⟨result, hresult⟩ := fillFields_ok_iff.mpr hfields
    exact absurd hresult (hrefused result)
  | default hd' hfilled hsplit hlack =>
    exact ⟨_, get?_default rfl, rfl, rfl, rfl⟩

end Leftover

theorem get?_nextId_of_below (hlt : w.Below) : w.get? w.nextId = none := by
  cases hn : w.get? w.nextId with
  | none => rfl
  | some n => exact absurd (hlt _ n hn) (Nat.lt_irrefl _)

theorem create_error (h : (w.create r b).answer = .error e) :
    w.make r b = ((w.create r b).workspace, .error e) ∧ (w.create r b).events = [] := by
  unfold create at h ⊢
  split
  · next v e' hm =>
    rw [hm] at h
    cases h
    exact ⟨hm, rfl⟩
  · next v x hm =>
    rw [hm] at h
    cases h

end Workspace

/-- With any selection of the catalogue, a blueprint that is refused fires no event and leaves the
roots and all nodes that were there. It adds no node exactly if the blueprint is at fault: its kind
is not registered, or a field is not accepted. Otherwise its node is left behind, which names no
parent and is no root, so what was a forest is none any more. -/
theorem create_refused_leaves {r : Registry} (hr : r.Selected) {w : Workspace} (hw : Forest w)
    (hlt : w.Below) {b : Blueprint} {err : EditError}
    (h : (w.create r b).answer = .error err) :
    (w.create r b).events = [] ∧ (w.create r b).workspace.roots = w.roots ∧
      (∀ x n, w.get? x = some n → (w.create r b).workspace.get? x = some n) ∧
      ((w.create r b).workspace.nodes = w.nodes ↔ ¬ b.Accepted r) ∧
      (Forest (w.create r b).workspace ↔ ¬ b.Accepted r) ∧
      (b.Accepted r → ∃ n, (w.create r b).workspace.get? w.nextId = some n ∧ n.kind = b.kind ∧
        n.parent = none ∧ n.inputs = []) := by
  obtain ⟨hmake, hevents⟩ := create_error h
  have hleft := leftover_of_make hr hmake
  have hnone := get?_nextId_of_below hlt
  have hold := (Grows.create w r b).1.get?_old
  have horphan (hb : b.Accepted r) := hleft.node_of_accepted hb
  refine ⟨hevents, hleft.roots, fun x n hx => (hold x (hlt x n hx)).trans hx,
    ⟨?_, hleft.nodes_of_not_accepted⟩, ⟨?_, ?_⟩, horphan⟩
  · intro hnodes hb
    obtain ⟨n, hn, -⟩ := horphan hb
    rw [Workspace.get?, hnodes] at hn
    rw [Workspace.get?, hn] at hnone
    cases hnone
  · intro hforest hb
    obtain ⟨n, hn, -, hparent, -⟩ := horphan hb
    have hroot := (hforest.mem_roots w.nextId).mpr (top_wiring.mpr ⟨n, hn, hparent⟩)
    rw [hleft.roots] at hroot
    obtain ⟨k, hk, -⟩ := hw.root_there hroot
    rw [hnone] at hk
    cases hk
  · intro hb
    have hwiring : (w.create r b).workspace.wiring = w.wiring := by
      funext x
      rw [wiring, Workspace.get?, hleft.nodes_of_not_accepted hb]
      rfl
    exact hw.congr hwiring hleft.roots

/-- Beside a conditional that is complete, a second one is refused for want of the literal of its
condition, and its node stays behind. -/
theorem create_refused_leaves_conditional :
    (Registry.Selected ⟨[Kind.ifElse.definition]⟩) ∧ Forest soleConditional ∧
      soleConditional.Below ∧
      (soleConditional.create ⟨[Kind.ifElse.definition]⟩ ⟨.ifElse, [], none⟩).answer =
        .error (.registry (.notFound "logic_boolean")) ∧
      (∃ n, (soleConditional.create ⟨[Kind.ifElse.definition]⟩ ⟨.ifElse, [], none⟩).workspace.get? 2
        = some n ∧ n.parent = none) ∧
      (soleConditional.create ⟨[Kind.ifElse.definition]⟩ ⟨.ifElse, [], none⟩).workspace.roots = [0] ∧
      ¬ Forest
        (soleConditional.create ⟨[Kind.ifElse.definition]⟩ ⟨.ifElse, [], none⟩).workspace := by
  have hr : Registry.Selected ⟨[Kind.ifElse.definition]⟩ :=
    Registry.selected_definitions (List.nodup_singleton Kind.ifElse)
  have herr : (soleConditional.create ⟨[Kind.ifElse.definition]⟩ ⟨.ifElse, [], none⟩).answer =
      .error (.registry (.notFound "logic_boolean")) := rfl
  have hb : Blueprint.Accepted ⟨.ifElse, [], none⟩ ⟨[Kind.ifElse.definition]⟩ :=
    ⟨Kind.ifElse.definition, rfl, by simp⟩
  obtain ⟨-, hroots, -, -, hforest, hnode⟩ :=
    create_refused_leaves hr tidy_soleConditional.forest tidy_soleConditional.below herr
  obtain ⟨n, hn, -, hparent, -⟩ := hnode hb
  exact ⟨hr, tidy_soleConditional.forest, tidy_soleConditional.below, herr, ⟨n, hn, hparent⟩,
    hroots, fun hf => hforest.mp hf hb⟩

/-- Already in the empty workspace a node without the literal of its default is refused and stays
behind. -/
theorem create_without_literal :
    (Registry.Selected ⟨[Kind.showNumber.definition]⟩) ∧ Forest {} ∧
      (({} : Workspace).create ⟨[Kind.showNumber.definition]⟩ ⟨.showNumber, [], none⟩).answer =
        .error (.registry (.notFound "math_number")) ∧
      (({} : Workspace).create ⟨[Kind.showNumber.definition]⟩
        ⟨.showNumber, [], none⟩).workspace.roots = [] ∧
      (({} : Workspace).create ⟨[Kind.showNumber.definition]⟩
        ⟨.showNumber, [], none⟩).workspace.nodes ≠ ({} : Workspace).nodes :=
  ⟨Registry.selected_definitions (List.nodup_singleton Kind.showNumber), .empty, rfl, rfl,
    by decide +kernel⟩

end BlockText

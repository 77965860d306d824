import BlockText.Proofs.Units

/-!
# The program that a workspace shows

The text of a workspace is the text of a tree: the sequence of its roots that are written, with the
fields of each block, and in each input what shows there or else the literal that stands in for it.
In an orderly workspace the tree is proper, so its text can be read. Where a tree stands in a
workspace and all its statements are written, the workspace shows that tree.
-/

namespace BlockText

open Workspace Program

variable {s : Setup} {w v : Workspace} {x y : NodeId} {n : Node} {i : String}

/-! ## The tree of a workspace -/

/-- The literal that stands in for a value that is not there. -/
def Check.literal : Check → ShadowSpec
  | .number | .any => .number 0
  | .boolean => .boolean false
  | .string => .text ""

/-- A default as an expression. -/
def ShadowSpec.expr (s : ShadowSpec) : Expr :=
  .block s.kind (SortedMap.empty.insert s.field s.value) fun _ => .absent

/-- What a value input has to hold. -/
def Shape.check? (s : Shape) (m : Option Mutation) (input : String) : Option Check :=
  (s.inputsFor m).findSome? fun
    | .value name check _ => if name == input then some check else none
    | .statement _ => none

/-- The expression in a value input: that of the node which shows there, or else the literal. -/
def Workspace.operand (w : Workspace) (expr : Node → Expr) (n : Node) (input : String) : Expr :=
  match (n.valueTarget? input).bind w.get? with
  | some target => expr target
  | none => match n.kind.definition.shape.check? n.mutation input with
    | some check => check.literal.expr
    | none => .absent

/-- The expression at a node with what is nested in it to a depth of `bound`, with all zeros
positive. -/
def Workspace.exprUpTo (w : Workspace) : Nat → Node → Expr
  | 0, _ => .absent
  | bound + 1, n =>
    .block n.kind (n.fields.map fun _ v => v.plain) (w.operand (w.exprUpTo bound) n)

/-- A sequence with a node at its front, unless the node is not written. -/
def Program.front (s : Setup) (w : Workspace) (expr : Node → Expr) (sequence : List NodeId → Script)
    (id : NodeId) (next : Script) : Script :=
  match w.get? id with
  | none => next
  | some n =>
    if isWritten s w n then
      .block n.kind n.fields n.mutation (w.operand expr n) (fun i => sequence (n.statements i)) next
    else next

/-- The nodes of a sequence that are written, nested to a depth of `bound`. -/
def Program.scriptUpTo (s : Setup) (w : Workspace) : Nat → List NodeId → Script
  | 0, _ => .done
  | bound + 1, ids => ids.foldr (front s w (w.exprUpTo bound) (scriptUpTo s w bound)) .done

/-- The program that a workspace shows. -/
def Program.emitted (s : Setup) (w : Workspace) : Script := scriptUpTo s w (w.size + 1) w.roots

/-! ## Orderly workspaces -/

/-- Blocks of the built-in catalogue in a forest that conforms to their shapes. Defaults may be
missing, but no root is one. -/
structure Orderly (w : Workspace) : Prop where
  forest : Forest w
  conforms : Conforms .builtin w
  real : ∀ x ∈ w.roots, w.IsReal x

theorem Tidy.orderly (h : Tidy .builtin w) : Orderly w :=
  ⟨h.forest, h.conforms, h.furnished.roots⟩

theorem Shape.check?_isSome {shape : Shape} {m : Option Mutation} :
    (shape.check? m i).isSome ↔ i ∈ shape.valueInputs m := by
  rw [check?, List.findSome?_isSome_iff, mem_valueInputs]
  constructor
  · rintro ⟨spec, hspec, hsome⟩
    cases spec with
    | statement name => cases hsome
    | value name check default =>
      dsimp only at hsome
      split at hsome
      · next hname =>
        obtain rfl := eq_of_beq hname
        exact ⟨check, default, hspec⟩
      · cases hsome
  · rintro ⟨check, default, hspec⟩
    exact ⟨_, hspec, by simp⟩

namespace Orderly

theorem described (h : Orderly w) (hn : w.get? x = some n) :
    n.mutation.isSome = n.kind.definition.shape.isBranching ∧
      n.kind.definition.shape.Admits n.fields := by
  obtain ⟨d, hd, hm, ha⟩ := h.conforms.described x n hn
  rw [Registry.find?_builtin, Option.some.injEq] at hd
  subst hd
  exact ⟨hm, ha⟩

theorem mutation_value (h : Orderly w) (hn : w.get? x = some n)
    (hv : n.kind.definition.shape.role.isValue = true) : n.mutation = none := by
  have hm := (h.described hn).1
  rw [n.kind.isBranching_value hv] at hm
  simpa using hm

/-- What stands in a slot is there and names its owner. -/
theorem owned (h : Orderly w) (hn : w.get? x = some n) {slot : Slot} (hs : n.slot? i = some slot)
    (hy : y ∈ slot.owned) : ∃ m, w.get? y = some m ∧ w.parent? y = some x ∧
      w.role? .builtin y = some m.kind.definition.shape.role := by
  have hp := (mem_owned_iff h.forest.linked hn).mp (Node.owned_of_slot? hs hy)
  cases hm : w.get? y with
  | none =>
    rw [parent?, hm] at hp
    cases hp
  | some m => exact ⟨m, rfl, hp, by simp [role?, hm, Registry.find?_builtin]⟩

/-- Value inputs show values, and no other input shows one. -/
theorem value_target (h : Orderly w) (hn : w.get? x = some n) (hy : n.valueTarget? i = some y) :
    i ∈ n.kind.definition.shape.valueInputs n.mutation ∧ ∃ m, w.get? y = some m ∧
      w.parent? y = some x ∧ m.kind.definition.shape.role.isValue = true := by
  obtain ⟨child, shadow, hs, howned⟩ := Node.slot?_of_valueTarget? hy
  obtain ⟨m, hm, hp, hrole⟩ := h.owned hn hs howned
  obtain ⟨spec, hspec, rfl, hfits⟩ := h.conforms.slots.of_slot? hn (Registry.find?_builtin _) hs
  cases spec with
  | statement name => exact hfits.elim
  | value name check default =>
    refine ⟨Shape.mem_valueInputs.mpr ⟨check, default, hspec⟩, m, hm, hp, ?_⟩
    have hv := hfits y howned
    rwa [hrole] at hv

/-- Statement inputs hold statements, and no other input holds one. -/
theorem statement_child (h : Orderly w) (hn : w.get? x = some n) (hy : y ∈ n.statements i) :
    i ∈ n.kind.definition.shape.statementInputs n.mutation ∧ ∃ m, w.get? y = some m ∧
      w.parent? y = some x ∧ m.kind.definition.shape.role = .statement := by
  obtain ⟨children, hs, hchild⟩ := Node.slot?_of_statements hy
  obtain ⟨m, hm, hp, hrole⟩ := h.owned hn hs hchild
  obtain ⟨spec, hspec, rfl, hfits⟩ := h.conforms.slots.of_slot? hn (Registry.find?_builtin _) hs
  cases spec with
  | value name check default => exact hfits.elim
  | statement name =>
    refine ⟨Shape.mem_statementInputs.mpr hspec, m, hm, hp, ?_⟩
    have hv := hfits y hchild
    rwa [hrole, Option.some.injEq] at hv

end Orderly

/-! ## The text of the tree -/

theorem Check.text_literal (c : Check) : c.literal.expr.text = c.fallback.toList := by
  cases c <;> decide +kernel

theorem Program.fallback_builtin (n : Node) (i : String) : fallback .builtin n i =
    (((n.kind.definition.shape.check? n.mutation i).map Check.fallback).getD "0").toList := by
  rw [fallback, Registry.find?_builtin]
  rfl

theorem Workspace.text_operand {expr : Node → Expr} {render : Node → List Char}
    (hr : s.registry = .builtin) (hi : i ∈ n.kind.definition.shape.valueInputs n.mutation)
    (hexpr : ∀ y m, n.valueTarget? i = some y → w.get? y = some m → (expr m).text = render m) :
    (w.operand expr n i).text = value s w render n i := by
  rw [operand, value, hr]
  cases ht : (n.valueTarget? i).bind w.get? with
  | some m =>
    obtain ⟨y, hy, hm⟩ := Option.bind_eq_some_iff.mp ht
    exact hexpr y m hy hm
  | none =>
    obtain ⟨check, hcheck⟩ := Option.isSome_iff_exists.mp (Shape.check?_isSome.mpr hi)
    simp only [fallback_builtin, hcheck, Option.map_some, Option.getD_some]
    exact check.text_literal

theorem FieldValue.plain_plain (v : FieldValue) : v.plain.plain = v.plain := by
  cases v with
  | number x =>
    have hzero : (0 : Double).isZero = true := by decide +kernel
    by_cases hx : x.isZero = true
    · simp [plain, hx, hzero]
    · simp [plain, hx]
  | _ => rfl

theorem Parts.alike_plain {p q : Parts}
    (h : p.node.fields = q.node.fields.map fun _ v => v.plain) : p.Alike q := by
  intro name
  rw [Node.field?, h, SortedMap.get?_map, Option.map_map, Node.field?]
  exact congrArg (Option.map · _) (funext FieldValue.plain_plain)

namespace Orderly

/-- The text of a value is the text of its expression. -/
theorem text_exprUpTo (h : Orderly w) (hr : s.registry = .builtin) (bound : Nat)
    (hn : w.get? x = some n) (hv : n.kind.definition.shape.role.isValue = true) :
    (w.exprUpTo bound n).text = render s w bound n := by
  induction bound generalizing x n with
  | zero => rfl
  | succ bound ih =>
    have hm := h.mutation_value hn hv
    rw [render, hr, Registry.find?_builtin, exprUpTo, Expr.text]
    refine render_congr n.kind (Parts.alike_plain rfl) hm.symm (fun i hi => ?_) fun i hi => ?_
    · refine text_operand hr (hm ▸ hi) fun y m hy hget => ?_
      obtain ⟨-, m', hm', -, hv'⟩ := h.value_target hn hy
      obtain rfl : m' = m := Option.some.inj (hm'.symm.trans hget)
      exact ih hget hv'
    · have hnone := n.kind.statementInputs_value hv
      exact absurd (hnone ▸ hi) List.not_mem_nil

theorem text_scriptUpTo (h : Orderly w) (hr : s.registry = .builtin) (bound : Nat)
    (ids : List NodeId) : (scriptUpTo s w bound ids).text s.options =
      ids.flatMap (statement s w (render s w bound)) := by
  induction bound generalizing ids with
  | zero =>
    have hnil : ∀ x ∈ ids, statement s w (render s w 0) x = [] := by
      intro x _
      unfold statement
      split
      · rfl
      · split <;> rfl
    rw [List.flatMap_eq_nil_iff.mpr hnil]
    rfl
  | succ bound ih =>
    -- the outer induction goes down into the bodies, this one along the sequence
    rw [scriptUpTo]
    induction ids with
    | nil => rfl
    | cons x ids ihs =>
      rw [List.foldr_cons, List.flatMap_cons, ← ihs, front, statement]
      cases hn : w.get? x with
      | none => rfl
      | some n =>
        dsimp only
        split
        · rw [Script.text]
          refine congrArg (· ++ _) ?_
          rw [render, hr, Registry.find?_builtin]
          refine render_congr n.kind (fun _ => rfl) rfl (fun i hi => ?_) fun i hi => ?_
          · refine text_operand hr hi fun y m hy hget => ?_
            obtain ⟨-, m', hm', -, hv⟩ := h.value_target hn hy
            obtain rfl : m' = m := Option.some.inj (hm'.symm.trans hget)
            exact h.text_exprUpTo hr bound hget hv
          · exact congrArg (blockText s.options) (ih (n.statements i))
        · rfl

/-- A workspace is written as the program that it shows. -/
theorem text_emitted (h : Orderly w) (hr : s.registry = .builtin) :
    (emitted s w).text s.options = writeChars s w :=
  h.text_scriptUpTo hr _ _

end Orderly

/-! ## The tree is proper -/

namespace Expr

/-- Nothing stands off the inputs of the shapes. -/
def Tight : Expr → Prop
  | absent => True
  | block kind _ operand => (∀ i, i ∉ kind.definition.shape.valueInputs none → operand i = absent) ∧
      ∀ i, (operand i).Tight

end Expr

namespace Script

/-- Nothing stands off the inputs of the shapes. -/
def Tight : Script → Prop
  | done => True
  | block kind _ mutation value body next =>
    (∀ i, i ∉ kind.definition.shape.valueInputs mutation → value i = .absent) ∧
    (∀ i, (value i).Tight) ∧
    (∀ i, i ∉ kind.definition.shape.statementInputs mutation → body i = done) ∧
    (∀ i, (body i).Tight) ∧ next.Tight

end Script

/-- A field that accepts a number accepts every finite number. -/
theorem FieldSpec.accepts_of_number {spec : FieldSpec} {x y : Double} (hy : y.isFinite = true)
    (h : spec.accepts (.number x) = true) : spec.accepts (.number y) = true := by
  have hsame : spec.default.sameType (.number y) = spec.default.sameType (.number x) := by
    cases spec.default <;> rfl
  unfold accepts at h ⊢
  cases hd : spec.domain with
  | number => exact hy
  | _ =>
    rw [hd] at h
    exact hsame.trans h

theorem FieldSpec.accepts_plain {spec : FieldSpec} {v : FieldValue} (h : spec.accepts v = true) :
    spec.accepts v.plain = true := by
  cases v with
  | number x =>
    rw [FieldValue.plain]
    split
    · exact accepts_of_number (by decide +kernel) h
    · exact h
  | _ => exact h

theorem Shape.Admits.plain {shape : Shape} {fields : SortedMap String FieldValue}
    (h : shape.Admits fields) : shape.Admits (fields.map fun _ v => v.plain) := by
  intro name
  have hname := h name
  rw [SortedMap.get?_map]
  split
  · next spec hspec =>
    rw [hspec] at hname
    obtain ⟨v, hv, hacc⟩ := hname
    exact ⟨v.plain, by rw [hv]; rfl, FieldSpec.accepts_plain hacc⟩
  · next hspec =>
    rw [hspec] at hname
    dsimp only at hname
    rw [hname]
    rfl

/-- A default of a kind with one field and no inputs is a proper expression. -/
theorem ShadowSpec.proper_expr {s : ShadowSpec} {role : Role} (spec : FieldSpec)
    (hshape : s.kind.definition.shape = ⟨role, [spec], .fixed []⟩) (hrole : role.isValue = true)
    (hname : spec.name = s.field) (hacc : spec.accepts s.value = true)
    (hplain : s.value.plain = s.value) : s.expr.Proper ∧ s.expr.Tight := by
  refine ⟨⟨hshape ▸ hrole, fun name => ?_, fun name v hv => ?_, fun i hi => ?_⟩, fun _ _ => rfl,
    fun _ => trivial⟩
  · rw [hshape, SortedMap.get?_insert, Shape.field?, List.find?_singleton, hname]
    by_cases hn : name = s.field
    · simp [hn, hacc]
    · simp [hn, Ne.symm hn, SortedMap.get?_empty]
  · rw [SortedMap.get?_insert] at hv
    split at hv
    · cases hv
      exact hplain
    · cases hv
  · rw [hshape] at hi
    cases hi

theorem Check.proper_literal (c : Check) : c.literal.expr.Proper ∧ c.literal.expr.Tight := by
  have hzero : (FieldValue.number 0).plain = .number 0 := by decide +kernel
  have hnumber : (ShadowSpec.number 0).expr.Proper ∧ (ShadowSpec.number 0).expr.Tight :=
    ShadowSpec.proper_expr (.number "NUM" 0) rfl rfl rfl (by decide +kernel) hzero
  cases c with
  | number | any => exact hnumber
  | boolean => exact ShadowSpec.proper_expr (.bool "BOOL" true) rfl rfl rfl rfl rfl
  | string => exact ShadowSpec.proper_expr (.text "TEXT" "") rfl rfl rfl rfl rfl

/-- A depth that suffices for a node: that of the workspace, less the depth at which it stands. -/
def Workspace.Suffices (w : Workspace) (bound : Nat) (x : NodeId) : Prop :=
  w.size < bound + (w.ancestors x).length

theorem Workspace.suffices_size (w : Workspace) (x : NodeId) : w.Suffices (w.size + 1) x := by
  unfold Suffices
  omega

namespace Workspace.Suffices

variable {bound : Nat}

/-- No node stands deeper than there are nodes. -/
theorem exists_bound (hb : w.Suffices bound x) (hl : w.wiring.Linked) (hn : w.get? x = some n) :
    ∃ b, bound = b + 1 := by
  have := Chain.length_lt (chain_ancestors hl hn)
  unfold Suffices at hb
  exact ⟨bound - 1, by omega⟩

theorem child (hb : w.Suffices (bound + 1) x) (hl : w.wiring.Linked)
    (hp : w.parent? y = some x) : w.Suffices bound y := by
  unfold Suffices at hb ⊢
  rw [ancestors_of_parent hl hp, List.length_cons]
  omega

end Workspace.Suffices

namespace Orderly

theorem exists_bound (h : Orderly w) {bound : Nat} (hn : w.get? x = some n)
    (hb : w.Suffices bound x) : ∃ b, bound = b + 1 :=
  hb.exists_bound h.forest.linked hn

theorem suffices_child (h : Orderly w) {bound : Nat} (hp : w.parent? y = some x)
    (hb : w.Suffices (bound + 1) x) : w.Suffices bound y :=
  hb.child h.forest.linked hp

/-- What holds of the expressions at values and of the literals holds of all operands. -/
theorem operand_induction (h : Orderly w) {P : Expr → Prop} {expr : Node → Expr}
    (hn : w.get? x = some n) (hexpr : ∀ y m, w.get? y = some m → w.parent? y = some x →
      m.kind.definition.shape.role.isValue = true → P (expr m))
    (hliteral : ∀ check : Check, P check.literal.expr)
    (hi : i ∈ n.kind.definition.shape.valueInputs n.mutation) : P (w.operand expr n i) := by
  rw [operand]
  cases ht : (n.valueTarget? i).bind w.get? with
  | some m =>
    obtain ⟨y, hy, hm⟩ := Option.bind_eq_some_iff.mp ht
    obtain ⟨-, m', hm', hp, hv⟩ := h.value_target hn hy
    obtain rfl : m' = m := Option.some.inj (hm'.symm.trans hm)
    exact hexpr y _ hm hp hv
  | none =>
    obtain ⟨check, hcheck⟩ := Option.isSome_iff_exists.mp (Shape.check?_isSome.mpr hi)
    simp only [hcheck]
    exact hliteral check

theorem operand_absent (h : Orderly w) {expr : Node → Expr} (hn : w.get? x = some n)
    (hi : i ∉ n.kind.definition.shape.valueInputs n.mutation) : w.operand expr n i = .absent := by
  have htarget : n.valueTarget? i = none := by
    cases hy : n.valueTarget? i with
    | none => rfl
    | some y => exact absurd (h.value_target hn hy).1 hi
  have hcheck : n.kind.definition.shape.check? n.mutation i = none := by
    rw [← Option.not_isSome_iff_eq_none, Shape.check?_isSome]
    exact hi
  rw [operand, htarget, hcheck]
  rfl

theorem proper_exprUpTo (h : Orderly w) {bound : Nat} (hn : w.get? x = some n)
    (hv : n.kind.definition.shape.role.isValue = true) (hb : w.Suffices bound x) :
    (w.exprUpTo bound n).Proper := by
  induction bound generalizing x n with
  | zero =>
    obtain ⟨b, hb⟩ := h.exists_bound hn hb
    cases hb
  | succ bound ih =>
    have hm := h.mutation_value hn hv
    refine ⟨hv, (h.described hn).2.plain, ?_, fun i hi => ?_⟩
    · intro name v hv
      rw [SortedMap.get?_map] at hv
      obtain ⟨v, -, rfl⟩ := Option.map_eq_some_iff.mp hv
      exact v.plain_plain
    · exact h.operand_induction hn (fun y m hy hp hv => ih hy hv (h.suffices_child hp hb))
        (fun check => check.proper_literal.1) (hm ▸ hi)

theorem tight_operand (h : Orderly w) {expr : Node → Expr} (hn : w.get? x = some n)
    (hexpr : ∀ y m, w.get? y = some m → m.kind.definition.shape.role.isValue = true →
      (expr m).Tight) (i : String) : (w.operand expr n i).Tight := by
  by_cases hi : i ∈ n.kind.definition.shape.valueInputs n.mutation
  · exact h.operand_induction hn (fun y m hy _ => hexpr y m hy)
      (fun check => check.proper_literal.2) hi
  · rw [h.operand_absent hn hi]
    trivial

theorem tight_exprUpTo (h : Orderly w) (bound : Nat) (hn : w.get? x = some n)
    (hv : n.kind.definition.shape.role.isValue = true) : (w.exprUpTo bound n).Tight := by
  induction bound generalizing x n with
  | zero => trivial
  | succ bound ih =>
    have hm := h.mutation_value hn hv
    exact ⟨fun i hi => h.operand_absent hn (hm ▸ hi),
      h.tight_operand hn fun y m hy hv => ih hy hv⟩

end Orderly

/-- What is written is a statement or the root of an event. -/
theorem Program.role_of_isWritten (hr : s.registry = .builtin) (h : isWritten s w n = true) :
    n.kind.definition.shape.role = .statement ∨ n.kind.definition.shape.role = .root := by
  rw [isWritten, hr, isLoose, Registry.find?_builtin] at h
  cases hrole : n.kind.definition.shape.role with
  | statement => exact .inl rfl
  | root => exact .inr rfl
  | value check => simp [hrole, Role.isValue] at h
  | helper => simp [hrole] at h

theorem Program.scriptUpTo_nil (s : Setup) (w : Workspace) (bound : Nat) :
    scriptUpTo s w bound [] = .done := by
  cases bound <;> rfl

namespace Orderly

theorem proper_scriptUpTo (h : Orderly w) (hr : s.registry = .builtin) {bound : Nat} {top : Bool}
    {ids : List NodeId} (hids : ∀ x ∈ ids, w.Suffices bound x ∧ (top = false →
      ∀ n, w.get? x = some n → n.kind.definition.shape.role = .statement)) :
    (scriptUpTo s w bound ids).Proper top := by
  induction bound generalizing top ids with
  | zero => trivial
  | succ bound ih =>
    rw [scriptUpTo]
    induction ids with
    | nil => trivial
    | cons x ids ihs =>
      rw [List.forall_mem_cons] at hids
      have hnext := ihs hids.2
      rw [List.foldr_cons, front]
      cases hn : w.get? x with
      | none => exact hnext
      | some n =>
        dsimp only
        split
        case isFalse => exact hnext
        case isTrue hwritten =>
          obtain ⟨hm, hadmits⟩ := h.described hn
          refine ⟨?_, hm, hadmits, fun i hi => ?_, fun i hi => ih fun y hy => ?_, hnext⟩
          · rcases role_of_isWritten hr hwritten with hrole | hrole
            · exact .inl hrole
            · cases top with
              | true => exact .inr ⟨rfl, hrole⟩
              | false => exact .inl (hids.1.2 rfl n hn)
          · exact h.operand_induction hn
              (fun y m hy hp hv => h.proper_exprUpTo hy hv (h.suffices_child hp hids.1.1))
              (fun check => check.proper_literal.1) hi
          · obtain ⟨-, m, hm, hp, hrole⟩ := h.statement_child hn hy
            refine ⟨h.suffices_child hp hids.1.1, fun _ n' hn' => ?_⟩
            obtain rfl : m = n' := Option.some.inj (hm.symm.trans hn')
            exact hrole

theorem statements_nil (h : Orderly w) (hn : w.get? x = some n)
    (hi : i ∉ n.kind.definition.shape.statementInputs n.mutation) : n.statements i = [] :=
  List.eq_nil_iff_forall_not_mem.mpr fun _ hy => hi (h.statement_child hn hy).1

theorem tight_scriptUpTo (h : Orderly w) (bound : Nat) (ids : List NodeId) :
    (scriptUpTo s w bound ids).Tight := by
  induction bound generalizing ids with
  | zero => trivial
  | succ bound ih =>
    rw [scriptUpTo]
    induction ids with
    | nil => trivial
    | cons x ids ihs =>
      rw [List.foldr_cons, front]
      cases hn : w.get? x with
      | none => exact ihs
      | some n =>
        dsimp only
        split
        case isFalse => exact ihs
        case isTrue =>
          refine ⟨fun i hi => h.operand_absent hn hi,
            h.tight_operand hn fun y m hy hv => h.tight_exprUpTo bound hy hv,
            fun i hi => ?_, fun i => ih _, ihs⟩
          dsimp only
          rw [h.statements_nil hn hi, scriptUpTo_nil]

/-- The program that an orderly workspace shows is proper. -/
theorem proper_emitted (h : Orderly w) (hr : s.registry = .builtin) :
    (emitted s w).Proper true :=
  h.proper_scriptUpTo hr fun x _ => ⟨w.suffices_size x, nofun⟩

theorem tight_emitted (h : Orderly w) : (emitted s w).Tight := h.tight_scriptUpTo _ _

end Orderly

/-! ## The tree that stands in a workspace -/

/-- The statements of a sequence that stands in a workspace are all written. -/
def Script.Written (s : Setup) (w : Workspace) : Script → List NodeId → Prop
  | done, _ => True
  | block kind _ mutation _ body next, ids => ∃ x rest n, ids = x :: rest ∧ w.get? x = some n ∧
      isWritten s w n = true ∧ (∀ i ∈ kind.definition.shape.statementInputs mutation,
        (body i).Written s w (n.statements i)) ∧ next.Written s w rest

variable {lo hi : NodeId} {bound : Nat}

/-- A workspace shows the expression that stands in it. -/
theorem Expr.Stands.exprUpTo_eq {e : Expr} (h : e.Stands w lo hi x) (hw : Orderly w)
    (hp : e.Proper) (ht : e.Tight) (hn : w.get? x = some n) (hb : w.Suffices bound x) :
    w.exprUpTo bound n = e := by
  induction e generalizing x n bound with
  | absent => exact h.elim
  | block kind fields operand ih =>
    obtain ⟨-, -, n', hn', rfl, rfl, hmut, hvalues⟩ := h
    obtain rfl : n' = n := Option.some.inj (hn'.symm.trans hn)
    obtain ⟨hv, -, hplain, hproper⟩ := hp
    obtain ⟨habsent, htight⟩ := ht
    obtain ⟨b, rfl⟩ := hw.exists_bound hn hb
    have hfields : (n'.fields.map fun _ v => v.plain) = n'.fields := by
      refine SortedMap.ext fun name => ?_
      rw [SortedMap.get?_map]
      cases hf : n'.fields.get? name with
      | none => rfl
      | some v => exact congrArg some (hplain name v hf)
    have hoperand (i : String) : w.operand (w.exprUpTo b) n' i = operand i := by
      by_cases hi : i ∈ n'.kind.definition.shape.valueInputs none
      · obtain ⟨y, hy, hstands⟩ := hvalues i hi
        obtain ⟨-, m, hm, hparent, -⟩ := hw.value_target hn hy
        rw [Workspace.operand, hy, Option.bind_some, hm]
        exact ih i hstands (hproper i hi) (htight i) hm (hw.suffices_child hparent hb)
      · rw [hw.operand_absent hn (by rwa [hmut]), habsent i hi]
    rw [exprUpTo, hfields, funext hoperand]

/-- A workspace shows the sequence that stands in it, if all its statements are written. -/
theorem Script.Stands.scriptUpTo_eq {t : Script} {top : Bool} {ids : List NodeId}
    (h : t.Stands w lo hi ids) (hw : Orderly w) (hp : t.Proper top) (ht : t.Tight)
    (hwritten : t.Written s w ids) (hb : ∀ x ∈ ids, w.Suffices bound x) :
    scriptUpTo s w bound ids = t := by
  induction t generalizing top ids bound with
  | done =>
    rw [show ids = [] from h, scriptUpTo_nil]
  | block kind fields mutation value body next ihb ih =>
    obtain ⟨x, rest, rfl, -, -, ⟨n, hn, rfl, rfl, rfl, hvalues, hbodies⟩, hnext⟩ := h
    obtain ⟨x', rest', n', heq, hn', hw', hwbody, hwnext⟩ := hwritten
    cases heq
    obtain rfl : n = n' := Option.some.inj (hn.symm.trans hn')
    obtain ⟨-, -, -, hpvalue, hpbody, hpnext⟩ := hp
    obtain ⟨habsent, htvalue, hdone, htbody, htnext⟩ := ht
    rw [List.forall_mem_cons] at hb
    -- a bound that suffices for a node leaves one that suffices for its children
    obtain ⟨b, rfl⟩ := hw.exists_bound hn hb.1
    have hoperand (i : String) : w.operand (w.exprUpTo b) n i = value i := by
      by_cases hi : i ∈ n.kind.definition.shape.valueInputs n.mutation
      · obtain ⟨y, hy, hstands⟩ := hvalues i hi
        obtain ⟨-, m, hm, hparent, -⟩ := hw.value_target hn hy
        rw [operand, hy, Option.bind_some, hm]
        exact hstands.exprUpTo_eq hw (hpvalue i hi) (htvalue i) hm
          (hw.suffices_child hparent hb.1)
      · rw [hw.operand_absent hn hi, habsent i hi]
    have hbody (i : String) : scriptUpTo s w b (n.statements i) = body i := by
      by_cases hi : i ∈ n.kind.definition.shape.statementInputs n.mutation
      · obtain ⟨children, hc, hstands⟩ := hbodies i hi
        have hstatements : n.statements i = children := by rw [Node.statements, hc]
        refine ihb i (hstatements ▸ hstands) (hpbody i hi) (htbody i) (hwbody i hi) fun y hy => ?_
        obtain ⟨-, m, -, hparent, -⟩ := hw.statement_child hn hy
        exact hw.suffices_child hparent hb.1
      · rw [hw.statements_nil hn hi, scriptUpTo_nil, hdone i hi]
    have hrest := ih hnext hpnext htnext hwnext hb.2
    rw [scriptUpTo] at hrest ⊢
    rw [List.foldr_cons, hrest, front, hn]
    simp only [hw', if_true]
    rw [funext hoperand, funext hbody]

/-- A workspace shows the program that stands at its roots. -/
theorem Script.Stands.emitted_eq {t : Script} (h : t.Stands w lo hi w.roots) (hw : Orderly w)
    (hp : t.Proper true) (ht : t.Tight) (hwritten : t.Written s w w.roots) :
    emitted s w = t :=
  h.scriptUpTo_eq hw hp ht hwritten fun x _ => w.suffices_size x

end BlockText

import BlockText.Proofs.Emission
import BlockText.Proofs.History

/-!
# Expressions and back

The text of a value is read into nodes that mirror those it was written from: the same kinds with
the same fields, a literal for each operand that was not there, and the same below each operand that
was. Where an operand stands, as the child of its input or as the default, the mirror leaves open:
the reader makes a literal the default wherever the default is of its kind.
-/

namespace BlockText

open Workspace Program

variable {s : Setup} {w u v : Workspace} {x y lo hi : NodeId} {n : Node} {bound : Nat}

namespace Workspace

/-- A node is a literal. -/
def IsLiteral (v : Workspace) (s : ShadowSpec) (y : NodeId) : Prop :=
  ∃ m, v.get? y = some m ∧ m.kind = s.kind ∧ m.fields = SortedMap.empty.insert s.field s.value

/-- The expression at a node of `v` is the one at a node of `w`, with all zeros positive and with a
literal in each value input that shows nothing. -/
inductive Mirrors (w v : Workspace) : NodeId → NodeId → Prop
  | block {x y : NodeId} {n m : Node} (node : w.get? x = some n) (mirror : v.get? y = some m)
      (kind : m.kind = n.kind) (fields : m.fields = n.fields.map fun _ f => f.plain)
      (mutation : m.mutation = n.mutation) (target : String → NodeId)
      (full : ∀ i ∈ n.kind.definition.shape.valueInputs n.mutation,
        m.valueTarget? i = some (target i))
      (shown : ∀ i x', n.valueTarget? i = some x' → Mirrors w v x' (target i))
      (empty : ∀ i check, n.kind.definition.shape.check? n.mutation i = some check →
        n.valueTarget? i = none → v.IsLiteral check.literal (target i)) : Mirrors w v x y

end Workspace

theorem ShadowSpec.isLiteral_of_stands {spec : ShadowSpec} (h : spec.expr.Stands v lo hi y) :
    v.IsLiteral spec y := by
  obtain ⟨-, -, m, hm, hkind, hfields, -⟩ := h
  exact ⟨m, hm, hkind, hfields⟩

/-- Where the expression at a node of `w` stands in `v`, the node is mirrored. -/
theorem Orderly.mirrors (h : Orderly w) (hn : w.get? x = some n)
    (hv : n.kind.definition.shape.role.isValue = true) (hb : w.Suffices bound x)
    (hstands : (w.exprUpTo bound n).Stands v lo hi y) : w.Mirrors v x y := by
  induction bound generalizing x n y with
  | zero => exact hstands.elim
  | succ bound ih =>
    have hmut := h.mutation_value hn hv
    obtain ⟨-, -, m, hm, hkind, hfields, hmutation, hvalues⟩ := hstands
    choose! target htarget hoperand using hvalues
    refine .block hn hm hkind hfields (hmutation.trans hmut.symm) target (fun i hi => ?_)
      (fun i x' hx' => ?_) fun i check hcheck hnone => ?_
    · rw [hmut] at hi
      exact htarget i hi
    · obtain ⟨hi, k, hk, hp, hrole⟩ := h.value_target hn hx'
      have hst := hoperand i (hmut ▸ hi)
      rw [operand, hx', Option.bind_some, hk] at hst
      exact ih hk hrole (h.suffices_child hp hb) hst
    · have hi : i ∈ n.kind.definition.shape.valueInputs n.mutation :=
        Shape.check?_isSome.mp (Option.isSome_of_eq_some hcheck)
      have hst := hoperand i (hmut ▸ hi)
      rw [operand, hnone, Option.bind_none, hcheck] at hst
      exact ShadowSpec.isLiteral_of_stands hst

/-- A value is read back from its text, in whatever was read before: the node that is made and what
stands below it mirror the value, and nothing else changes. -/
theorem Program.readExpression_render (h : Orderly w) (hr : s.registry = .builtin)
    (hn : w.get? x = some n) (hv : n.kind.definition.shape.role.isValue = true)
    (hb : w.Suffices bound x) {loose : List NodeId} (hu : Tidy .builtin u loose) (line : Nat) :
    ∃ v, readExpression .builtin line (render s w bound n) u = .ok (v, u.nextId) ∧
      w.Mirrors v x u.nextId ∧ u.Extends v ∧ Tidy .builtin v (u.nextId :: loose) := by
  have htext := h.text_exprUpTo (s := s) hr bound hn hv
  obtain ⟨v, hread, hreads⟩ := Expr.read_ok (h.proper_exprUpTo hn hv hb)
    (Nat.lt_succ_self _) hu line
  rw [htext] at hread
  exact ⟨v, hread, h.mirrors hn hv hb hreads.stands, hreads.grown, hreads.tidy⟩

/-- A comparison of a text that has an operator in it with a negative zero, beside an operand that
is not there. -/
theorem Program.readExpression_render_nested :
    ∃ w n, Orderly w ∧ w.get? 0 = some n ∧
      render {} w (w.size + 1) n = "((\"1 or \\\"(\" == 0) and False)".toList ∧
      ∃ v, readExpression .builtin 7 (render {} w (w.size + 1) n) {} = .ok (v, 0) ∧
        w.Mirrors v 0 0 := by
  have h1 : History .builtin _ := .change (.edit (.create "logic_operation" [] none)) .start trivial
  have h2 := h1.change (.edit (.create "logic_compare" [] none)) trivial
  have h3 := h2.change (.edit (.connectValue 0 "A" 1))
    (show Workspace.child? _ 0 "A" ≠ some 1 by decide +kernel)
  have h4 := h3.change (.edit (.create "text" [("TEXT", .text "1 or \"(")] none)) trivial
  have h5 := h4.change (.edit (.connectValue 1 "A" 4))
    (show Workspace.child? _ 1 "A" ≠ some 4 by decide +kernel)
  have h6 := h5.change (.edit (.setField 3 "NUM" (.number (.neg 0)))) trivial
  obtain ⟨w, hw, hshown⟩ : ∃ w, Orderly w ∧
      (w.get? 0).map (fun n => (n.kind, render {} w (w.size + 1) n)) =
        some (.logicOperation, "((\"1 or \\\"(\" == 0) and False)".toList) :=
    ⟨_, (h6.tidy Registry.sound_builtin).orderly, by decide +kernel⟩
  obtain ⟨n, hn, hpair⟩ := Option.map_eq_some_iff.mp hshown
  obtain ⟨hkind, htext⟩ := Prod.mk.inj hpair
  obtain ⟨v, hread, hmirrors, -⟩ := readExpression_render (s := {}) hw rfl hn
    (by rw [hkind]; rfl) (w.suffices_size 0) (u := {}) .empty 7
  exact ⟨w, n, hw, hn, htext, v, hread, hmirrors⟩

end BlockText

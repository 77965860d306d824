import BlockText.Proofs.Making
import Mathlib.Data.List.Pairwise

/-!
# The inputs of a conditional

The inputs of a conditional have names of their own, so each slot is found by its name, and no node
stands in two of them.
-/

namespace BlockText

/-! ## The names of the inputs -/

namespace Conditional

theorem toString_injective {i j : Nat} (h : toString i = toString j) : i = j := by
  have hdigits : Nat.toDigits 10 i = Nat.toDigits 10 j := by
    have := congrArg String.toList h
    simpa [toString, Nat.repr] using this
  rw [← Nat.ofDigitChars_toDigits (b := 10) (n := i) (by omega) (by omega), hdigits,
    Nat.ofDigitChars_toDigits (by omega) (by omega)]

theorem condition_inj {i j : Nat} : condition i = condition j ↔ i = j :=
  ⟨fun h => toString_injective ((String.append_right_inj _).mp h), congrArg _⟩

theorem body_inj {i j : Nat} : body i = body j ↔ i = j :=
  ⟨fun h => toString_injective ((String.append_right_inj _).mp h), congrArg _⟩

/-- Names that differ in their first letter. -/
theorem append_ne {s t : String} (a b : String) (h : s.toList.head? ≠ t.toList.head?)
    (hs : s.toList ≠ []) (ht : t.toList ≠ []) : s ++ a ≠ t ++ b := by
  intro he
  have he := congrArg (fun x => x.toList.head?) he
  obtain ⟨c, cs, hs⟩ := List.exists_cons_of_ne_nil hs
  obtain ⟨d, ds, ht⟩ := List.exists_cons_of_ne_nil ht
  simp [hs, ht] at he h
  exact h he

theorem body_ne_condition (i j : Nat) : body i ≠ condition j :=
  append_ne _ _ (by decide) (by decide) (by decide)

theorem otherwise_ne_condition (i : Nat) : otherwise ≠ condition i := by
  have := append_ne (s := "ELSE") (t := "IF") "" (toString i) (by decide) (by decide) (by decide)
  simpa [otherwise, condition] using this

theorem otherwise_ne_body (i : Nat) : otherwise ≠ body i := by
  have := append_ne (s := "ELSE") (t := "DO") "" (toString i) (by decide) (by decide) (by decide)
  simpa [otherwise, body] using this

/-- The names of the inputs of a conditional. -/
def names (m : Mutation) : List String :=
  (List.range m.branches).flatMap (fun i => [condition i, body i]) ++
    if m.hasElse then [otherwise] else []

theorem map_name_inputs (m : Mutation) : (inputs m).map InputSpec.name = names m := by
  simp only [inputs, names, List.map_append, List.map_flatMap]
  cases m.hasElse <;> rfl

theorem nodup_names (m : Mutation) : (names m).Nodup := by
  have hhead : ((List.range m.branches).flatMap fun i => [condition i, body i]).Nodup := by
    refine List.nodup_flatMap.mpr ⟨fun i _ => ?_, ?_⟩
    · simpa using (body_ne_condition i i).symm
    · refine (List.nodup_range (n := m.branches)).imp fun {i j} hij x hi hj => ?_
      simp only [List.mem_cons, List.not_mem_nil, or_false] at hi hj
      rcases hi with rfl | rfl <;> rcases hj with hj | hj
      · exact hij (condition_inj.mp hj)
      · exact body_ne_condition j i hj.symm
      · exact body_ne_condition i j hj
      · exact hij (body_inj.mp hj)
  refine List.nodup_append'.mpr ⟨hhead, ?_, ?_⟩
  · cases m.hasElse <;> simp
  · intro x hx hy
    have hy : x = otherwise := by
      cases hm : m.hasElse <;> simp [hm] at hy
      exact hy
    subst hy
    obtain ⟨i, -, hi⟩ := List.mem_flatMap.mp hx
    simp only [List.mem_cons, List.not_mem_nil, or_false] at hi
    rcases hi with hi | hi
    · exact otherwise_ne_condition i hi
    · exact otherwise_ne_body i hi

end Conditional

/-! ## The slots of a node -/

namespace Laid

variable {P : InputSpec → Slot → Prop} {specs : List InputSpec} {inputs : List Input}

theorem map_name (h : Laid P specs inputs) :
    inputs.map (·.name) = specs.map InputSpec.name := by
  induction h with
  | nil => rfl
  | cons hi _ ih => rw [List.map_cons, List.map_cons, ih, hi.1]

/-- An input of the layout is found by its name, if the names differ. -/
theorem find? (h : Laid P specs inputs) (hnd : (specs.map InputSpec.name).Nodup)
    {spec : InputSpec} (hs : spec ∈ specs) :
    ∃ i, inputs.find? (fun i => i.name == spec.name) = some i ∧ P spec i.slot := by
  induction h with
  | nil => cases hs
  | @cons first i specs inputs hi h ih =>
    rw [List.map_cons, List.nodup_cons] at hnd
    rcases List.mem_cons.mp hs with rfl | hs
    · exact ⟨i, by simp [hi.1], hi.2⟩
    · obtain ⟨k, hk, hP⟩ := ih hnd.2 hs
      have hne : (i.name == spec.name) = false := by
        rw [hi.1, beq_eq_false_iff_ne]
        intro he
        exact hnd.1 (he ▸ List.mem_map.mpr ⟨spec, hs, rfl⟩)
      exact ⟨k, by rw [List.find?_cons, hne]; exact hk, hP⟩

theorem slot? {n : Node} (h : Laid P specs n.inputs) (hnd : (specs.map InputSpec.name).Nodup)
    {spec : InputSpec} (hs : spec ∈ specs) : ∃ s, n.slot? spec.name = some s ∧ P spec s := by
  obtain ⟨k, hk, hP⟩ := h.find? hnd hs
  exact ⟨k.slot, by simp [Node.slot?, Node.input?, hk], hP⟩

end Laid

namespace Node

variable {n : Node} {a b : String} {x : NodeId}

/-- What stands in the first input with a name. -/
def ownedIn (n : Node) (name : String) : List NodeId := (n.slot? name).elim [] Slot.owned

theorem mem_ownedIn : x ∈ n.ownedIn a ↔ ∃ s, n.slot? a = some s ∧ x ∈ s.owned := by
  rw [ownedIn]
  cases n.slot? a <;> simp

theorem owned_of_ownedIn (h : x ∈ n.ownedIn a) : x ∈ n.owned := by
  obtain ⟨s, hs, hx⟩ := mem_ownedIn.mp h
  exact owned_of_slot? hs hx

/-- If no node is owned twice, no node stands in two inputs. -/
theorem input_unique (hnd : n.owned.Nodup) {i j : Input} (hi : i ∈ n.inputs) (hj : j ∈ n.inputs)
    (hxi : x ∈ i.slot.owned) (hxj : x ∈ j.slot.owned) : i = j := by
  by_contra hij
  have : Std.Symm (Function.onFun List.Disjoint fun i : Input => i.slot.owned) :=
    ⟨fun _ _ h _ hx hy => h hy hx⟩
  exact (List.nodup_flatMap.mp hnd).2.forall hi hj hij hxi hxj

theorem ownedIn_inj (hnd : n.owned.Nodup) (ha : x ∈ n.ownedIn a) (hb : x ∈ n.ownedIn b) :
    a = b := by
  obtain ⟨s, hs, hxs⟩ := mem_ownedIn.mp ha
  obtain ⟨t, ht, hxt⟩ := mem_ownedIn.mp hb
  obtain ⟨i, hi, rfl, rfl⟩ := slot?_mem hs
  obtain ⟨j, hj, rfl, rfl⟩ := slot?_mem ht
  exact congrArg Input.name (input_unique hnd hi hj hxs hxt)

theorem nodup_slot (hnd : n.owned.Nodup) {s : Slot} (hs : n.slot? a = some s) : s.owned.Nodup := by
  obtain ⟨i, hi, -, rfl⟩ := slot?_mem hs
  exact (List.nodup_flatMap.mp hnd).1 i hi

section Layout

variable {P : InputSpec → Slot → Prop} {m : Mutation} {i : Nat}
  (h : Laid P (Conditional.inputs m) n.inputs)

include h

theorem slot?_of_mem_inputs (spec : InputSpec) (hs : spec ∈ Conditional.inputs m) :
    ∃ s, n.slot? spec.name = some s ∧ P spec s :=
  h.slot? (Conditional.map_name_inputs m ▸ Conditional.nodup_names m) hs

theorem slot?_condition (hi : i < m.branches) : ∃ s, n.slot? (Conditional.condition i) = some s ∧
    P (.value (Conditional.condition i) .boolean (some (.boolean true))) s := by
  refine slot?_of_mem_inputs h (.value _ _ _)
    (List.mem_append_left _ (List.mem_flatMap.mpr ⟨i, ?_, ?_⟩))
  · exact List.mem_range.mpr hi
  · exact List.mem_cons_self

theorem slot?_body (hi : i < m.branches) : ∃ s, n.slot? (Conditional.body i) = some s ∧
    P (.statement (Conditional.body i)) s := by
  refine slot?_of_mem_inputs h (.statement _)
    (List.mem_append_left _ (List.mem_flatMap.mpr ⟨i, ?_, ?_⟩))
  · exact List.mem_range.mpr hi
  · exact List.mem_cons_of_mem _ List.mem_cons_self

theorem slot?_otherwise (hm : m.hasElse = true) :
    ∃ s, n.slot? Conditional.otherwise = some s ∧ P (.statement Conditional.otherwise) s := by
  refine slot?_of_mem_inputs h (.statement _) (List.mem_append_right _ ?_)
  rw [if_pos hm]
  exact List.mem_cons_self

theorem statements_otherwise (hm : m.hasElse = false) :
    n.statements Conditional.otherwise = [] := by
  have hnone : n.slot? Conditional.otherwise = none := by
    rw [slot?, input?, Option.map_eq_none_iff, List.find?_eq_none]
    intro k hk hname
    have hmem : Conditional.otherwise ∈ Conditional.names m := by
      rw [← Conditional.map_name_inputs, ← h.map_name, ← eq_of_beq hname]
      exact List.mem_map.mpr ⟨k, hk, rfl⟩
    rw [Conditional.names, hm] at hmem
    simp only [Bool.false_eq_true, if_false, List.append_nil] at hmem
    obtain ⟨j, -, hj⟩ := List.mem_flatMap.mp hmem
    simp only [List.mem_cons, List.not_mem_nil, or_false] at hj
    rcases hj with hj | hj
    · exact Conditional.otherwise_ne_condition j hj
    · exact Conditional.otherwise_ne_body j hj
  simp [statements, hnone]

end Layout

end Node

/-- What stands in a slot, but for its default. -/
def Slot.real : Slot → List NodeId
  | .value child _ => child.toList
  | .statements children => children

theorem Slot.real_subset {s : Slot} {x : NodeId} (h : x ∈ s.real) : x ∈ s.owned := by
  cases s with
  | value child shadow => exact List.mem_append_left _ h
  | statements children => exact h

end BlockText

import BlockText.Proofs.Transitions

/-!
# Widening a conditional

A conditional that gets more branches, or an `else`, and then its old mutation again is what it was.
On the way there every branch stays, so nothing is released and only fresh defaults come in. On the
way back the branches that go hold nothing but these defaults: they are all that came in, and all of
it has left again. A change of mutation spends an id for each branch that it ends with, so with that
many ids left both ways can be gone.
-/

namespace BlockText

open Wiring Workspace

/-! ## Conditionals with the same branches -/

namespace Node

variable {n m : Node} {old : Mutation} {role? role?' : NodeId → Option Role}

theorem slot_of_otherwise (h : Laid (Slot.Fits role?) (Conditional.inputs old) n.inputs)
    (hm : old.hasElse = true) :
    n.slot? Conditional.otherwise = some (.statements (n.statements Conditional.otherwise)) := by
  obtain ⟨s, hs, hf⟩ := slot?_otherwise h hm
  cases s with
  | value _ _ => exact hf.elim
  | statements cs => rw [statements, hs]

/-- Two conditionals with the same mutation, the same branches and the same `else` have the same
inputs. -/
theorem inputs_eq_of_branches (hn : Laid (Slot.Fits role?) (Conditional.inputs old) n.inputs)
    (hm : Laid (Slot.Fits role?') (Conditional.inputs old) m.inputs)
    (hbranch : ∀ j < old.branches, m.branch j = n.branch j)
    (helse : old.hasElse = true →
      m.statements Conditional.otherwise = n.statements Conditional.otherwise) :
    m.inputs = n.inputs := by
  have hnames : m.inputs.map (·.name) = n.inputs.map (·.name) := hm.map_name.trans hn.map_name.symm
  have hslots : ∀ name ∈ Conditional.names old, m.slot? name = n.slot? name := by
    intro name hname
    rcases List.mem_append.mp hname with hname | hname
    · obtain ⟨j, hj, hname⟩ := List.mem_flatMap.mp hname
      have hj := List.mem_range.mp hj
      obtain ⟨hcm, hbm⟩ := slots_of_branch hm hj
      obtain ⟨hcn, hbn⟩ := slots_of_branch hn hj
      rw [hbranch j hj] at hcm hbm
      simp only [List.mem_cons, List.not_mem_nil, or_false] at hname
      rcases hname with rfl | rfl
      · rw [hcm, hcn]
      · rw [hbm, hbn]
    · cases hold : old.hasElse with
      | false => simp [hold] at hname
      | true =>
        obtain rfl : name = Conditional.otherwise := by simpa [hold] using hname
        rw [slot_of_otherwise hm hold, slot_of_otherwise hn hold, helse hold]
  have hlength : m.inputs.length = n.inputs.length := by simpa using congrArg List.length hnames
  -- inputs at the same place have the same name, and a name determines its slot
  refine List.ext_getElem hlength fun k hkm hkn => ?_
  have hname : m.inputs[k].name = n.inputs[k].name := by
    have := congrArg (fun names : List String => names[k]?) hnames
    simpa [hkm, hkn] using this
  have hmem : n.inputs[k].name ∈ Conditional.names old := by
    rw [← Conditional.map_name_inputs, ← hn.map_name]
    exact List.mem_map.mpr ⟨_, List.getElem_mem hkn, rfl⟩
  have hslot : some m.inputs[k].slot = some n.inputs[k].slot := by
    rw [← slot?_of_mem (nodup_input_names hm) (List.getElem_mem hkm),
      ← slot?_of_mem (nodup_input_names hn) (List.getElem_mem hkn), hname, hslots _ hmem]
  cases hi : m.inputs[k] with
  | mk a s =>
    cases hk : n.inputs[k] with
    | mk b t =>
      rw [hi, hk] at hname hslot
      rw [show a = b from hname, show s = t from Option.some.inj hslot]

end Node

/-! ## A change of mutation from start to end -/

/-- A branch that a mutation has stays where it is. -/
theorem Transition.place_of_lt {target : Mutation} {j : Nat} (h : j < target.branches) :
    (Transition.reshape target).place j = some j :=
  if_pos h

/-- The moves make no nodes. -/
theorem Workspace.nextId_foldl_carry (id : NodeId) (ms : List Move) (w : Workspace) :
    (ms.foldl (Workspace.carry id) w).nextId = w.nextId := by
  induction ms generalizing w with
  | nil => rfl
  | cons mv ms ih =>
    rw [List.foldl_cons, ih]
    cases mv with
    | shadow input c => exact w.nextId_setShadow id input c
    | release c => exact w.nextId_pushRoot c
    | value _ _ | statement _ _ | discard _ => rfl

theorem length_defaultNodes (r : Registry) (owner : NodeId) (specs : List InputSpec)
    (first : NodeId) : (defaultNodes r owner specs first).length =
      (specs.filterMap InputSpec.default?).length := by
  fun_induction defaultNodes r owner specs first with
  | case1 => rfl
  | case2 name check s specs first ih => exact congrArg (· + 1) ih
  | case3 name check specs first ih => exact ih
  | case4 name specs first ih => exact ih

/-- Each condition has a default. -/
theorem Conditional.length_defaults (m : Mutation) :
    ((inputs m).filterMap InputSpec.default?).length = m.branches := by
  rw [inputs, List.filterMap_append, List.filterMap_flatMap]
  simp only [List.filterMap_cons, InputSpec.default?, List.filterMap_nil]
  split <;> simp [InputSpec.default?]

theorem mutation_of_get? {w : Workspace} {id : NodeId} {n : Node} {m : Mutation}
    (hn : w.get? id = some n) (hm : n.mutation = some m) : w.mutation id = .ok m := by
  simp [Workspace.mutation, Workspace.node, hn, hm]

/-- A conditional of a well-formed workspace can be given any mutation, at the cost of one id for
each branch. -/
theorem Tidy.reshape_ok {r : Registry} {w : Workspace} {id : NodeId} {n : Node} {old : Mutation}
    (hr : r.Sound) (h : Tidy r w) (hn : w.get? id = some n) (hm : n.mutation = some old)
    (target : Mutation) :
    ∃ m loose, (w.reshape r id target).answer = .ok loose ∧
      Rebranched r w (w.reshape r id target).workspace id n m old target
        (Transition.reshape target).place loose ∧
      w.nextId ≤ (w.reshape r id target).workspace.nextId ∧
      (w.reshape r id target).workspace.nextId ≤ w.nextId + target.branches := by
  obtain ⟨d, hd, hl⟩ := h.branching hn hm
  have hmutation := mutation_of_get? hn hm
  have hreshape : w.reshape r id target = w.changeShape r id target
      (Transition.reshape target).place (old.hasElse && target.hasElse) := by
    simp only [Workspace.reshape, hmutation]
    rfl
  by_cases hne : old = target
  · subst hne
    have hsame : w.reshape r id old = ⟨w, .ok [], []⟩ := by
      simp [hreshape, changeShape, Workspace.node, hn, hm]
    rw [hsame]
    exact ⟨n, [], rfl, .refl h hn hm fun j hj => Transition.place_of_lt hj, Nat.le_refl _,
      Nat.le_add_right _ _⟩
  -- every default can be made, since a sound registry has the kind of each
  · have hmake := makeUpTo_default hr hd (some target) r.definitions.length id
    rw [Shape.inputsFor, hl] at hmake
    have he := reshaped_of_build (old.hasElse && target.hasElse) h.forest h.below hn hm hne hd hl
      ((Transition.reshape target).nodup_place _) (buildInputs_eq id w hmake)
    obtain ⟨m, hm'⟩ := h.rebranched hr (Transition.reshape target).place_injective
      (fun htarget hkeep => by rwa [htarget, Bool.and_true] at hkeep) he
    rw [← hreshape] at he hm'
    have hnext : (w.reshape r id target).workspace.nextId = w.nextId + target.branches := by
      rw [he.outcome]
      simp only [nextId_foldl_carry, Workspace.refurnish, nextId_furnish, length_defaultNodes,
        Conditional.length_defaults]
    refine ⟨m, _, by rw [he.outcome], hm'.congr fun j hj => ?_, ?_, Nat.le_of_eq hnext⟩
    · simp only [Node.goesTo, Transition.place]
      grind
    · rw [hnext]
      exact Nat.le_add_right _ _

/-! ## There and back -/

/-- A mutation with no fewer branches, and with an `else` if the other one has it. -/
structure Mutation.Covers (wide narrow : Mutation) : Prop where
  elseIfs : narrow.elseIfs ≤ wide.elseIfs
  hasElse : narrow.hasElse = true → wide.hasElse = true

theorem Mutation.Covers.branches {wide narrow : Mutation} (h : wide.Covers narrow) :
    narrow.branches ≤ wide.branches :=
  Nat.add_le_add_right h.elseIfs 1

namespace Rebranched

variable {r : Registry} {w v u : Workspace} {id x : NodeId} {n m l : Node}
  {narrow wide : Mutation} {loose loose' : List NodeId}

section

variable (hcovers : wide.Covers narrow)
  (there : Rebranched r w v id n m narrow wide (Transition.reshape wide).place loose)
include hcovers there

theorem branch_widened {j : Nat} (hj : j < narrow.branches) : m.branch j = n.branch j :=
  there.stays j hj j (Transition.place_of_lt (Nat.lt_of_lt_of_le hj hcovers.branches))

theorem branch_fresh {j : Nat} (hj : j < wide.branches) (hge : ¬ j < narrow.branches) :
    ∃ s, w.nextId ≤ s ∧ m.branch j = ⟨none, some s, []⟩ := by
  refine there.fresh j hj fun i hi hplace => ?_
  rw [Transition.place_of_lt (Nat.lt_of_lt_of_le hi hcovers.branches), Option.some.injEq] at hplace
  omega

/-- Nothing hangs on an `else` that only the wide mutation has. -/
theorem otherwise_widened
    (hlaid : Laid (Slot.Fits (w.role? r)) (Conditional.inputs narrow) n.inputs) :
    m.statements Conditional.otherwise = n.statements Conditional.otherwise := by
  cases hwide : wide.hasElse with
  | true => exact there.otherwise hwide
  | false =>
    have hnarrow : narrow.hasElse = false := by
      by_contra hnarrow
      rw [hcovers.hasElse (by simpa using hnarrow)] at hwide
      cases hwide
    rw [Node.statements_otherwise there.layout hwide, Node.statements_otherwise hlaid hnarrow]

/-- A wider mutation releases nothing. -/
theorem released_widened
    (hlaid : Laid (Slot.Fits (w.role? r)) (Conditional.inputs narrow) n.inputs) : loose = [] := by
  rw [there.released, List.append_eq_nil_iff, List.flatMap_eq_nil_iff]
  refine ⟨fun j hj => ?_, ?_⟩
  · rw [Transition.place_of_lt (Nat.lt_of_lt_of_le (List.mem_range.mp hj) hcovers.branches)]
    rfl
  · cases hwide : wide.hasElse with
    | true => rfl
    | false =>
      rw [← there.otherwise_widened hcovers hlaid, Node.statements_otherwise there.layout hwide]
      rfl

/-- On the way back nothing is released either, for what goes was empty. -/
theorem released_back
    (hlaid : Laid (Slot.Fits (w.role? r)) (Conditional.inputs narrow) n.inputs)
    (back : Rebranched r v u id m l wide narrow (Transition.reshape narrow).place loose') :
    loose' = [] := by
  rw [back.released, List.append_eq_nil_iff, List.flatMap_eq_nil_iff]
  refine ⟨fun j hj => ?_, ?_⟩
  · by_cases hlt : j < narrow.branches
    · rw [Transition.place_of_lt hlt]
      rfl
    · obtain ⟨s, -, hempty⟩ := there.branch_fresh hcovers (List.mem_range.mp hj) hlt
      simp [hempty]
  · cases hnarrow : narrow.hasElse with
    | true => rfl
    | false =>
      rw [there.otherwise_widened hcovers hlaid, Node.statements_otherwise hlaid hnarrow]
      rfl

end

/-- A conditional that was widened and got its old mutation again is the conditional that it was. -/
theorem node_back (hcovers : wide.Covers narrow)
    (hlaid : Laid (Slot.Fits (w.role? r)) (Conditional.inputs narrow) n.inputs)
    (hm : n.mutation = some narrow)
    (there : Rebranched r w v id n m narrow wide (Transition.reshape wide).place loose)
    (back : Rebranched r v u id m l wide narrow (Transition.reshape narrow).place loose') :
    l = n := by
  have hinputs : l.inputs = n.inputs := by
    refine Node.inputs_eq_of_branches hlaid back.layout (fun j hj => ?_) fun helse => ?_
    · have hstays := back.stays j (Nat.lt_of_lt_of_le hj hcovers.branches) j
        (Transition.place_of_lt hj)
      rw [hstays, there.branch_widened hcovers hj]
    · rw [back.otherwise helse, there.otherwise_widened hcovers hlaid]
  rw [back.node.2, there.node.2, hinputs, ← hm]

/-- The nodes after the way back are those before the way there. -/
theorem get?_back (hw : Tidy r w) (hcovers : wide.Covers narrow) (hn : w.get? id = some n)
    (hm : n.mutation = some narrow)
    (there : Rebranched r w v id n m narrow wide (Transition.reshape wide).place [])
    (back : Rebranched r v u id m l wide narrow (Transition.reshape narrow).place []) :
    u.get? x = w.get? x := by
  by_cases hx : x = id
  · rw [hx, back.node.1, hn, node_back hcovers (hw.laid_mutation hn hm) hm there back]
  cases hk : w.get? x with
  | some k =>
    have hthere : v.get? x = some k := by
      refine there.others x k hk hx List.not_mem_nil fun j hj hplace => ?_
      rw [Transition.place_of_lt (Nat.lt_of_lt_of_le hj hcovers.branches)] at hplace
      cases hplace
    refine back.others x k hthere hx List.not_mem_nil fun j hj hplace hs => ?_
    have hge : ¬ j < narrow.branches := fun hlt => by
      rw [Transition.place_of_lt hlt] at hplace
      cases hplace
    -- the default of a branch that goes is younger than every node of `w`
    obtain ⟨s, hfresh, hempty⟩ := there.branch_fresh hcovers hj hge
    obtain rfl : s = x := by simpa [hempty] using hs
    exact Nat.lt_irrefl _ (Nat.lt_of_lt_of_le (hw.below s k hk) hfresh)
  | none =>
    by_contra hu
    cases hv : v.get? x with
    | some k =>
      -- what came in stands in a branch that goes
      obtain ⟨j, hj, hnew, hs⟩ := (there.new x).mp ⟨hk, by simp [hv]⟩
      have hge : ¬ j < narrow.branches := fun hlt =>
        hnew j hlt (Transition.place_of_lt (Nat.lt_of_lt_of_le hlt hcovers.branches))
      exact hu (back.gone j hj (if_neg hge) x hs)
    | none =>
      -- and on the way back no branch is new
      obtain ⟨j, hj, hnew, -⟩ := (back.new x).mp ⟨hv, hu⟩
      exact hnew j (Nat.lt_of_lt_of_le hj hcovers.branches) (Transition.place_of_lt hj)

end Rebranched

/-- Widening a conditional and going back to its old mutation releases nothing, and gives back the
workspace but for the ids that were used up. -/
theorem Tidy.reshape_back {r : Registry} {w : Workspace} {id : NodeId} {n : Node}
    {narrow wide : Mutation} (hr : r.Sound) (hw : Tidy r w) (hn : w.get? id = some n)
    (hm : n.mutation = some narrow) (hcovers : wide.Covers narrow) :
    (w.reshape r id wide).answer = .ok [] ∧
      ((w.reshape r id wide).workspace.reshape r id narrow).answer = .ok [] ∧
      ∃ next, w.nextId ≤ next ∧
        ((w.reshape r id wide).workspace.reshape r id narrow).workspace =
          { w with nextId := next } := by
  have hlaid := hw.laid_mutation hn hm
  have hv : Tidy r (w.reshape r id wide).workspace := hw.reshape hr
  obtain ⟨m, loose, hthere, there, hnext, -⟩ := hw.reshape_ok hr hn hm wide
  have hwide : m.mutation = some wide := congrArg Node.mutation there.node.2
  obtain ⟨l, loose', hback, back, hnext', -⟩ := hv.reshape_ok hr there.node.1 hwide narrow
  obtain rfl := there.released_widened hcovers hlaid
  obtain rfl := there.released_back hcovers hlaid back
  refine ⟨hthere, hback, _, Nat.le_trans hnext hnext', eq_of_get? (fun x => ?_) ?_ rfl⟩
  · exact (there.get?_back hw hcovers hn hm back : _ = w.get? x)
  · rw [back.roots, there.roots, List.append_nil, List.append_nil]

/-! ## Enough ids -/

/-- There are more counts than ids. -/
theorem Mutation.isCountable_of_lt {m : Mutation} (h : m.branches < NodeId.limit) :
    m.isCountable = true :=
  decide_eq_true (Nat.lt_trans h (by decide))

/-- A conditional goes to another mutation if there is an id for each branch. -/
theorem Tidy.reshape_some {r : Registry} {w : Workspace} {id : NodeId} {n : Node} {old : Mutation}
    (hr : r.Sound) (h : Tidy r w) (hn : w.get? id = some n) (hm : n.mutation = some old)
    {target : Mutation} (hold : old.branches < NodeId.limit)
    (hroom : w.nextId + target.branches < NodeId.limit) :
    (Edit.reshape id target).run? r w = some ((w.reshape r id target).map .nodes) := by
  obtain ⟨m, loose, -, -, -, hnext⟩ := h.reshape_ok hr hn hm target
  refine Edit.run?_eq_some.mpr ⟨?_, Nat.lt_of_le_of_lt hnext hroom, rfl⟩
  have htarget : target.branches < NodeId.limit := Nat.lt_of_le_of_lt (Nat.le_add_left _ _) hroom
  simp [Edit.counted, Edit.mutations, mutation_of_get? hn hm, Mutation.isCountable_of_lt hold,
    Mutation.isCountable_of_lt htarget]

/-- A conditional gets a wider mutation, and then its old one again. If there are ids for all the
branches, both edits have an outcome; and whenever they have, nothing is released, and the workspace
is the same but for the ids that were used up. -/
theorem Workspace.reshape_reshape {r : Registry} {w : Workspace} {id : NodeId} {n : Node}
    {narrow wide : Mutation} (hr : r.Sound) (h : WellFormed r w) (hn : w.get? id = some n)
    (hm : n.mutation = some narrow) (hcovers : wide.Covers narrow) :
    (w.nextId + wide.branches + narrow.branches < NodeId.limit →
      ∃ there back, (Edit.reshape id wide).run? r w = some there ∧
        (Edit.reshape id narrow).run? r there.workspace = some back) ∧
    ∀ there back, (Edit.reshape id wide).run? r w = some there →
      (Edit.reshape id narrow).run? r there.workspace = some back →
        there.answer = .ok (.nodes []) ∧ back.answer = .ok (.nodes []) ∧
          ∃ next, w.nextId ≤ next ∧ back.workspace = { w with nextId := next } := by
  have hw := h.tidy
  refine ⟨fun hroom => ?_, fun there back hthere hback => ?_⟩
  · obtain ⟨m, _, -, hchanged, -, hnext⟩ := hw.reshape_ok hr hn hm wide
    have hwide : m.mutation = some wide := congrArg Node.mutation hchanged.node.2
    have hnarrow : narrow.branches < NodeId.limit :=
      Nat.lt_of_le_of_lt (Nat.le_add_left _ _) hroom
    have hthere : w.nextId + wide.branches < NodeId.limit :=
      Nat.lt_of_le_of_lt (Nat.le_add_right _ _) hroom
    have hback : (w.reshape r id wide).workspace.nextId + narrow.branches < NodeId.limit :=
      Nat.lt_of_le_of_lt (Nat.add_le_add_right hnext _) hroom
    exact ⟨_, _, hw.reshape_some hr hn hm hnarrow hthere,
      (hw.reshape hr).reshape_some hr hchanged.node.1 hwide
        (Nat.lt_of_le_of_lt (Nat.le_add_left _ _) hthere) hback⟩
  · obtain ⟨-, -, rfl⟩ := Edit.run?_eq_some.mp hthere
    obtain ⟨-, -, rfl⟩ := Edit.run?_eq_some.mp hback
    obtain ⟨hreleased, hreleased', hsame⟩ := hw.reshape_back hr hn hm hcovers
    exact ⟨Edited.answer_map_eq_ok.mpr ⟨[], hreleased, rfl⟩,
      Edited.answer_map_eq_ok.mpr ⟨[], hreleased', rfl⟩, hsame⟩

/-- A conditional with a condition and a body in its second branch gets two more branches and an
`else`, and then loses them again. -/
theorem Workspace.reshape_reshape_second :
    ∃ w n, WellFormed .builtin w ∧ w.get? 0 = some n ∧ n.mutation = some ⟨1, false⟩ ∧
      n.branch 1 = ⟨some 3, some 2, [6]⟩ ∧
      ∃ there back, (Edit.reshape 0 ⟨3, true⟩).run? .builtin w = some there ∧
        (Edit.reshape 0 ⟨1, false⟩).run? .builtin there.workspace = some back ∧
        there.answer = .ok (.nodes []) ∧ back.answer = .ok (.nodes []) ∧
        ∃ next, w.nextId ≤ next ∧ back.workspace = { w with nextId := next } := by
  have h1 : History .builtin _ :=
    .change (.edit (.create "if_else" [] (some ⟨1, false⟩))) .start trivial
  have h2 := h1.change (.edit (.create "logic_compare" [] none)) trivial
  have h3 := h2.change (.edit (.connectValue 0 "IF1" 3))
    (show Workspace.child? _ 0 "IF1" ≠ some 3 by decide +kernel)
  have h4 := h3.change (.edit (.create "clear_screen" [] none)) trivial
  have h5 := h4.change (.edit (.pushStatement 0 "DO1" 6)) trivial
  obtain ⟨w, hw, hroom, hshown⟩ : ∃ w, WellFormed .builtin w ∧
      w.nextId + (⟨3, true⟩ : Mutation).branches + (⟨1, false⟩ : Mutation).branches <
        NodeId.limit ∧
      (w.get? 0).map (fun n => (n.mutation, (n.branch 1).condition, (n.branch 1).shadow,
        (n.branch 1).body)) = some (some ⟨1, false⟩, some 3, some 2, [6]) :=
    ⟨_, (h5.tidy Registry.sound_builtin).wellFormed, by decide +kernel, by decide +kernel⟩
  obtain ⟨n, hn, hshown⟩ := Option.map_eq_some_iff.mp hshown
  simp only [Prod.mk.injEq] at hshown
  have hcovers : Mutation.Covers ⟨3, true⟩ ⟨1, false⟩ := ⟨by decide, fun _ => rfl⟩
  obtain ⟨hsome, hsame⟩ := reshape_reshape Registry.sound_builtin hw hn hshown.1 hcovers
  obtain ⟨there, back, hthere, hback⟩ := hsome hroom
  refine ⟨w, n, hw, hn, hshown.1, ?_, there, back, hthere, hback, hsame there back hthere hback⟩
  rw [← hshown.2.1, ← hshown.2.2.1, ← hshown.2.2.2]

end BlockText

import BlockText.Proofs.Moves

/-!
# Changing a mutation

The moves of a conditional take each node that hangs on its branches once, and fill no slot twice.
So a change of mutation is refused before it has changed anything, or it gets through: every move is
made, and every node that stays has arrived.
-/

namespace BlockText

open Wiring Workspace

/-! ## The moves of a whole conditional -/

namespace Move

/-- The condition that a move fills. -/
def condition? : Move → Option String
  | shadow input _ | value input _ => some input
  | statement _ _ | release _ | discard _ => none

theorem before_of_condition {mv mv' : Move} (h : ∀ i ∈ mv.condition?, i ∉ mv'.condition?) :
    mv.Before mv' := by
  cases mv <;> cases mv' <;>
    first
    | trivial
    | exact fun he => h _ rfl (congrArg some he.symm)

end Move

namespace Branch

/-- What hangs on a branch, in the order in which it is moved. -/
def pending (b : Branch) : List NodeId := b.shadow.toList ++ (b.condition.toList ++ b.body)

theorem map_node_moves (b : Branch) (place : Option Nat) :
    (b.moves place).map Move.node = b.pending := by
  cases place <;> simp [moves, pending, Function.comp_def, Move.node]

/-- A move fills the condition of the place to which its branch goes. -/
theorem condition_of_mem {b : Branch} {place : Option Nat} {mv : Move} {i : String}
    (h : mv ∈ b.moves place) (hi : i ∈ mv.condition?) :
    ∃ j, place = some j ∧ i = Conditional.condition j := by
  cases place with
  | none =>
    simp only [moves, List.mem_append, List.mem_map] at h
    rcases h with ⟨c, -, rfl⟩ | ⟨c, -, rfl⟩ | ⟨c, -, rfl⟩ <;> cases hi
  | some j =>
    simp only [moves, List.mem_append, List.mem_map] at h
    rcases h with ⟨c, -, rfl⟩ | ⟨c, -, rfl⟩ | ⟨c, -, rfl⟩ <;> cases hi
    · exact ⟨j, rfl, rfl⟩
    · exact ⟨j, rfl, rfl⟩

theorem ordered_moves (b : Branch) (place : Option Nat) :
    (b.moves place).Pairwise Move.Before := by
  obtain ⟨condition, shadow, body⟩ := b
  cases place with
  | none =>
    refine List.pairwise_iff_getElem.mpr fun i j hi hj _ => Move.before_of_condition fun s hs => ?_
    obtain ⟨k, hk, -⟩ := condition_of_mem (List.getElem_mem hi) hs
    cases hk
  | some j =>
    have hbody : (body.map (Move.statement (Conditional.body j))).Pairwise Move.Before :=
      List.pairwise_map.mpr (List.pairwise_of_forall fun _ _ => trivial)
    cases shadow <;> cases condition <;> simp [moves, hbody, Move.Before]

end Branch

namespace Node

variable {n : Node} {x : NodeId} {old target : Mutation} {place : Nat → Option Nat} {keep : Bool}

/-- What the moves of a conditional take. -/
def pending (n : Node) (m : Mutation) : List NodeId :=
  (List.range m.branches).flatMap (fun i => (n.branch i).pending) ++
    n.statements Conditional.otherwise

theorem map_node_moves (n : Node) (old target : Mutation) (place : Nat → Option Nat) (keep : Bool) :
    (n.moves old target place keep).map Move.node = n.pending old := by
  have hotherwise : ∀ cs : List NodeId, (cs.map (if keep && target.hasElse
      then Move.statement Conditional.otherwise else .release)).map Move.node = cs := by
    intro cs
    split <;> simp [Function.comp_def, Move.node]
  rw [moves, List.map_append, hotherwise, List.map_flatMap, pending]
  simp only [Branch.map_node_moves]

theorem mem_statements {input : String} (h : x ∈ n.statements input) : x ∈ n.ownedIn input := by
  obtain ⟨children, hs, hx⟩ := slot?_of_statements h
  exact mem_ownedIn.mpr ⟨_, hs, hx⟩

theorem nodup_statements (hnd : n.owned.Nodup) (input : String) : (n.statements input).Nodup := by
  rw [statements]
  split
  · next cs hs => exact nodup_slot hnd hs
  · exact .nil

theorem mem_branch_pending {i : Nat} (h : x ∈ (n.branch i).pending) :
    x ∈ n.ownedIn (Conditional.condition i) ∨ x ∈ n.ownedIn (Conditional.body i) := by
  rw [branch] at h
  split at h
  · next child shadow hs =>
    simp only [Branch.pending, List.mem_append] at h
    rcases h with h | h | h
    · exact .inl (mem_ownedIn.mpr ⟨_, hs, List.mem_append_right _ h⟩)
    · exact .inl (mem_ownedIn.mpr ⟨_, hs, List.mem_append_left _ h⟩)
    · exact .inr (mem_statements h)
  · exact .inr (mem_statements h)

theorem nodup_branch_pending (hnd : n.owned.Nodup) (i : Nat) : (n.branch i).pending.Nodup := by
  have hbody := nodup_statements hnd (Conditional.body i)
  rw [branch]
  split
  · next child shadow hs =>
    have hslot : (child.toList ++ shadow.toList).Nodup := nodup_slot hnd hs
    have hperm : (shadow.toList ++ (child.toList ++ n.statements (Conditional.body i))).Perm
        ((child.toList ++ shadow.toList) ++ n.statements (Conditional.body i)) := by
      rw [← List.append_assoc]
      exact List.perm_append_comm.append_right _
    refine hperm.nodup_iff.mpr (List.nodup_append'.mpr ⟨hslot, hbody, fun x hx hxb => ?_⟩)
    exact Conditional.body_ne_condition i i
      (ownedIn_inj hnd (mem_statements hxb) (mem_ownedIn.mpr ⟨_, hs, hx⟩))
  · exact hbody

/-- No node is moved twice. -/
theorem nodup_pending (hnd : n.owned.Nodup) (m : Mutation) : (n.pending m).Nodup := by
  refine List.nodup_append'.mpr ⟨List.nodup_flatMap.mpr ⟨fun i _ => nodup_branch_pending hnd i, ?_⟩,
    nodup_statements hnd _, fun x hx hxo => ?_⟩
  · refine (List.nodup_range (n := m.branches)).imp fun {i j} hij x hi hj => ?_
    rcases mem_branch_pending hi with hi | hi <;> rcases mem_branch_pending hj with hj | hj
    · exact hij (Conditional.condition_inj.mp (ownedIn_inj hnd hi hj))
    · exact Conditional.body_ne_condition j i (ownedIn_inj hnd hj hi)
    · exact Conditional.body_ne_condition i j (ownedIn_inj hnd hi hj)
    · exact hij (Conditional.body_inj.mp (ownedIn_inj hnd hi hj))
  · obtain ⟨i, -, hi⟩ := List.mem_flatMap.mp hx
    rcases mem_branch_pending hi with hi | hi
    · exact Conditional.otherwise_ne_condition i (ownedIn_inj hnd (mem_statements hxo) hi)
    · exact Conditional.otherwise_ne_body i (ownedIn_inj hnd (mem_statements hxo) hi)

theorem pending_subset {m : Mutation} (h : x ∈ n.pending m) : x ∈ n.owned := by
  rcases List.mem_append.mp h with h | h
  · obtain ⟨i, -, hi⟩ := List.mem_flatMap.mp h
    rcases mem_branch_pending hi with hi | hi <;> exact owned_of_ownedIn hi
  · exact owned_of_ownedIn (mem_statements h)

/-- What hangs on a conditional outside the inputs of its mutation. No move takes it. -/
def strays (n : Node) (m : Mutation) : List NodeId := n.owned.filter fun x => x ∉ n.pending m

theorem waiting_perm_owned (hnd : n.owned.Nodup) (old target : Mutation) (place : Nat → Option Nat)
    (keep : Bool) :
    (waiting (n.moves old target place keep) (n.strays old)).Perm n.owned := by
  have hsplit : (n.pending old ++ n.strays old).Nodup := by
    refine List.nodup_append'.mpr ⟨nodup_pending hnd old, hnd.filter _, fun x hx hxs => ?_⟩
    simpa [hx] using List.of_mem_filter hxs
  rw [waiting, map_node_moves]
  refine (List.perm_ext_iff_of_nodup hsplit hnd).mpr fun x => ?_
  rw [List.mem_append, strays, List.mem_filter]
  constructor
  · rintro (hx | hx)
    · exact pending_subset hx
    · exact hx.1
  · intro hx
    by_cases hp : x ∈ n.pending old
    · exact .inl hp
    · exact .inr ⟨hx, by simpa using hp⟩

/-- Different branches go to different places, so no slot is filled twice. -/
theorem ordered_moves (hplace : ((List.range old.branches).filterMap place).Nodup) :
    (n.moves old target place keep).Pairwise Move.Before := by
  have hother {mv mv' : Move} (h : mv' ∈ (n.statements Conditional.otherwise).map
      (if keep && target.hasElse then Move.statement Conditional.otherwise else .release)) :
      mv.Before mv' := by
    refine Move.before_of_condition fun i _ hi => ?_
    obtain ⟨c, -, rfl⟩ := List.mem_map.mp h
    split at hi <;> cases hi
  have hplaces : (List.range old.branches).Pairwise fun i j =>
      ∀ k, place i = some k → place j ≠ some k := by
    rw [List.Nodup, List.pairwise_filterMap] at hplace
    exact hplace.imp fun h k hi hj => h k hi k hj rfl
  refine List.pairwise_append.mpr ⟨List.pairwise_flatMap.mpr ⟨fun i _ => ?_, ?_⟩, ?_, ?_⟩
  · exact Branch.ordered_moves _ _
  · refine hplaces.imp fun {i j} hij mv hmv mv' hmv' => ?_
    refine Move.before_of_condition fun s hs hs' => ?_
    obtain ⟨k, hk, rfl⟩ := Branch.condition_of_mem hmv hs
    obtain ⟨k', hk', he⟩ := Branch.condition_of_mem hmv' hs'
    obtain rfl := Conditional.condition_inj.mp he
    exact hij k (Option.filter_eq_some_iff.mp hk).1 (Option.filter_eq_some_iff.mp hk').1
  · exact List.pairwise_iff_getElem.mpr fun i j hi hj _ => hother (List.getElem_mem hj)
  · exact fun mv _ mv' hmv' => hother hmv'

end Node

/-- The slot of a fresh input: no child, and a leaf as the default. -/
def Slot.Fresh (leaf : NodeId → Prop) : InputSpec → Slot → Prop
  | .value _ _ (some _), s => ∃ o, s = .value none (some o) ∧ leaf o
  | .value _ _ none, s => s = .value none none
  | .statement _, s => s = .statements []

section Furnish

variable {r : Registry} {w : Workspace} {id : NodeId} {n : Node} {old target : Mutation}
  {place : Nat → Option Nat} {keep : Bool}

theorem laid_furnish (r : Registry) (specs : List InputSpec) (f : Node → Node) (hlt : w.Below)
    (hn : w.get? id = some n) :
    ∃ m, (w.furnish r id specs f).get? id = some m ∧
      Laid (Slot.Fresh (w.furnish r id specs f).IsLeaf) specs m.inputs := by
  refine ⟨_, (get?_furnish r specs f hlt hn id _).mpr (.inl ⟨rfl, rfl⟩), ?_⟩
  refine forall₂_freshInputs r id ?_ (fun _ _ => rfl) fun _ => rfl
  intro name check s x _ hx
  have hget := (get?_furnish r specs f hlt hn x _).mpr (.inr (.inl ⟨hx, rfl⟩))
  exact ⟨x, rfl, _, hget, rfl⟩

/-- Every move finds its slot among the fresh inputs. -/
theorem open_furnish (r : Registry) (hlt : w.Below) (hn : w.get? id = some n) {mv : Move}
    (hmv : mv ∈ n.moves old target place keep) :
    (w.furnish r id (Conditional.inputs target) fun n => { n with mutation := some target }).Open
      id mv := by
  obtain ⟨m, hself, hlaid⟩ := laid_furnish r (Conditional.inputs target)
    (fun n => { n with mutation := some target }) hlt hn
  intro input hi
  rcases List.mem_append.mp hmv with hmv | hmv
  · obtain ⟨i, -, hmv⟩ := List.mem_flatMap.mp hmv
    cases hp : (place i).filter (· < target.branches) with
    | none =>
      rw [hp] at hmv
      simp only [Branch.moves, List.mem_append, List.mem_map] at hmv
      rcases hmv with ⟨c, -, rfl⟩ | ⟨c, -, rfl⟩ | ⟨c, -, rfl⟩ <;> cases hi
    | some j =>
      have hj : j < target.branches := of_decide_eq_true (Option.filter_eq_some_iff.mp hp).2
      obtain ⟨sc, hsc, o, rfl, ho⟩ := Node.slot?_condition hlaid hj
      obtain ⟨sb, hsb, rfl⟩ := Node.slot?_body hlaid hj
      rw [hp] at hmv
      simp only [Branch.moves, List.mem_append, List.mem_map] at hmv
      rcases hmv with ⟨c, -, rfl⟩ | ⟨c, -, rfl⟩ | ⟨c, -, rfl⟩ <;> cases hi
      · exact ⟨_, _, hself, hsc, o, rfl, ho⟩
      · exact ⟨_, _, hself, hsc, some o, rfl⟩
      · exact ⟨_, _, hself, hsb, [], rfl⟩
  · obtain ⟨c, -, rfl⟩ := List.mem_map.mp hmv
    split at hi
    · next hk =>
      cases hi
      obtain ⟨s, hs, rfl⟩ := Node.slot?_otherwise hlaid (Bool.and_eq_true_iff.mp hk).2
      rw [if_pos hk]
      exact ⟨_, _, hself, hs, [], rfl⟩
    · cases hi

/-- A conditional that was given fresh inputs: what it owned waits. -/
theorem shifting_furnish (r : Registry) {specs : List InputSpec} {f : Node → Node} (h : Forest w)
    (hlt : w.Below) (hn : w.get? id = some n) (hf : ∀ n, (f n).parent = n.parent) {ms : List Move}
    {rest : List NodeId} (hperm : (waiting ms rest).Perm n.owned)
    (hopen : ∀ mv ∈ ms, (w.furnish r id specs f).Open id mv) (hord : ms.Pairwise Move.Before) :
    Shifting (w.furnish r id specs f) id ms rest := by
  have hmem (x : NodeId) : x ∈ waiting ms rest ↔ x ∈ n.owned := hperm.mem_iff
  have hloosen : (w.furnish r id specs f).loosen (waiting ms rest) =
      (w.furnish r id specs f).loosen n.owned := by
    refine eq_of_get? (fun x => ?_) rfl rfl
    simp only [get?_loosen, hmem]
  have hself := (get?_furnish r specs f hlt hn id _).mpr (.inl ⟨rfl, rfl⟩)
  have hchain := chain_ancestors h.linked hn
  refine ⟨?_, hperm.nodup_iff.mpr (h.linked.owned_nodup (wiring_of_get? hn)), ?_, ?_, ⟨_, hself⟩,
    hopen, hord⟩
  · rw [hloosen]
    refine (h.furnish r specs hlt hn hf).loose_congr fun x => ?_
    rw [List.append_nil, hmem]
  · intro c hc
    have hp := (mem_owned_iff h.linked hn).mp ((hmem c).mp hc)
    obtain ⟨k, hk, hkp⟩ := Option.bind_eq_some_iff.mp hp
    have hci : c ≠ id := (h.linked.parent_ne ((parent?_wiring c).trans hp)).symm
    have hget := (get?_furnish r specs f hlt hn c k).mpr (.inr (.inr ⟨hci, hk⟩))
    rw [Workspace.parent?, hget, Option.bind_some, hkp]
  · -- the nodes above the conditional name other parents than the conditional
    have hchain' : Chain ((w.furnish r id specs f).loosen (waiting ms rest)).wiring id
        (w.ancestors id) := by
      rw [hloosen, wiring_furnish r specs h.linked hlt hn hf]
      refine hchain.congr fun a ha l hla => ?_
      have hfresh : ∀ x ∈ (defaultNodes r id specs w.nextId).map (·.id), w.wiring x = none := by
        intro x hx
        cases hk : w.get? x with
        | none => simp [wiring, hk]
        | some k => exact absurd (hlt x k hk) (Nat.not_lt.mpr (mem_ids_defaultNodes hx).1)
      refine ⟨_, rewire_of_eq hfresh hla, ?_⟩
      have hne : l.parent ≠ some id := fun hpa => (Chain.up hla hpa hchain).not_mem ha
      simp [hne]
    intro c hc
    rw [ancestors_eq hchain']
    obtain ⟨l, hl, hp⟩ := parent?_eq_some.mp
      ((parent?_wiring c).trans ((mem_owned_iff h.linked hn).mp ((hmem c).mp hc)))
    exact (Chain.up hl hp hchain).not_mem

end Furnish

/-! ## What a change of mutation does -/

/-- In a registry with conditionals the literal of a condition, if it is there, is a value without
inputs that holds a truth value. -/
def Registry.PlainConditions (r : Registry) : Prop :=
  ∀ k d l, r.find? k = some d → d.shape.layout = .branching → r.find? .logicBoolean = some l →
    l.shape.layout = .fixed [] ∧ ∃ f, l.shape.field? (ShadowSpec.boolean true).field = some f ∧
      f.accepts (ShadowSpec.boolean true).value = true

theorem Registry.Sound.plainConditions {r : Registry} (hr : r.Sound) : r.PlainConditions := by
  intro k d l hd hlayout hl
  have hmem : InputSpec.value (Conditional.condition 0) .boolean (some (.boolean true)) ∈
      d.shape.inputsFor (some {}) := by
    rw [Shape.inputsFor, hlayout]
    exact List.mem_append_left _ (List.mem_flatMap.mpr ⟨0, by decide, List.mem_cons_self⟩)
  obtain ⟨l', hl', -, hfixed, hfield⟩ := hr.literal hd _ _ _ _ hmem
  obtain rfl : l' = l := Option.some.inj (hl'.symm.trans hl)
  exact ⟨hfixed, hfield⟩

theorem Shape.layout_of_isBranching {s : Shape} (h : s.isBranching = true) :
    s.layout = .branching := by
  unfold isBranching at h
  split at h
  · assumption
  · cases h

theorem Conditional.default_of_mem {m : Mutation} {name : String} {check : Check} {s : ShadowSpec}
    (h : .value name check (some s) ∈ inputs m) : s = .boolean true := by
  rcases List.mem_append.mp h with h | h
  · obtain ⟨i, -, hi⟩ := List.mem_flatMap.mp h
    simp only [List.mem_cons, List.not_mem_nil, or_false] at hi
    rcases hi with hi | hi
    · cases hi
      rfl
    · cases hi
  · split at h
    · cases List.mem_singleton.mp h
    · cases h

namespace Workspace

variable {r : Registry} {w : Workspace} {id : NodeId} {target : Mutation}
  {place : Nat → Option Nat} {keep : Bool}

/-- The conditional with fresh inputs for a mutation, before anything is moved. -/
def refurnish (w : Workspace) (r : Registry) (id : NodeId) (target : Mutation) : Workspace :=
  w.furnish r id (Conditional.inputs target) fun n => { n with mutation := some target }

/-- The inputs of a conditional are built with all their defaults, or the first default is refused
before anything is made. -/
theorem buildInputs_conditional (hr : r.PlainConditions) {k : Kind} {d : Definition}
    (hd : r.find? k = some d) (hlayout : d.shape.layout = .branching) (w : Workspace) (id : NodeId)
    (target : Mutation) :
    buildInputs (fun b w => w.make r b) id (Conditional.inputs target) w =
        (w.addAll (defaultNodes r id (Conditional.inputs target) w.nextId),
          .ok (freshInputs (Conditional.inputs target) w.nextId)) ∨
      ∃ e, buildInputs (fun b w => w.make r b) id (Conditional.inputs target) w = (w, .error e) := by
  cases hl : r.find? .logicBoolean with
  | none =>
    refine .inr ⟨.registry (.notFound Kind.logicBoolean.name), ?_⟩
    have hlookup : r.lookup .logicBoolean = .error (.notFound Kind.logicBoolean.name) := by
      simp [Registry.lookup, hl]
    simp [Conditional.inputs, Mutation.branches, List.range_succ_eq_map, buildInputs, make,
      makeUpTo, ShadowSpec.boolean, hlookup]
  | some l =>
    obtain ⟨hfixed, f, hfield, haccepts⟩ := hr k d l hd hlayout hl
    refine .inl (buildInputs_eq id w fun name check s hs w => ?_)
    obtain rfl := Conditional.default_of_mem hs
    exact makeUpTo_literal r.definitions.length w hl hfixed hfield haccepts id

/-- What stands at its place needs no rescue. -/
theorem rescue_of_stands {id : NodeId} {cs : List (NodeId × String)} {w : Workspace}
    (h : ∀ c ∈ cs, w.stands id c.1 c.2 = true) : rescue id cs w = (w, []) := by
  induction cs with
  | nil => rfl
  | cons c cs ih =>
    obtain ⟨child, input⟩ := c
    rw [rescue, if_pos (h _ List.mem_cons_self)]
    exact ih fun c hc => h c (List.mem_cons_of_mem _ hc)

end Workspace

/-- A change of mutation that got through: the conditional was given fresh inputs, every move was
made, and nothing had to be rescued. -/
structure Reshaped (r : Registry) (w : Workspace) (id : NodeId) (n : Node) (old target : Mutation)
    (ms : List Move) (e : Edited (List NodeId)) : Prop where
  node : w.get? id = some n
  mutation : n.mutation = some old
  described : ∃ d, r.find? n.kind = some d ∧ d.shape.layout = .branching
  moves : ∃ place keep, ms = n.moves old target place keep
  shifting : Shifting (w.refurnish r id target) id ms (n.strays old)
  outcome : e = ⟨ms.foldl (Workspace.carry id) (w.refurnish r id target),
    .ok (ms.filterMap Move.released?), [.shapeChanged id old target (ms.filterMap Move.released?)]⟩

/-- What an edit of a conditional can come to: it is refused and leaves the workspace, there is
nothing to change, or it gets through. -/
inductive Reshaping (r : Registry) (w : Workspace) (id : NodeId) : Edited (List NodeId) → Prop where
  | refused (e : EditError) : Reshaping r w id (.refused w e)
  | same : Reshaping r w id ⟨w, .ok [], []⟩
  | changed {n : Node} {old target : Mutation} {ms : List Move} {e : Edited (List NodeId)}
      (h : Reshaped r w id n old target ms e) : Reshaping r w id e

/-- A conditional with fresh inputs is on its way to them, wherever its branches go. -/
theorem Forest.shifting_refurnish {w : Workspace} {id : NodeId} {n : Node} {old : Mutation}
    {place : Nat → Option Nat} (h : Forest w) (r : Registry) (hlt : w.Below)
    (hn : w.get? id = some n) (target : Mutation) (keep : Bool)
    (hplace : ((List.range old.branches).filterMap place).Nodup) :
    Shifting (w.refurnish r id target) id (n.moves old target place keep) (n.strays old) := by
  have hmoves := Node.waiting_perm_owned (h.linked.owned_nodup (wiring_of_get? hn)) old target place
    keep
  exact shifting_furnish (f := fun n => { n with mutation := some target }) r h hlt hn
    (fun _ => rfl) hmoves (fun mv hmv => open_furnish r hlt hn hmv) (Node.ordered_moves hplace)

/-- A change of mutation gets through once its inputs are built: no step after that is refused, and
nothing has to be rescued. -/
theorem Workspace.reshaped_of_build {r : Registry} {w : Workspace} {id : NodeId} {n : Node}
    {d : Definition} {old target : Mutation} {place : Nat → Option Nat} (keep : Bool)
    (h : Forest w) (hlt : w.Below) (hn : w.get? id = some n) (hold : n.mutation = some old)
    (hne : old ≠ target) (hd : r.find? n.kind = some d) (hlayout : d.shape.layout = .branching)
    (hplace : ((List.range old.branches).filterMap place).Nodup)
    (hbuild : buildInputs (fun b w => w.make r b) id (Conditional.inputs target) w =
      (w.addAll (defaultNodes r id (Conditional.inputs target) w.nextId),
        .ok (freshInputs (Conditional.inputs target) w.nextId))) :
    Reshaped r w id n old target (n.moves old target place keep)
      (w.changeShape r id target place keep) := by
  have hshift := h.shifting_refurnish r hlt hn target keep hplace
  have hlookup : r.lookup n.kind = .ok d := by simp [Registry.lookup, hd]
  have hb : d.shape.isBranching = true := by simp [Shape.isBranching, hlayout]
  have hspecs : d.shape.inputsFor (some target) = Conditional.inputs target := by
    simp [Shape.inputsFor, hlayout]
  refine ⟨hn, hold, ⟨d, hd, hlayout⟩, ⟨place, keep, rfl⟩, hshift, ?_⟩
  have hrun := hshift.run.1
  have hrescue := rescue_of_stands fun c hc => (hshift.survivors_arrived c hc).stands
  rw [refurnish, furnish] at hrun hrescue
  simp only [changeShape, node, hn, hold, if_neg hne, hlookup, if_pos hb, hspecs, hbuild, hrun,
    hrescue, List.append_nil, refurnish, furnish]

/-- What a change of mutation that sends different branches to different places can come to: no step
after the first change is refused. -/
theorem Workspace.changeShape_cases {r : Registry} {w : Workspace} {id : NodeId}
    {place : Nat → Option Nat} (target : Mutation) (keep : Bool) (hr : r.PlainConditions)
    (h : Forest w) (hlt : w.Below)
    (hplace : ∀ m, w.mutation id = .ok m → ((List.range m.branches).filterMap place).Nodup) :
    (∃ e, w.changeShape r id target place keep = .refused w e) ∨
      (∃ n, w.get? id = some n ∧ n.mutation = some target ∧
        w.changeShape r id target place keep = ⟨w, .ok [], []⟩) ∨
      ∃ n old, old ≠ target ∧ Reshaped r w id n old target (n.moves old target place keep)
        (w.changeShape r id target place keep) := by
  cases hnode : w.node id with
  | error e => exact .inl ⟨e, by simp only [changeShape, hnode]⟩
  | ok n =>
    cases hold : n.mutation with
    | none => exact .inl ⟨.notConditional id, by simp only [changeShape, hnode, hold]⟩
    | some old =>
      by_cases heq : old = target
      · refine .inr (.inl ⟨n, node_ok hnode, heq ▸ hold, ?_⟩)
        simp only [changeShape, hnode, hold, if_pos heq]
      · cases hd : r.lookup n.kind with
        | error e =>
          exact .inl ⟨.registry e, by simp only [changeShape, hnode, hold, if_neg heq, hd]⟩
        | ok d =>
          by_cases hb : d.shape.isBranching = true
          · have hn := node_ok hnode
            have hfind := Tidy.find?_of_lookup hd
            have hlayout := Shape.layout_of_isBranching hb
            have hspecs : d.shape.inputsFor (some target) = Conditional.inputs target := by
              simp [Shape.inputsFor, hlayout]
            rcases buildInputs_conditional hr hfind hlayout w id target with hbuild | ⟨e, hbuild⟩
            · exact .inr (.inr ⟨n, old, heq, reshaped_of_build keep h hlt hn hold heq hfind hlayout
                (hplace old (by simp [Workspace.mutation, hnode, hold])) hbuild⟩)
            · exact .inl ⟨e, by
                simp only [changeShape, hnode, hold, if_neg heq, hd, if_pos hb, hspecs, hbuild]⟩
          · exact .inl ⟨.notConditional id, by
              simp only [changeShape, hnode, hold, if_neg heq, hd, if_neg hb]⟩

namespace Reshaping

variable {r : Registry} {w : Workspace} {id : NodeId} {target : Mutation}
  {place : Nat → Option Nat} {keep : Bool}

/-- Every change of mutation that sends different branches to different places is of this kind. -/
theorem changeShape (hr : r.PlainConditions) (h : Forest w) (hlt : w.Below)
    (hplace : ∀ m, w.mutation id = .ok m → ((List.range m.branches).filterMap place).Nodup) :
    Reshaping r w id (w.changeShape r id target place keep) := by
  rcases changeShape_cases target keep hr h hlt hplace with ⟨e, he⟩ | ⟨n, -, -, he⟩ | ⟨n, old, -, he⟩
  · exact he ▸ .refused e
  · exact he ▸ .same
  · exact .changed he

/-! ## The edits of a conditional -/

/-- Places that differ for different branches. -/
theorem nodup_filterMap_range {bound : Nat}
    (h : ∀ i j k, i < j → place i = some k → place j ≠ some k) :
    ((List.range bound).filterMap place).Nodup := by
  refine List.Pairwise.filterMap place (fun {i j} hij => ?_) List.pairwise_lt_range
  intro a ha b hb hab
  subst hab
  exact h i j a hij ha hb

theorem nodup_filterMap_some (bound : Nat) : ((List.range bound).filterMap some).Nodup := by
  refine nodup_filterMap_range fun i j k hij hi hj => ?_
  rw [Option.some.injEq] at hi hj
  omega

variable (hr : r.PlainConditions) (h : Forest w) (hlt : w.Below)

include hr h hlt

theorem addBranch : Reshaping r w id (w.addBranch r id) := by
  unfold Workspace.addBranch
  cases w.mutation id with
  | error e => exact .refused e
  | ok m => exact changeShape hr h hlt fun m _ => nodup_filterMap_some _

theorem removeBranch (index : Nat) : Reshaping r w id (w.removeBranch r id index) := by
  unfold Workspace.removeBranch
  cases w.mutation id with
  | error e => exact .refused e
  | ok m =>
    simp only
    split
    · exact .refused _
    · refine changeShape hr h hlt fun m' _ => nodup_filterMap_range fun i j k hij hi hj => ?_
      -- the branches before the one that goes stay, those after it move up by one
      split at hi <;> split at hj <;> grind

theorem addElse : Reshaping r w id (w.addElse r id) := by
  unfold Workspace.addElse
  cases w.mutation id with
  | error e => exact .refused e
  | ok m =>
    simp only
    split
    · exact .refused _
    · exact changeShape hr h hlt fun m _ => nodup_filterMap_some _

theorem removeElse : Reshaping r w id (w.removeElse r id) := by
  unfold Workspace.removeElse
  cases w.mutation id with
  | error e => exact .refused e
  | ok m =>
    simp only
    split
    · exact changeShape hr h hlt fun m _ => nodup_filterMap_some _
    · exact .refused _

theorem reshape (target : Mutation) : Reshaping r w id (w.reshape r id target) := by
  unfold Workspace.reshape
  cases w.mutation id with
  | error e => exact .refused e
  | ok m =>
    refine changeShape hr h hlt fun m' _ => nodup_filterMap_range fun i j k hij hi hj => ?_
    split at hi <;> split at hj <;> grind

end Reshaping

end BlockText

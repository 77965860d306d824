import BlockText.Proofs.Following

/-!
# Nothing is lost when a conditional changes

A change of mutation moves every node that hangs on a conditional once. A node that moves to a slot
stays there and is otherwise as it was, one that is released becomes a root, and only the defaults of
branches that go leave the workspace. What no move takes is not touched. So the branches that stay
have the same condition, the same default and the same body at their new places, in each of the five
edits of a conditional.
-/

namespace BlockText

open Wiring Workspace

/-! ## The nodes that are moved -/

namespace Move

variable {mv : Move} {n : Node} {x : NodeId} {input : String}

/-- What a move makes of the node that it takes. -/
def settle (k : Node) : Move → Option Node
  | shadow _ _ | value _ _ | statement _ _ => some k
  | release _ => some { k with parent := none }
  | discard _ => none

theorem mem_owned_fill {s : Slot} (h : x ∈ (mv.fill n s).owned) : x = mv.node ∨ x ∈ s.owned := by
  cases mv with
  | shadow input c =>
    cases s with
    | statements children => exact .inr h
    | value child shadow =>
      rcases List.mem_append.mp h with h | h
      · exact .inr (List.mem_append_left _ h)
      · exact .inl (List.mem_singleton.mp h)
  | value input c =>
    cases s with
    | statements children => exact .inr h
    | value child shadow =>
      rcases List.mem_append.mp h with h | h
      · exact .inl (List.mem_singleton.mp h)
      · exact .inr (List.mem_append_right _ h)
  | statement input c =>
    cases s with
    | value child shadow => exact .inr h
    | statements children => exact (List.mem_insertIdx (Nat.min_le_right _ _)).mp h
  | release c => exact .inr h
  | discard c => exact .inr h

/-- What stands in a slot after a move was there before, or was moved there. -/
theorem mem_ownedIn_refit (h : x ∈ (mv.refit n).ownedIn input) :
    x = mv.node ∧ mv.input? = some input ∨ x ∈ n.ownedIn input := by
  obtain ⟨s, hs, hx⟩ := Node.mem_ownedIn.mp h
  rw [slot?_refit] at hs
  by_cases hi : mv.input? = some input
  · rw [if_pos hi] at hs
    obtain ⟨t, ht, rfl⟩ := Option.map_eq_some_iff.mp hs
    rcases mem_owned_fill hx with hx | hx
    · exact .inl ⟨hx, hi⟩
    · exact .inr (Node.mem_ownedIn.mpr ⟨t, ht, hx⟩)
  · rw [if_neg hi] at hs
    exact .inr (Node.mem_ownedIn.mpr ⟨s, hs, hx⟩)

end Move

/-- A default that moves later finds its slot with nothing moved into it before. -/
theorem Shifting.input_ne_of_shadow {w : Workspace} {id c : NodeId} {mv : Move} {ms : List Move}
    {rest : List NodeId} {input : String} (h : Shifting w id (mv :: ms) rest)
    (hc : .shadow input c ∈ ms) : mv.input? ≠ some input := by
  intro hi
  have hbefore := (List.pairwise_cons.mp h.ordered).1 _ hc
  obtain ⟨n, s, hn, hs, htakes⟩ := h.slot_of_move hi
  obtain ⟨n', s', hn', hs', o, rfl, -⟩ := h.opens _ (List.mem_cons_of_mem _ hc) input rfl
  obtain rfl : n = n' := Option.some.inj (hn.symm.trans hn')
  obtain rfl : s = .value none (some o) := Option.some.inj (hs.symm.trans hs')
  cases mv with
  | shadow input' c' => exact hbefore (Option.some.inj hi)
  | value input' c' => exact hbefore (Option.some.inj hi)
  | statement input' c' =>
    obtain ⟨cs, hcs⟩ := htakes
    cases hcs
  | release c' => cases hi
  | discard c' => cases hi

namespace Moving

variable {r : Registry} {tag? : NodeId → Option Tag} {w : Workspace} {id x : NodeId}
  {m : Mutation} {mv : Move} {ms : List Move} {rest : List NodeId} {n k : Node}

/-- A default that goes has nothing below it. -/
theorem descendants_discard (hr : r.Sound) (h : Moving r tag? w id m ms rest)
    (hx : .discard x ∈ ms) : w.descendants x = [x] := by
  have hwaits : x ∈ waiting ms rest := List.mem_append_left _ (List.mem_map_of_mem hx)
  obtain ⟨k, hk, hki, -⟩ := h.leaf_of_tag hr hwaits (h.ready _ hx)
  simp [descendants, descendantsUpTo, hk, Node.owned, hki]

/-- A move does not touch what it does not take and does not replace. -/
theorem get?_carry_of_ne (hr : r.Sound) (h : Moving r tag? w id m (mv :: ms) rest)
    (hn : w.get? id = some n) (hx : x ≠ id) (hm : x ≠ mv.node)
    (ho : ∀ input c, mv = .shadow input c → x ∉ n.ownedIn input) :
    (w.carry id mv).get? x = w.get? x := by
  refine h.shifting.get?_carry hn hx hm (fun c hmv => ?_) ho
  subst hmv
  rw [h.descendants_discard hr List.mem_cons_self, List.mem_singleton]
  exact hm

theorem get?_run_of_ne (hr : r.Sound) (h : Moving r tag? w id m ms rest)
    (hn : w.get? id = some n) (hx : x ≠ id) (hm : x ∉ ms.map Move.node)
    (ho : ∀ input c, .shadow input c ∈ ms → x ∉ n.ownedIn input) :
    (ms.foldl (Workspace.carry id) w).get? x = w.get? x := by
  induction ms generalizing w n with
  | nil => rfl
  | cons mv ms ih =>
    rw [List.map_cons, List.mem_cons, not_or] at hm
    rw [List.foldl_cons, ih (h.carry hr) (h.shifting.get?_carry_self hn) hm.2]
    · refine h.get?_carry_of_ne hr hn hx hm.1 fun input c hmv => ?_
      exact ho input c (hmv ▸ List.mem_cons_self)
    · intro input c hc hin
      rcases Move.mem_ownedIn_refit hin with ⟨he, -⟩ | hin
      · exact hm.1 he
      · exact ho input c (List.mem_cons_of_mem _ hc) hin

/-- The node that a move takes, after the move. -/
theorem get?_carry_node (hr : r.Sound) (h : Moving r tag? w id m (mv :: ms) rest)
    (hk : w.get? mv.node = some k) : (w.carry id mv).get? mv.node = mv.settle k := by
  have hwaits : mv.node ∈ waiting (mv :: ms) rest := List.mem_cons_self
  have hparent : k.parent = some id := by
    have := h.shifting.named _ hwaits
    rwa [Workspace.parent?, hk] at this
  have hne := h.shifting.node_ne_self
  have hready := h.ready mv List.mem_cons_self
  cases mv with
  | shadow input c =>
    simp only [Move.node] at hk hne
    obtain ⟨n, s, hn, hs, o, rfl, hleaf⟩ := h.shifting.slot_of_move rfl
    have hoo : o ∈ n.owned := Node.owned_of_slot? hs (by simp [Slot.owned])
    have hco : c ≠ o := fun he => h.shifting.owned_not_mem hn hoo (he ▸ hwaits)
    obtain ⟨k', hk', -, hflag⟩ := h.leaf_of_tag hr hwaits hready.2.1
    obtain rfl : k' = k := Option.some.inj (hk'.symm.trans hk)
    show (w.setShadow id input c).get? c = some k'
    rw [setShadow_eq hn hs hleaf (h.shifting.owned_ne_self hn hoo), get?_swapDefault_node hne hco,
      hk, Option.map_some, ← hparent, ← hflag]
  | value input c =>
    simp only [Move.node] at hk hne
    show (w.setChild id input c).get? c = some k
    rw [setChild, get?_update_self, get?_update_of_ne _ hne, hk, Option.map_some, ← hparent]
  | statement input c =>
    simp only [Move.node] at hk hne
    show (w.appendStatement id input c).get? c = some k
    rw [appendStatement, setStatement, get?_update_self, get?_update_of_ne _ hne, hk,
      Option.map_some, ← hparent]
  | release c =>
    simp only [Move.node] at hk
    show (w.pushRoot c).get? c = some { k with parent := none }
    rw [pushRoot, hk]
    show (w.update c _).get? c = _
    rw [get?_update_self, hk]
    rfl
  | discard c =>
    show (w.remove (w.descendants c)).get? c = none
    rw [h.descendants_discard hr List.mem_cons_self, get?_remove, if_pos (List.mem_singleton_self c)]

/-- What a move has made of its node, no other move undoes. -/
theorem get?_run_node (hr : r.Sound) (h : Moving r tag? w id m ms rest) (hmv : mv ∈ ms)
    (hk : w.get? mv.node = some k) :
    (ms.foldl (Workspace.carry id) w).get? mv.node = mv.settle k := by
  induction ms generalizing w with
  | nil => cases hmv
  | cons first ms ih =>
    rw [List.foldl_cons]
    rcases List.mem_cons.mp hmv with rfl | hmv
    · obtain ⟨n, hn⟩ := h.shifting.there
      rw [(h.carry hr).get?_run_of_ne hr (h.shifting.get?_carry_self hn) h.shifting.node_ne_self
        (fun hm => h.shifting.node_not_mem (List.mem_append_left _ hm)), h.get?_carry_node hr hk]
      intro input c hc hin
      rcases Move.mem_ownedIn_refit hin with ⟨-, hi⟩ | hin
      · exact h.shifting.input_ne_of_shadow hc hi
      · exact h.shifting.owned_not_mem hn (Node.owned_of_ownedIn hin) List.mem_cons_self
    · have hwaits : mv.node ∈ waiting ms rest := List.mem_append_left _ (List.mem_map_of_mem hmv)
      refine ih (h.carry hr) hmv ?_
      rw [h.shifting.get?_carry_of_stays (.inl hwaits) (h.shifting.ne_self (mem_waiting_cons hwaits))]
      exact hk

end Moving

/-! ## The slots of the conditional -/

namespace Move

variable {n : Node} {ms : List Move} {input : String}

/-- The conditional after some moves. -/
def refitAll (ms : List Move) (n : Node) : Node := ms.foldl (fun n mv => mv.refit n) n

theorem refitAll_append (ms ms' : List Move) (n : Node) :
    refitAll (ms ++ ms') n = refitAll ms' (refitAll ms n) := List.foldl_append

/-- Moves change nothing but the inputs. -/
theorem refitAll_eq (ms : List Move) (n : Node) :
    refitAll ms n = { n with inputs := (refitAll ms n).inputs } := by
  induction ms generalizing n with
  | nil => rfl
  | cons mv ms ih =>
    obtain ⟨inputs, hfirst⟩ : ∃ inputs, mv.refit n = { n with inputs := inputs } := by
      rw [refit]
      cases mv.input? with
      | none => exact ⟨n.inputs, rfl⟩
      | some input => exact ⟨_, rfl⟩
    show refitAll ms (mv.refit n) = { n with inputs := (refitAll ms (mv.refit n)).inputs }
    rw [hfirst]
    exact ih { n with inputs := inputs }

theorem slot?_refitAll_of_not (h : ∀ mv ∈ ms, mv.input? ≠ some input) :
    (refitAll ms n).slot? input = n.slot? input := by
  induction ms generalizing n with
  | nil => rfl
  | cons mv ms ih =>
    rw [List.forall_mem_cons] at h
    show (refitAll ms (mv.refit n)).slot? input = _
    rw [ih h.2, slot?_refit, if_neg h.1]

/-- Statements come to the end of a sequence in their order. -/
theorem slot?_refitAll_statements {cs : List NodeId} (ids : List NodeId)
    (hs : n.slot? input = some (.statements cs)) :
    (refitAll (ids.map (.statement input)) n).slot? input = some (.statements (cs ++ ids)) := by
  induction ids generalizing n cs with
  | nil => rw [List.append_nil]; exact hs
  | cons c ids ih =>
    have hone : ((Move.statement input c).refit n).slot? input =
        some (.statements (cs ++ [c])) := by
      simp [slot?_refit, input?, hs, fill, Node.statements, Workspace.statementInSlot]
    rw [← List.singleton_append, ← List.append_assoc]
    exact ih hone

end Move

namespace Branch

open Move

variable {b : Branch} {n : Node} {j : Nat} {o : Option NodeId}

/-- A move of a branch fills an input of the place to which the branch goes. -/
theorem input_of_mem {place : Option Nat} {mv : Move} {input : String} (h : mv ∈ b.moves place)
    (hi : mv.input? = some input) :
    ∃ j, place = some j ∧ (input = Conditional.condition j ∨ input = Conditional.body j) := by
  cases place with
  | none =>
    simp only [moves, List.mem_append, List.mem_map] at h
    rcases h with ⟨c, -, rfl⟩ | ⟨c, -, rfl⟩ | ⟨c, -, rfl⟩ <;> cases hi
  | some j =>
    simp only [moves, List.mem_append, List.mem_map] at h
    rcases h with ⟨c, -, rfl⟩ | ⟨c, -, rfl⟩ | ⟨c, -, rfl⟩ <;> cases hi
    · exact ⟨j, rfl, .inl rfl⟩
    · exact ⟨j, rfl, .inl rfl⟩
    · exact ⟨j, rfl, .inr rfl⟩

/-- The moves of a branch fill the inputs of its place. -/
theorem slot?_moves (hc : n.slot? (Conditional.condition j) = some (.value none o))
    (hb : n.slot? (Conditional.body j) = some (.statements [])) :
    (refitAll (b.moves (some j)) n).slot? (Conditional.condition j) =
        some (.value b.condition (b.shadow.or o)) ∧
      (refitAll (b.moves (some j)) n).slot? (Conditional.body j) = some (.statements b.body) := by
  obtain ⟨condition, shadow, body⟩ := b
  have hne := Conditional.body_ne_condition j j
  -- the default and the condition come first, and leave the body empty
  have hfront : ∃ n', refitAll (shadow.toList.map (.shadow (Conditional.condition j)) ++
        condition.toList.map (.value (Conditional.condition j))) n = n' ∧
      n'.slot? (Conditional.condition j) = some (.value condition (shadow.or o)) ∧
      n'.slot? (Conditional.body j) = some (.statements []) := by
    refine ⟨_, rfl, ?_, ?_⟩
    · cases shadow <;> cases condition <;>
        simp [refitAll, slot?_refit, input?, fill, hc, shadowInSlot, childInSlot]
    · rw [slot?_refitAll_of_not, hb]
      intro mv hmv hi
      rcases List.mem_append.mp hmv with hmv | hmv <;> obtain ⟨c, -, rfl⟩ := List.mem_map.mp hmv <;>
        exact hne (Option.some.inj hi).symm
  obtain ⟨n', hn', hc', hb'⟩ := hfront
  rw [moves, ← List.append_assoc, refitAll_append, hn']
  refine ⟨?_, slot?_refitAll_statements body hb'⟩
  rw [slot?_refitAll_of_not, hc']
  intro mv hmv hi
  obtain ⟨c, -, rfl⟩ := List.mem_map.mp hmv
  exact hne (Option.some.inj hi)

theorem filterMap_released (b : Branch) (place : Option Nat) :
    (b.moves place).filterMap released? =
      if place.isNone then b.condition.toList ++ b.body else [] := by
  have hkept {α : Type} {f : α → Move} (hf : ∀ a, (f a).released? = none) (l : List α) :
      (l.map f).filterMap released? = [] := by
    rw [List.filterMap_map, List.filterMap_eq_nil_iff]
    exact fun a _ => hf a
  have hfreed (l : List NodeId) : (l.map Move.release).filterMap released? = l := by
    rw [List.filterMap_map]
    exact List.filterMap_some
  cases place with
  | none => simp [moves, hkept (f := Move.discard) (fun _ => rfl), hfreed]
  | some j =>
    simp [moves, hkept (f := Move.shadow _) (fun _ => rfl),
      hkept (f := Move.value _) (fun _ => rfl), hkept (f := Move.statement _) (fun _ => rfl)]

end Branch

theorem Shifting.get?_run_self {w : Workspace} {id : NodeId} {ms : List Move} {rest : List NodeId}
    {n : Node} (h : Shifting w id ms rest) (hn : w.get? id = some n) :
    (ms.foldl (Workspace.carry id) w).get? id = some (Move.refitAll ms n) := by
  induction ms generalizing w n with
  | nil => exact hn
  | cons mv ms ih => exact ih h.carry (h.get?_carry_self hn)

/-! ## A whole conditional -/

namespace Node

open Move

variable {n m : Node} {old target : Mutation} {place : Nat → Option Nat} {keep : Bool} {i j k : Nat}
  {s : NodeId}

/-- The place of a branch, if it stays. -/
def goesTo (place : Nat → Option Nat) (target : Mutation) (j : Nat) : Option Nat :=
  (place j).filter (· < target.branches)

/-- The moves of one branch, and those before and after it. -/
theorem moves_split (n : Node) (target : Mutation) (place : Nat → Option Nat) (keep : Bool)
    (hj : j < old.branches) :
    ∃ before after : List Nat, (∀ i ∈ before, i ≠ j) ∧ (∀ i ∈ after, i ≠ j) ∧
      n.moves old target place keep =
        before.flatMap (fun i => (n.branch i).moves (goesTo place target i)) ++
          ((n.branch j).moves (goesTo place target j) ++
            (after.flatMap (fun i => (n.branch i).moves (goesTo place target i)) ++
              (n.statements Conditional.otherwise).map
                (if keep && target.hasElse then .statement Conditional.otherwise
                  else .release))) := by
  obtain ⟨before, after, hsplit⟩ := List.append_of_mem (List.mem_range.mpr hj)
  have hnd := List.nodup_range (n := old.branches)
  rw [hsplit, List.nodup_append', List.nodup_cons] at hnd
  obtain ⟨-, ⟨hafter, -⟩, hdisjoint⟩ := hnd
  refine ⟨before, after, fun i hi he => ?_, fun i hi he => hafter (he ▸ hi), ?_⟩
  · exact hdisjoint (he ▸ hi) List.mem_cons_self
  · rw [moves, hsplit, List.flatMap_append, List.flatMap_cons, List.append_assoc, List.append_assoc]
    rfl

/-- The moves of the body of an `else` fill no input of a branch. -/
theorem input_of_otherwise {mv : Move} {input : String}
    (h : mv ∈ (n.statements Conditional.otherwise).map
      (if keep && target.hasElse then .statement Conditional.otherwise else .release))
    (hi : mv.input? = some input) : input = Conditional.otherwise := by
  obtain ⟨c, -, rfl⟩ := List.mem_map.mp h
  split at hi
  · exact (Option.some.inj hi).symm
  · cases hi

/-- Inputs at a place to which no branch of a list goes are left alone. -/
theorem slot?_refitAll_branches (n : Node) {is : List Nat} {input : String}
    (his : ∀ i ∈ is, goesTo place target i ≠ some k)
    (hinput : input = Conditional.condition k ∨ input = Conditional.body k) :
    (refitAll (is.flatMap fun i => (n.branch i).moves (goesTo place target i)) m).slot? input =
      m.slot? input := by
  refine slot?_refitAll_of_not fun mv hmv hi => ?_
  obtain ⟨i, hi', hmv⟩ := List.mem_flatMap.mp hmv
  obtain ⟨k', hk', hname⟩ := Branch.input_of_mem hmv hi
  refine his i hi' ?_
  rcases hinput with rfl | rfl <;> rcases hname with hname | hname
  · rw [hk', Conditional.condition_inj.mp hname]
  · exact absurd hname.symm (Conditional.body_ne_condition k' k)
  · exact absurd hname (Conditional.body_ne_condition k k')
  · rw [hk', Conditional.body_inj.mp hname]

theorem slot?_refitAll_otherwise {input : String} (hinput : input ≠ Conditional.otherwise) :
    (refitAll ((n.statements Conditional.otherwise).map
      (if keep && target.hasElse then .statement Conditional.otherwise else .release)) m).slot?
        input = m.slot? input :=
  slot?_refitAll_of_not fun _ hmv hi => hinput (input_of_otherwise hmv hi)

/-- A branch that stays has the same condition and the same body at its new place, and its default
in front of a fresh one. -/
theorem slot?_moves_branch (n : Node) (keep : Bool)
    (hinj : ∀ i j k, place i = some k → place j = some k → i = j) (hj : j < old.branches)
    (hk : goesTo place target j = some k) {o : Option NodeId}
    (hc : m.slot? (Conditional.condition k) = some (.value none o))
    (hb : m.slot? (Conditional.body k) = some (.statements [])) :
    (refitAll (n.moves old target place keep) m).slot? (Conditional.condition k) =
        some (.value (n.branch j).condition ((n.branch j).shadow.or o)) ∧
      (refitAll (n.moves old target place keep) m).slot? (Conditional.body k) =
        some (.statements (n.branch j).body) := by
  obtain ⟨before, after, hbefore, hafter, hmoves⟩ := n.moves_split target place keep hj
  have hother (i : Nat) (hi : i ≠ j) : goesTo place target i ≠ some k := fun hik =>
    hi (hinj i j k (Option.filter_eq_some_iff.mp hik).1 (Option.filter_eq_some_iff.mp hk).1)
  rw [hmoves, refitAll_append, refitAll_append, refitAll_append, hk]
  have hstart := Branch.slot?_moves (b := n.branch j) (j := k)
    ((slot?_refitAll_branches n (fun i hi => hother i (hbefore i hi)) (.inl rfl)).trans hc)
    ((slot?_refitAll_branches n (fun i hi => hother i (hbefore i hi)) (.inr rfl)).trans hb)
  constructor
  · rw [slot?_refitAll_otherwise (Conditional.otherwise_ne_condition k).symm,
      slot?_refitAll_branches n (fun i hi => hother i (hafter i hi)) (.inl rfl)]
    exact hstart.1
  · rw [slot?_refitAll_otherwise (Conditional.otherwise_ne_body k).symm,
      slot?_refitAll_branches n (fun i hi => hother i (hafter i hi)) (.inr rfl)]
    exact hstart.2

/-- At a place to which no branch goes the inputs stay as they are. -/
theorem slot?_moves_fresh (hk : ∀ j < old.branches, goesTo place target j ≠ some k)
    {input : String} (hinput : input = Conditional.condition k ∨ input = Conditional.body k) :
    (refitAll (n.moves old target place keep) m).slot? input = m.slot? input := by
  have hne : input ≠ Conditional.otherwise := by
    rcases hinput with rfl | rfl
    · exact (Conditional.otherwise_ne_condition k).symm
    · exact (Conditional.otherwise_ne_body k).symm
  rw [moves, refitAll_append, slot?_refitAll_otherwise hne]
  exact slot?_refitAll_branches n (fun i hi => hk i (List.mem_range.mp hi)) hinput

/-- The body of an `else` that stays. -/
theorem slot?_moves_otherwise (n : Node) (old : Mutation) (place : Nat → Option Nat)
    (hkeep : (keep && target.hasElse) = true)
    (ho : m.slot? Conditional.otherwise = some (.statements [])) :
    (refitAll (n.moves old target place keep) m).slot? Conditional.otherwise =
      some (.statements (n.statements Conditional.otherwise)) := by
  rw [moves, refitAll_append, if_pos hkeep]
  refine slot?_refitAll_statements _ ((slot?_refitAll_of_not fun mv hmv hi => ?_).trans ho)
  obtain ⟨i, -, hmv⟩ := List.mem_flatMap.mp hmv
  obtain ⟨k, -, hname⟩ := Branch.input_of_mem hmv hi
  rcases hname with hname | hname
  · exact Conditional.otherwise_ne_condition k hname
  · exact Conditional.otherwise_ne_body k hname

/-- What is released: condition and body of each branch that goes, then the body of an `else` that
goes. -/
theorem filterMap_released_moves (n : Node) (old target : Mutation) (place : Nat → Option Nat)
    (keep : Bool) : (n.moves old target place keep).filterMap released? =
      (List.range old.branches).flatMap (fun j => if (goesTo place target j).isNone then
        (n.branch j).condition.toList ++ (n.branch j).body else []) ++
      if keep && target.hasElse then [] else n.statements Conditional.otherwise := by
  rw [moves, List.filterMap_append, List.filterMap_flatMap]
  refine congrArg₂ (· ++ ·) (List.flatMap_congr fun j _ => Branch.filterMap_released _ _) ?_
  rw [List.filterMap_map]
  split
  · exact List.filterMap_eq_nil_iff.mpr fun _ _ => rfl
  · exact List.filterMap_some

/-- What is removed: the default of each branch that goes. -/
theorem discard_mem_moves : .discard s ∈ n.moves old target place keep ↔
    ∃ j < old.branches, goesTo place target j = none ∧ (n.branch j).shadow = some s := by
  rw [moves, List.mem_append]
  constructor
  · rintro (h | h)
    · obtain ⟨j, hj, h⟩ := List.mem_flatMap.mp h
      refine ⟨j, List.mem_range.mp hj, ?_⟩
      rw [← goesTo] at h
      cases hp : goesTo place target j with
      | none => simpa [hp, Branch.moves] using h
      | some k => simp [hp, Branch.moves] at h
    · obtain ⟨c, -, h⟩ := List.mem_map.mp h
      split at h <;> cases h
  · rintro ⟨j, hj, hp, hs⟩
    refine .inl (List.mem_flatMap.mpr ⟨j, List.mem_range.mpr hj, ?_⟩)
    rw [← goesTo, hp]
    simp [Branch.moves, hs]

end Node

/-! ## A change of mutation -/

/-- `v` is `w` after a conditional has gone from one mutation to another, with its branches moved as
`place` says and the nodes in `loose` released. -/
structure Rebranched (r : Registry) (w v : Workspace) (id : NodeId) (n m : Node)
    (old target : Mutation) (place : Nat → Option Nat) (loose : List NodeId) : Prop where
  /-- Of the conditional only the inputs and the mutation change. -/
  node : v.get? id = some m ∧ m = { n with inputs := m.inputs, mutation := some target }
  /-- The inputs are those of the new mutation. -/
  layout : Laid (Slot.Fits (v.role? r)) (Conditional.inputs target) m.inputs
  /-- A branch that stays has the same condition, the same default and the same body. -/
  stays : ∀ j < old.branches, ∀ k, place j = some k → m.branch k = n.branch j
  /-- A new branch has a fresh default and nothing else. -/
  fresh : ∀ k < target.branches, (∀ j < old.branches, place j ≠ some k) →
    ∃ s, w.nextId ≤ s ∧ m.branch k = ⟨none, some s, []⟩
  /-- An `else` that stays has the same body. -/
  otherwise : target.hasElse = true →
    m.statements Conditional.otherwise = n.statements Conditional.otherwise
  /-- What hung on the branches that go, and on an `else` that goes, is released. -/
  released : loose = (List.range old.branches).flatMap (fun j =>
      if (place j).isNone then (n.branch j).condition.toList ++ (n.branch j).body else []) ++
    if target.hasElse then [] else n.statements Conditional.otherwise
  roots : v.roots = w.roots ++ loose
  freed : ∀ x ∈ loose, ∃ k, w.get? x = some k ∧ v.get? x = some { k with parent := none }
  /-- The defaults of the branches that go are removed. -/
  gone : ∀ j < old.branches, place j = none → ∀ s ∈ (n.branch j).shadow, v.get? s = none
  /-- All other nodes are as they were. -/
  others : ∀ x k, w.get? x = some k → x ≠ id → x ∉ loose →
    (∀ j < old.branches, place j = none → (n.branch j).shadow ≠ some x) → v.get? x = some k
  /-- The nodes that are no defaults are the same. -/
  real : ∀ x, (∃ k, v.get? x = some k ∧ k.shadow = false) ↔
    ∃ k, w.get? x = some k ∧ k.shadow = false
  /-- The nodes that are new are the defaults of the new branches. -/
  new : ∀ x, (w.get? x = none ∧ v.get? x ≠ none) ↔
    ∃ k < target.branches, (∀ j < old.branches, place j ≠ some k) ∧ (m.branch k).shadow = some x

theorem Node.branch_of_slots {m : Node} {k : Nat} {c s : Option NodeId} {cs : List NodeId}
    (hc : m.slot? (Conditional.condition k) = some (.value c s))
    (hb : m.slot? (Conditional.body k) = some (.statements cs)) : m.branch k = ⟨c, s, cs⟩ := by
  simp [branch, statements, hc, hb]

/-! ### The branches of a conditional are its inputs -/

namespace Node

variable {n : Node} {old : Mutation} {role? : NodeId → Option Role}

theorem slots_of_branch (h : Laid (Slot.Fits role?) (Conditional.inputs old) n.inputs) {j : Nat}
    (hj : j < old.branches) :
    n.slot? (Conditional.condition j) = some (.value (n.branch j).condition (n.branch j).shadow) ∧
      n.slot? (Conditional.body j) = some (.statements (n.branch j).body) := by
  obtain ⟨c, hc, hfc⟩ := slot?_condition h hj
  obtain ⟨b, hb, hfb⟩ := slot?_body h hj
  cases c with
  | statements _ => exact hfc.elim
  | value child shadow =>
    cases b with
    | value _ _ => exact hfb.elim
    | statements cs =>
      rw [branch_of_slots hc hb]
      exact ⟨hc, hb⟩

theorem nodup_input_names {P : InputSpec → Slot → Prop}
    (h : Laid P (Conditional.inputs old) n.inputs) : (n.inputs.map (·.name)).Nodup := by
  rw [h.map_name, Conditional.map_name_inputs]
  exact Conditional.nodup_names old

/-- A default of a conditional is the default of one of its branches. -/
theorem branch_of_default (h : Laid (Slot.Fits role?) (Conditional.inputs old) n.inputs)
    {name : String} {child : Option NodeId} {x : NodeId}
    (hi : ⟨name, .value child (some x)⟩ ∈ n.inputs) :
    ∃ j < old.branches, (n.branch j).shadow = some x := by
  have hslot : n.slot? name = some (.value child (some x)) :=
    slot?_of_mem (nodup_input_names h) hi
  obtain ⟨spec, hspec, hname, hf⟩ := h.of_mem hi
  rcases List.mem_append.mp hspec with hspec | hspec
  · obtain ⟨j, hj, hspec⟩ := List.mem_flatMap.mp hspec
    have hj := List.mem_range.mp hj
    simp only [List.mem_cons, List.not_mem_nil, or_false] at hspec
    rcases hspec with rfl | rfl
    · obtain rfl : Conditional.condition j = name := hname
      exact ⟨j, hj, by simp [branch, hslot]⟩
    · exact hf.elim
  · cases hold : old.hasElse with
    | false => simp [hold] at hspec
    | true =>
      obtain rfl : spec = .statement Conditional.otherwise := by simpa [hold] using hspec
      exact hf.elim

end Node

theorem Workspace.seen?_isSome {w : Workspace} {x : NodeId} :
    (w.seen? x).isSome ↔ ∃ k, w.get? x = some k ∧ k.shadow = false := by
  cases hk : w.get? x with
  | none => simp [seen?, hk]
  | some k => cases hs : k.shadow <;> simp [seen?_of_get? hk, hs]

/-- Only a conditional has a mutation. -/
theorem Tidy.branching {r : Registry} {w : Workspace} {id : NodeId} {n : Node} {old : Mutation}
    (h : Tidy r w) (hn : w.get? id = some n) (hm : n.mutation = some old) :
    ∃ d, r.find? n.kind = some d ∧ d.shape.layout = .branching := by
  obtain ⟨d, hd, hbranching, -⟩ := h.conforms.described id n hn
  rw [hm] at hbranching
  exact ⟨d, hd, Shape.layout_of_isBranching hbranching.symm⟩

/-- The inputs of a conditional are those of its mutation. -/
theorem Tidy.laid_mutation {r : Registry} {w : Workspace} {id : NodeId} {n : Node} {old : Mutation}
    (h : Tidy r w) (hn : w.get? id = some n) (hm : n.mutation = some old) :
    Laid (Slot.Fits (w.role? r)) (Conditional.inputs old) n.inputs := by
  obtain ⟨d, hd, hl⟩ := h.branching hn hm
  exact (h.laid_conditional hn hd hl hm).1

/-- The default of a branch is a node of the workspace. -/
theorem Tidy.get?_shadow {r : Registry} {w : Workspace} {id x : NodeId} {n : Node} {old : Mutation}
    (h : Tidy r w) (hn : w.get? id = some n) (hm : n.mutation = some old) {j : Nat}
    (hj : j < old.branches) (hs : (n.branch j).shadow = some x) : ∃ k, w.get? x = some k := by
  obtain ⟨hslot, -⟩ := Node.slots_of_branch (h.laid_mutation hn hm) hj
  have howned : x ∈ n.owned := Node.owned_of_slot? hslot (by simp [Slot.owned, hs])
  obtain ⟨k, hk, -⟩ := h.wellFormed.owned_there id n x hn howned
  exact ⟨k, hk⟩

/-- A conditional with fresh inputs, whose defaults have ids from `first` on. -/
def Node.bare (n : Node) (target : Mutation) (first : NodeId) : Node :=
  { n with inputs := freshInputs (Conditional.inputs target) first, mutation := some target }

theorem Node.laid_bare (r : Registry) (w : Workspace) (n : Node) (target : Mutation) :
    Laid (Slot.Fresh fun o => w.nextId ≤ o) (Conditional.inputs target)
      (n.bare target w.nextId).inputs := by
  refine forall₂_freshInputs r n.id (fun name check s x _ hx => ⟨x, rfl, ?_⟩) (fun _ _ => rfl)
    fun _ => rfl
  exact (mem_ids_defaultNodes (List.mem_map_of_mem hx)).1

/-- Nothing that was there before stands in a fresh input. -/
theorem Node.not_mem_bare (r : Registry) {w : Workspace} (hlt : w.Below) {x : NodeId} {k : Node}
    {n : Node} (hk : w.get? x = some k) (target : Mutation) (input : String) :
    x ∉ (n.bare target w.nextId).ownedIn input := by
  intro hx
  have howned := owned_of_ownedIn hx
  rw [owned, bare, owned_freshInputs r n.id] at howned
  exact Nat.lt_irrefl _ (Nat.lt_of_lt_of_le (hlt x k hk) (mem_ids_defaultNodes howned).1)

/-- A branch that stays has at its new place what it had. -/
theorem Node.branch_refitAll_stays (r : Registry) (w : Workspace) {n : Node} {old target : Mutation}
    {place : Nat → Option Nat} {j k : Nat} {s : NodeId}
    (hinj : ∀ i j k, place i = some k → place j = some k → i = j) (hj : j < old.branches)
    (hk : goesTo place target j = some k) (hs : (n.branch j).shadow = some s) :
    (Move.refitAll (n.moves old target place true) (n.bare target w.nextId)).branch k =
      n.branch j := by
  have hlaid := laid_bare r w n target
  have hlt : k < target.branches := of_decide_eq_true (Option.filter_eq_some_iff.mp hk).2
  obtain ⟨_, hc, o, rfl, -⟩ := slot?_condition hlaid hlt
  obtain ⟨_, hb, rfl⟩ := slot?_body hlaid hlt
  obtain ⟨hc', hb'⟩ := slot?_moves_branch n true hinj hj hk hc hb
  rw [branch_of_slots hc' hb', hs, Option.some_or, ← hs]

/-- A branch to which none is moved has only a default, which is new. -/
theorem Node.branch_refitAll_fresh (r : Registry) (w : Workspace) (n : Node) {old target : Mutation}
    {place : Nat → Option Nat} {k : Nat} (hk : k < target.branches)
    (hnew : ∀ j < old.branches, goesTo place target j ≠ some k) :
    ∃ s, w.nextId ≤ s ∧
      (Move.refitAll (n.moves old target place true) (n.bare target w.nextId)).branch k =
        ⟨none, some s, []⟩ := by
  have hlaid := laid_bare r w n target
  obtain ⟨_, hc, o, rfl, ho⟩ := slot?_condition hlaid hk
  obtain ⟨_, hb, rfl⟩ := slot?_body hlaid hk
  refine ⟨o, ho, branch_of_slots ?_ ?_⟩
  · rw [slot?_moves_fresh hnew (.inl rfl), hc]
  · rw [slot?_moves_fresh hnew (.inr rfl), hb]

namespace Reshaped

variable {r : Registry} {w : Workspace} {id x : NodeId} {n k : Node} {old target : Mutation}
  {ms : List Move} {e : Edited (List NodeId)}

theorem get?_refurnish_self (h : Tidy r w) (he : Reshaped r w id n old target ms e) :
    (w.refurnish r id target).get? id = some (n.bare target w.nextId) :=
  (get?_furnish r _ _ h.below he.node id _).mpr (.inl ⟨rfl, rfl⟩)

theorem get?_refurnish_of_ne (h : Tidy r w) (he : Reshaped r w id n old target ms e)
    (hk : w.get? x = some k) (hx : x ≠ id) : (w.refurnish r id target).get? x = some k :=
  (get?_furnish r _ _ h.below he.node x k).mpr (.inr (.inr ⟨hx, hk⟩))

/-- The conditional after the change. -/
theorem get?_self (h : Tidy r w) (he : Reshaped r w id n old target ms e) :
    e.workspace.get? id = some (Move.refitAll ms (n.bare target w.nextId)) := by
  rw [he.outcome]
  exact he.shifting.get?_run_self (he.get?_refurnish_self h)

/-- The node of a move after the change. -/
theorem get?_node (hr : r.Sound) (h : Tidy r w) (he : Reshaped r w id n old target ms e) {mv : Move}
    (hmv : mv ∈ ms) : ∃ k, w.get? mv.node = some k ∧ e.workspace.get? mv.node = mv.settle k := by
  have hwaits : mv.node ∈ waiting ms (n.strays old) :=
    List.mem_append_left _ (List.mem_map_of_mem hmv)
  obtain ⟨place, keep, hms⟩ := he.moves
  have hpending : mv.node ∈ n.pending old := by
    rw [← Node.map_node_moves n old target place keep, ← hms]
    exact List.mem_map_of_mem hmv
  obtain ⟨l, hlink, -⟩ :=
    h.forest.linked.owned_there (wiring_of_get? he.node) (Node.pending_subset hpending)
  obtain ⟨k, hk, -⟩ := get?_of_wiring hlink
  refine ⟨k, hk, ?_⟩
  rw [he.outcome]
  exact (h.moving hr he).get?_run_node hr hmv
    (he.get?_refurnish_of_ne h hk (he.shifting.ne_self hwaits))

/-- A node that no move takes. -/
theorem get?_of_not_mem (hr : r.Sound) (h : Tidy r w) (he : Reshaped r w id n old target ms e)
    (hk : w.get? x = some k) (hx : x ≠ id) (hm : x ∉ ms.map Move.node) :
    e.workspace.get? x = some k := by
  rw [he.outcome]
  exact ((h.moving hr he).get?_run_of_ne hr (he.get?_refurnish_self h) hx hm
    fun input _ _ => Node.not_mem_bare r h.below hk target input).trans (he.get?_refurnish_of_ne h hk hx)

theorem roots_eq (he : Reshaped r w id n old target ms e) :
    e.workspace.roots = w.roots ++ ms.filterMap Move.released? := by
  rw [he.outcome]
  exact he.shifting.roots_run.trans (congrArg (· ++ _) (roots_addAll w _))

/-- A released node was no default, and is a root. -/
theorem get?_released (hr : r.Sound) (h : Tidy r w) (he : Reshaped r w id n old target ms e)
    (hx : x ∈ ms.filterMap Move.released?) :
    ∃ k, w.get? x = some k ∧ k.shadow = false ∧
      e.workspace.get? x = some { k with parent := none } := by
  obtain ⟨mv, hmv, hfreed⟩ := List.mem_filterMap.mp hx
  obtain ⟨k, hk, hsettle⟩ := he.get?_node hr h hmv
  have hready := (h.moving hr he).ready mv hmv
  cases mv with
  | release c =>
    obtain rfl : c = x := Option.some.inj hfreed
    refine ⟨k, hk, ?_, hsettle⟩
    have hflag : (w.tag? c).any (fun t => t.shadow) = false := hready
    rw [Workspace.tag?, show w.get? c = some k from hk] at hflag
    simpa using hflag
  | shadow input c | value input c | statement input c | discard c => cases hfreed

/-- The nodes that are no defaults are the same before and after. -/
theorem real_iff (hr : r.Sound) (h : Tidy r w) (he : Reshaped r w id n old target ms e)
    (x : NodeId) : (∃ k, e.workspace.get? x = some k ∧ k.shadow = false) ↔
      ∃ k, w.get? x = some k ∧ k.shadow = false := by
  have hrun := (h.moving hr he).seen?_run hr x
  have hbare := seen?_furnish (f := fun n => { n with mutation := some target }) r
    (Conditional.inputs target) h.below he.node (fun _ => ⟨rfl, rfl⟩) x
  rw [← seen?_isSome, ← seen?_isSome, he.outcome, hrun, refurnish, hbare]
  by_cases hx : x ∈ ms.filterMap Move.released?
  · obtain ⟨k, hk, hflag, -⟩ := he.get?_released hr h hx
    rw [if_pos hx, seen?_isSome]
    exact iff_of_true rfl ⟨k, hk, hflag⟩
  · rw [if_neg hx]

/-- The other nodes that are no defaults have the inputs that they had. -/
theorem inputs_of_ne (hr : r.Sound) (h : Tidy r w) (he : Reshaped r w id n old target ms e)
    (hk : e.workspace.get? x = some k) (hx : x ≠ id) (hreal : k.shadow = false) :
    ∃ k', w.get? x = some k' ∧ k.inputs = k'.inputs := by
  obtain ⟨k', hk', -⟩ := (he.real_iff hr h x).mp ⟨k, hk, hreal⟩
  refine ⟨k', hk', ?_⟩
  by_cases hm : x ∈ ms.map Move.node
  · obtain ⟨mv, hmv, rfl⟩ := List.mem_map.mp hm
    obtain ⟨l, hl, hsettle⟩ := he.get?_node hr h hmv
    obtain rfl : l = k' := Option.some.inj (hl.symm.trans hk')
    rw [hsettle] at hk
    cases mv with
    | discard c => cases hk
    | shadow _ _ | value _ _ | statement _ _ | release _ =>
      rw [← Option.some.inj hk]
  · rw [Option.some.inj (hk.symm.trans (he.get?_of_not_mem hr h hk' hx hm))]

/-- A node that is new is the default of a branch. -/
theorem default_of_new {m : Node} (hr : r.Sound) (h : Tidy r w) (hv : Tidy r e.workspace)
    (he : Reshaped r w id n old target ms e) (hm : e.workspace.get? id = some m)
    (hmutation : m.mutation = some target) (hk : e.workspace.get? x = some k)
    (hnew : w.get? x = none) : ∃ j < target.branches, (m.branch j).shadow = some x := by
  have hflag : k.shadow = true := by
    by_contra hreal
    obtain ⟨k', hk', -⟩ := (he.real_iff hr h x).mp ⟨k, hk, Bool.eq_false_iff.mpr hreal⟩
    rw [hnew] at hk'
    cases hk'
  obtain ⟨p, l, name, child, hl, hi⟩ := (hv.shadow_iff hk).mp hflag
  by_cases hp : p = id
  · subst hp
    obtain rfl : l = m := Option.some.inj (hl.symm.trans hm)
    exact Node.branch_of_default (hv.laid_mutation hm hmutation) hi
  -- Any other node that has a default is none itself, and had this one before.
  · exfalso
    have hreal : l.shadow = false := by
      rw [Bool.eq_false_iff]
      intro hflag
      obtain ⟨_, q, _, _, hq, hj⟩ := (hv.shadow_iff hl).mp hflag
      obtain ⟨l', hl', hleaf, -⟩ := hv.leaf_of_input hr hq hj
      obtain rfl : l' = l := Option.some.inj (hl'.symm.trans hl)
      rw [hleaf] at hi
      cases hi
    obtain ⟨l', hl', hinputs⟩ := he.inputs_of_ne hr h hl hp hreal
    have howned : x ∈ l'.owned := List.mem_flatMap.mpr ⟨_, hinputs ▸ hi, by simp [Slot.owned]⟩
    obtain ⟨k', hk', -⟩ := h.wellFormed.owned_there p l' x hl' howned
    rw [hnew] at hk'
    cases hk'

/-- The new nodes are the defaults of the branches to which none was moved. -/
theorem new_iff {m : Node} {place : Nat → Option Nat} (hr : r.Sound) (h : Tidy r w)
    (hv : Tidy r e.workspace) (he : Reshaped r w id n old target ms e)
    (hm : e.workspace.get? id = some m) (hmutation : m.mutation = some target)
    (hstays : ∀ j < old.branches, ∀ k, place j = some k → m.branch k = n.branch j)
    (hfresh : ∀ k < target.branches, (∀ j < old.branches, place j ≠ some k) →
      ∃ s, w.nextId ≤ s ∧ m.branch k = ⟨none, some s, []⟩) :
    (w.get? x = none ∧ e.workspace.get? x ≠ none) ↔
      ∃ k < target.branches, (∀ j < old.branches, place j ≠ some k) ∧
        (m.branch k).shadow = some x := by
  constructor
  · rintro ⟨hnone, hsome⟩
    obtain ⟨k, hk⟩ := Option.ne_none_iff_exists'.mp hsome
    obtain ⟨i, hi, hs⟩ := he.default_of_new hr h hv hm hmutation hk hnone
    refine ⟨i, hi, fun j hj hplace => ?_, hs⟩
    -- a branch that stays has its old default
    rw [hstays j hj i hplace] at hs
    obtain ⟨k', hk'⟩ := h.get?_shadow he.node he.mutation hj hs
    rw [hnone] at hk'
    cases hk'
  · rintro ⟨i, hi, hnew, hs⟩
    obtain ⟨k, hk⟩ := hv.get?_shadow hm hmutation hi hs
    obtain ⟨s, hle, hbranch⟩ := hfresh i hi hnew
    obtain rfl : s = x := by simpa [hbranch] using hs
    refine ⟨?_, by simp [hk]⟩
    by_contra hsome
    obtain ⟨k', hk'⟩ := Option.ne_none_iff_exists'.mp hsome
    exact Nat.lt_irrefl _ (Nat.lt_of_lt_of_le (h.below s k' hk') hle)

end Reshaped

namespace Tidy

variable {r : Registry} {w : Workspace} {id : NodeId} {n : Node} {old target : Mutation}
  {place : Nat → Option Nat} {keep : Bool} {e : Edited (List NodeId)}

/-- Every condition has its default. -/
theorem shadow_branch (h : Tidy r w) (hn : w.get? id = some n) (hm : n.mutation = some old)
    {j : Nat} (hj : j < old.branches) : ∃ s, (n.branch j).shadow = some s := by
  obtain ⟨d, hd, hl⟩ := h.branching hn hm
  obtain ⟨-, hfurnished⟩ := h.laid_conditional hn hd hl hm
  obtain ⟨s, hs, hf⟩ := Node.slot?_condition hfurnished hj
  cases s with
  | statements _ => exact hf.elim
  | value child shadow =>
    cases shadow with
    | none => cases hf.2
    | some o => exact ⟨o, by simp [Node.branch, hs]⟩

/-- If there is no `else`, it does not matter whether its body is kept. -/
theorem moves_keep (h : Tidy r w) (hn : w.get? id = some n) (hm : n.mutation = some old)
    (hkeep : target.hasElse = true → keep = false → old.hasElse = false) :
    n.moves old target place keep = n.moves old target place true := by
  cases keep with
  | true => rfl
  | false =>
    cases htarget : target.hasElse with
    | false => simp only [Node.moves, htarget, Bool.and_false]
    | true =>
      have hnone := Node.statements_otherwise (h.laid_mutation hn hm) (hkeep htarget rfl)
      simp only [Node.moves, hnone, List.map_nil]

/-- What a change of mutation that got through makes of a workspace. -/
theorem rebranched (hr : r.Sound) (h : Tidy r w)
    (hinj : ∀ i j k, place i = some k → place j = some k → i = j)
    (hkeep : target.hasElse = true → keep = false → old.hasElse = false)
    (he : Reshaped r w id n old target (n.moves old target place keep) e) :
    ∃ m, Rebranched r w e.workspace id n m old target (Node.goesTo place target)
      ((n.moves old target place keep).filterMap Move.released?) := by
  rw [h.moves_keep he.node he.mutation hkeep] at he ⊢
  have htidy := h.reshaping hr (.changed he)
  have heq := Move.refitAll_eq (n.moves old target place true) (n.bare target w.nextId)
  have hself := he.get?_self h
  generalize hm : Move.refitAll (n.moves old target place true) (n.bare target w.nextId) = m
    at heq hself
  have hmutation : m.mutation = some target := congrArg Node.mutation heq
  have hstays : ∀ j < old.branches, ∀ k, Node.goesTo place target j = some k →
      m.branch k = n.branch j := by
    intro j hj k hk
    obtain ⟨s, hs⟩ := h.shadow_branch he.node he.mutation hj
    rw [← hm]
    exact Node.branch_refitAll_stays r w hinj hj hk hs
  have hfresh : ∀ k < target.branches, (∀ j < old.branches, Node.goesTo place target j ≠ some k) →
      ∃ s, w.nextId ≤ s ∧ m.branch k = ⟨none, some s, []⟩ := by
    intro k hk hnew
    rw [← hm]
    exact Node.branch_refitAll_fresh r w n hk hnew
  refine ⟨m, ⟨hself, heq⟩, htidy.laid_mutation hself hmutation, hstays, hfresh, fun htarget => ?_,
    ?_, he.roots_eq, fun x hx => ?_, fun j hj hj' s hs => ?_, fun x k hk hx hfree hgone => ?_,
    he.real_iff hr h, fun x => he.new_iff hr h htidy hself hmutation hstays hfresh⟩
  · obtain ⟨_, ho, rfl⟩ := Node.slot?_otherwise (Node.laid_bare r w n target) htarget
    have hkeep : (true && target.hasElse) = true := by rw [htarget]; rfl
    have hslot := Node.slot?_moves_otherwise n old place hkeep ho
    rw [← hm, Node.statements, hslot]
  · rw [Node.filterMap_released_moves, Bool.true_and]
  · obtain ⟨k, hk, -, hv⟩ := he.get?_released hr h hx
    exact ⟨k, hk, hv⟩
  · obtain ⟨k, -, hv⟩ := he.get?_node hr h (Node.discard_mem_moves.mpr ⟨j, hj, hj', hs⟩)
    exact hv
  · by_cases hm : x ∈ (n.moves old target place true).map Move.node
    · obtain ⟨mv, hmv, rfl⟩ := List.mem_map.mp hm
      obtain ⟨k', hk', hv⟩ := he.get?_node hr h hmv
      obtain rfl : k' = k := Option.some.inj (hk'.symm.trans hk)
      cases mv with
      | shadow input c | value input c | statement input c => exact hv
      | release c => exact (hfree (List.mem_filterMap.mpr ⟨_, hmv, rfl⟩)).elim
      | discard c =>
        obtain ⟨j, hj, hj', hs⟩ := Node.discard_mem_moves.mp hmv
        exact absurd hs (hgone j hj hj')
    · exact he.get?_of_not_mem hr h hk hx hm

end Tidy

/-! ## The edits of a conditional -/

/-- Whenever a change of mutation comes to its last look, every node that stays has arrived, and no
node is moved to the top level for it. -/
def Workspace.NothingStrays (w : Workspace) (r : Registry) (id : NodeId) (n : Node)
    (old target : Mutation) (place : Nat → Option Nat) (keep : Bool) : Prop :=
  ∀ bare inputs u,
    buildInputs (fun b w => w.make r b) id (Conditional.inputs target) w = (bare, .ok inputs) →
    moveAll id (n.moves old target place keep)
      (bare.update id fun n => { n with inputs := inputs, mutation := some target }) = (u, .ok ()) →
    rescue id ((n.moves old target place keep).filterMap Move.survivor?) u = (u, [])

theorem Tidy.nothingStrays {r : Registry} {w : Workspace} {id : NodeId} {n : Node} {d : Definition}
    {place : Nat → Option Nat} (hr : r.Sound) (h : Tidy r w)
    (hn : w.get? id = some n) (hd : r.find? n.kind = some d) (hl : d.shape.layout = .branching)
    (old target : Mutation) (keep : Bool)
    (hplace : ((List.range old.branches).filterMap place).Nodup) :
    w.NothingStrays r id n old target place keep := by
  intro bare inputs u hbuild hmoves
  have hshift := h.forest.shifting_refurnish r h.below hn target keep hplace
  rcases buildInputs_conditional hr.plainConditions hd hl w id target with hok | ⟨e, herror⟩
  · obtain ⟨rfl, hinputs⟩ := Prod.mk.inj (hok.symm.trans hbuild)
    obtain rfl := Except.ok.inj hinputs
    obtain ⟨rfl, -⟩ := Prod.mk.inj (hshift.run.1.symm.trans hmoves)
    exact rescue_of_stands fun c hc => (hshift.survivors_arrived c hc).stands
  · cases (Prod.mk.inj (herror.symm.trans hbuild)).2

/-- An edit that changes the mutation of a conditional. -/
inductive Transition where
  | addBranch
  | removeBranch (index : Nat)
  | addElse
  | removeElse
  | reshape (target : Mutation)

namespace Transition

variable {t : Transition} {r : Registry} {w : Workspace} {id : NodeId} {old : Mutation}
  {loose : List NodeId}

/-- The edit of a node. -/
def edit (id : NodeId) : Transition → Edit
  | addBranch => .addBranch id
  | removeBranch index => .removeBranch id index
  | addElse => .addElse id
  | removeElse => .removeElse id
  | reshape target => .reshape id target

/-- The outcome of the edit, if its counts had no end. -/
def run (w : Workspace) (r : Registry) (id : NodeId) : Transition → Edited (List NodeId)
  | addBranch => w.addBranch r id
  | removeBranch index => w.removeBranch r id index
  | addElse => w.addElse r id
  | removeElse => w.removeElse r id
  | reshape target => w.reshape r id target

theorem run_edit (t : Transition) : (t.edit id).run r w = (t.run w r id).map .nodes := by
  cases t <;> rfl

/-- An edit of a conditional answers with nodes. -/
theorem run_of_run? {done : Edited Answer} (h : (t.edit id).run? r w = some done)
    (hok : done.answer = .ok (.nodes loose)) :
    (t.run w r id).answer = .ok loose ∧ (t.run w r id).workspace = done.workspace := by
  obtain ⟨-, -, rfl⟩ := Edit.run?_eq_some.mp h
  rw [run_edit] at hok ⊢
  obtain ⟨ids, hids, hnodes⟩ := Edited.answer_map_eq_ok.mp hok
  rw [← Answer.nodes.inj hnodes]
  exact ⟨hids, rfl⟩

/-- The mutation after the edit. -/
def target (old : Mutation) : Transition → Mutation
  | addBranch => { old with elseIfs := old.elseIfs + 1 }
  | removeBranch _ => { old with elseIfs := old.elseIfs - 1 }
  | addElse => { old with hasElse := true }
  | removeElse => { old with hasElse := false }
  | reshape target => target

/-- Where a branch is after the edit: those after a branch that is removed move up by one, and a
smaller mutation keeps the leading ones. -/
def place : Transition → Nat → Option Nat
  | addBranch, j | addElse, j | removeElse, j => some j
  | removeBranch index, j => if j < index then some j else if j = index then none else some (j - 1)
  | reshape target, j => if j < target.branches then some j else none

/-- Whether the body of an `else` may stay. -/
def keep (old : Mutation) : Transition → Bool
  | removeElse => false
  | reshape target => old.hasElse && target.hasElse
  | addBranch | removeBranch _ | addElse => true

theorem place_injective (t : Transition) (i j k : Nat) (hi : t.place i = some k)
    (hj : t.place j = some k) : i = j := by
  cases t with
  | addBranch | addElse | removeElse => exact Option.some.inj (hi.trans hj.symm)
  | removeBranch index =>
    simp only [place] at hi hj
    grind
  | reshape target =>
    simp only [place] at hi hj
    grind

theorem nodup_place (t : Transition) (bound : Nat) : ((List.range bound).filterMap t.place).Nodup :=
  Reshaping.nodup_filterMap_range fun i j k hij hi hj => by
    have := t.place_injective i j k hi hj
    omega

theorem get?_of_mutation (h : w.mutation id = .ok old) :
    ∃ n, w.get? id = some n ∧ n.mutation = some old := by
  unfold Workspace.mutation at h
  cases hn : w.node id with
  | error e =>
    rw [hn] at h
    cases h
  | ok n =>
    refine ⟨n, node_ok hn, ?_⟩
    simp only [hn] at h
    cases hm : n.mutation with
    | none =>
      rw [hm] at h
      cases h
    | some m =>
      rw [hm] at h
      exact congrArg some (Except.ok.inj h)

/-- An edit that is made is a change of mutation in which no branch is sent too far, and in which
every branch stays if there is nothing to change. -/
theorem run_eq (h : (t.run w r id).answer = .ok loose) :
    ∃ old, w.mutation id = .ok old ∧
      t.run w r id = w.changeShape r id (t.target old) t.place (t.keep old) ∧
      (∀ j < old.branches, Node.goesTo t.place (t.target old) j = t.place j) ∧
      ((t.target old).hasElse = true → t.keep old = false → old.hasElse = false) ∧
      (t.target old = old → ∀ j < old.branches, t.place j = some j) := by
  obtain ⟨old, hold⟩ : ∃ old, w.mutation id = .ok old := by
    cases hm : w.mutation id with
    | ok old => exact ⟨old, rfl⟩
    | error e =>
      cases t <;>
        simp [run, Workspace.addBranch, Workspace.removeBranch, Workspace.addElse,
          Workspace.removeElse, Workspace.reshape, hm, Edited.refused] at h
  refine ⟨old, hold, ?_⟩
  cases t with
  | addBranch =>
    refine ⟨by simp only [run, Workspace.addBranch, hold]; rfl, fun j hj => ?_, by simp [keep],
      fun _ _ _ => rfl⟩
    have : j < (addBranch.target old).branches := Nat.lt_succ_of_lt hj
    simp [Node.goesTo, place, this]
  | removeBranch index =>
    simp only [run, Workspace.removeBranch, hold] at h ⊢
    by_cases hrange : index = 0 ∨ old.elseIfs < index
    · rw [if_pos hrange] at h
      cases h
    · refine ⟨if_neg hrange, fun j hj => ?_, by simp [keep], fun hsame => ?_⟩
      · simp only [Node.goesTo, place, target, Mutation.branches] at hj ⊢
        grind
      · have hfewer : old.elseIfs - 1 = old.elseIfs := congrArg Mutation.elseIfs hsame
        omega
  | addElse =>
    simp only [run, Workspace.addElse, hold] at h ⊢
    by_cases helse : old.hasElse = true
    · rw [if_pos helse] at h
      cases h
    · refine ⟨if_neg helse, fun j hj => ?_, by simp [keep], fun _ _ _ => rfl⟩
      have : j < (addElse.target old).branches := hj
      simp [Node.goesTo, place, this]
  | removeElse =>
    simp only [run, Workspace.removeElse, hold] at h ⊢
    by_cases helse : old.hasElse = true
    · refine ⟨if_pos helse, fun j hj => ?_, by simp [target], fun _ _ _ => rfl⟩
      have : j < (removeElse.target old).branches := hj
      simp [Node.goesTo, place, this]
    · rw [if_neg helse] at h
      cases h
  | reshape target' =>
    refine ⟨by simp only [run, Workspace.reshape, hold]; rfl, fun j hj => ?_,
      fun htarget hkeep => ?_, fun hsame j hj => ?_⟩
    · simp only [Node.goesTo, place, target]
      grind
    · simp only [keep, target] at htarget hkeep
      rwa [htarget, Bool.and_true] at hkeep
    · obtain rfl : target' = old := hsame
      exact if_pos hj

end Transition

namespace Rebranched

variable {r : Registry} {w v : Workspace} {id : NodeId} {n m : Node} {old target : Mutation}
  {place place' : Nat → Option Nat} {loose : List NodeId}

/-- Only the branches that there are matter. -/
theorem congr (h : Rebranched r w v id n m old target place loose)
    (hplace : ∀ j < old.branches, place j = place' j) :
    Rebranched r w v id n m old target place' loose where
  node := h.node
  layout := h.layout
  stays j hj k hk := h.stays j hj k ((hplace j hj).trans hk)
  fresh k hk hnew := h.fresh k hk fun j hj hjk => hnew j hj ((hplace j hj).symm.trans hjk)
  otherwise := h.otherwise
  released := by
    rw [h.released]
    refine congrArg (· ++ _) (List.flatMap_congr fun j hj => ?_)
    rw [hplace j (List.mem_range.mp hj)]
  roots := h.roots
  freed := h.freed
  gone j hj hp := h.gone j hj ((hplace j hj).trans hp)
  others x k hk hx hfree hgone :=
    h.others x k hk hx hfree fun j hj hp => hgone j hj ((hplace j hj).symm.trans hp)
  real := h.real
  new x := by
    rw [h.new]
    refine exists_congr fun k => and_congr_right fun _ => and_congr_left fun _ => ?_
    exact forall₂_congr fun j hj => by rw [hplace j hj]

/-- Where no branch moves and the mutation is the same, nothing changes. -/
theorem refl (h : Tidy r w) (hn : w.get? id = some n) (hm : n.mutation = some old)
    (hplace : ∀ j < old.branches, place j = some j) :
    Rebranched r w w id n n old old place [] where
  node := ⟨hn, by rw [← hm]⟩
  layout := h.laid_mutation hn hm
  stays j hj k hk := by rw [Option.some.inj ((hplace j hj).symm.trans hk)]
  fresh k hk hnew := absurd (hplace k hk) (hnew k hk)
  otherwise _ := rfl
  released := by
    have hnone : (List.range old.branches).flatMap (fun j =>
        if (place j).isNone then (n.branch j).condition.toList ++ (n.branch j).body else []) = [] := by
      refine List.flatMap_eq_nil_iff.mpr fun j hj => ?_
      rw [hplace j (List.mem_range.mp hj)]
      rfl
    rw [hnone, List.nil_append]
    cases helse : old.hasElse with
    | true => rfl
    | false => exact (Node.statements_otherwise (h.laid_mutation hn hm) helse).symm
  roots := (List.append_nil _).symm
  freed x hx := absurd hx List.not_mem_nil
  gone j hj hp := by
    rw [hplace j hj] at hp
    cases hp
  others x k hk _ _ _ := hk
  real x := Iff.rfl
  new x := by
    refine ⟨fun hx => absurd hx.1 hx.2, ?_⟩
    rintro ⟨k, hk, hnew, -⟩
    exact absurd (hplace k hk) (hnew k hk)

end Rebranched

/-- In a well-formed workspace every edit of a conditional that is made, for which the ids and counts
last, loses nothing: the branches that stay keep all that hangs on them, what hung on the others is
released in order, and nothing else changes but the defaults. Those of the branches that go are
gone, and the only new nodes are those of the new branches. The last look finds no node that has
strayed. -/
theorem Transition.run_loses_nothing {r : Registry} {w : Workspace} {id : NodeId}
    {loose : List NodeId} {done : Edited Answer} (hr : r.Sound) (h : WellFormed r w)
    (t : Transition) (hrun : (t.edit id).run? r w = some done)
    (hok : done.answer = .ok (.nodes loose)) :
    ∃ n m old, w.get? id = some n ∧ n.mutation = some old ∧
      Rebranched r w done.workspace id n m old (t.target old) t.place loose ∧
      w.NothingStrays r id n old (t.target old) t.place (t.keep old) := by
  obtain ⟨hrun, hworkspace⟩ := run_of_run? hrun hok
  rw [← hworkspace]
  have htidy := h.tidy
  obtain ⟨old, hold, hchange, hplace, hkeep, hsame⟩ := run_eq hrun
  obtain ⟨n, hn, hm⟩ := get?_of_mutation hold
  obtain ⟨d, hd, hl⟩ := htidy.branching hn hm
  have hstrays := htidy.nothingStrays hr hn hd hl old (t.target old) (t.keep old)
    (t.nodup_place _)
  rcases changeShape_cases (t.target old) (t.keep old) hr.plainConditions htidy.forest htidy.below
    (fun m _ => t.nodup_place m.branches) with ⟨e, he⟩ | ⟨n', hn', hm', he⟩ | ⟨n', old', -, he⟩
  · rw [hchange, he] at hrun
    cases hrun
  · obtain rfl : n' = n := Option.some.inj (hn'.symm.trans hn)
    have htarget : t.target old = old := Option.some.inj (hm'.symm.trans hm)
    rw [hchange, he] at hrun ⊢
    obtain rfl := Except.ok.inj hrun
    refine ⟨n', n', old, hn, hm, ?_, hstrays⟩
    rw [htarget]
    exact .refl htidy hn hm (hsame htarget)
  · obtain rfl : n' = n := Option.some.inj (he.node.symm.trans hn)
    obtain rfl : old' = old := Option.some.inj (he.mutation.symm.trans hm)
    obtain ⟨m, hm'⟩ := htidy.rebranched hr t.place_injective hkeep he
    rw [hchange] at hrun ⊢
    have hloose := hrun
    rw [he.outcome] at hloose
    obtain rfl := Except.ok.inj hloose
    exact ⟨n', m, old', hn, hm, hm'.congr hplace, hstrays⟩

/-- The second of three branches is removed, with a comparison as its condition and a statement in
its body. -/
theorem Transition.run_loses_nothing_second :
    ∃ w n m old done, WellFormed .builtin w ∧
      ((removeBranch 1).edit 0).run? .builtin w = some done ∧
      done.answer = .ok (.nodes [4, 7]) ∧ w.get? 0 = some n ∧
      n.branch 2 = ⟨none, some 3, [8]⟩ ∧ n.statements Conditional.otherwise = [9] ∧
      Rebranched .builtin w done.workspace 0 n m old ((removeBranch 1).target old)
        (removeBranch 1).place [4, 7] := by
  have h1 : History .builtin _ :=
    .change (.edit (.create "if_else" [] (some ⟨2, true⟩))) .start trivial
  have h2 := h1.change (.edit (.create "logic_compare" [] none)) trivial
  have h3 := h2.change (.edit (.connectValue 0 "IF1" 4))
    (show Workspace.child? _ 0 "IF1" ≠ some 4 by decide +kernel)
  have h4 := h3.change (.edit (.create "clear_screen" [] none)) trivial
  have h5 := h4.change (.edit (.pushStatement 0 "DO1" 7)) trivial
  have h6 := h5.change (.edit (.create "clear_screen" [] none)) trivial
  have h7 := h6.change (.edit (.pushStatement 0 "DO2" 8)) trivial
  have h8 := h7.change (.edit (.create "clear_screen" [] none)) trivial
  have h9 := h8.change (.edit (.pushStatement 0 "ELSE" 9)) trivial
  obtain ⟨w, hw, hdone, hshown⟩ : ∃ w, WellFormed .builtin w ∧
      (((removeBranch 1).edit 0).run? .builtin w).map (·.answer.toOption) =
        some (some (.nodes [4, 7])) ∧
      (w.get? 0).map (fun n => ((n.branch 2).condition, (n.branch 2).shadow, (n.branch 2).body,
        n.statements Conditional.otherwise)) = some (none, some 3, [8], [9]) :=
    ⟨_, (h9.tidy Registry.sound_builtin).wellFormed, by decide +kernel, by decide +kernel⟩
  obtain ⟨done, hrun, hanswer⟩ := Option.map_eq_some_iff.mp hdone
  have hok : done.answer = .ok (.nodes [4, 7]) := by
    cases ha : done.answer with
    | error e =>
      rw [ha] at hanswer
      cases hanswer
    | ok answer =>
      rw [ha] at hanswer
      exact congrArg Except.ok (Option.some.inj hanswer)
  obtain ⟨n, m, old, hn, -, hkept, -⟩ := run_loses_nothing Registry.sound_builtin hw _ hrun hok
  rw [hn, Option.map_some, Option.some.injEq] at hshown
  simp only [Prod.mk.injEq] at hshown
  refine ⟨w, n, m, old, done, hw, hrun, hok, hn, ?_, hshown.2.2.2, hkept⟩
  rw [← hshown.1, ← hshown.2.1, ← hshown.2.2.1]

end BlockText

import BlockText.Proofs.Omission

/-!
# Walks and deletions

The walk up from a node follows the parents, the walk down the slots. In a forest both end by
themselves, they agree on what is above what, and the walk down meets a node after its parent. So
the check of a move, which walks up from the new parent, refuses exactly the parents that the walk
down from the child would find; and a deletion, which walks down from a node that is out of its
place already, finds what it would have found before. What is left is the forest without that tree,
and with one place less in the slot or the list that held it.
-/

namespace BlockText

open Workspace Wiring

variable {w : Workspace} {x y c p : NodeId} {n : Node}

/-! ## The place that a node leaves -/

theorem erase_eq_filter {ids : List NodeId} (h : ids.Nodup) (c : NodeId) :
    ids.erase c = ids.filter (· ≠ c) := by
  rw [h.erase_eq_filter]
  exact List.filter_congr fun x _ => by by_cases hx : x = c <;> simp [hx]

/-- A node is taken out of its place in a slot. -/
inductive Slot.Loses (c : NodeId) : Slot → Slot → Prop
  | child (shadow : Option NodeId) : Loses c (.value (some c) shadow) (.value none shadow)
  | shadow (child : Option NodeId) : Loses c (.value child (some c)) (.value child none)
  | statement (before after : List NodeId) :
    Loses c (.statements (before ++ c :: after)) (.statements (before ++ after))

/-- A node is taken out of its place in one slot of another node, of which all else stays. -/
def Node.Loses (c : NodeId) (n m : Node) : Prop :=
  ∃ before input after s, n.inputs = before ++ input :: after ∧ input.slot.Loses c s ∧
    m = { n with inputs := before ++ { input with slot := s } :: after }

theorem Slot.loses_drop {s : Slot} (hnd : s.owned.Nodup) (hc : c ∈ s.owned) :
    s.Loses c (dropFromSlot c s) := by
  cases s with
  | value child shadow =>
    rcases List.mem_append.mp hc with hchild | hshadow
    · obtain rfl : child = some c := Option.mem_toList.mp hchild
      have hne : shadow ≠ some c := by
        rintro rfl
        simp [owned] at hnd
      rw [dropFromSlot, if_pos rfl, if_neg hne]
      exact .child shadow
    · obtain rfl : shadow = some c := Option.mem_toList.mp hshadow
      have hne : child ≠ some c := by
        rintro rfl
        simp [owned] at hnd
      rw [dropFromSlot, if_neg hne, if_pos rfl]
      exact .shadow child
  | statements children =>
    obtain ⟨before, after, rfl⟩ := List.append_of_mem hc
    rw [owned] at hnd
    have hout : c ∉ before := fun hm =>
      (List.nodup_cons.mp (List.nodup_middle.mp hnd)).1 (List.mem_append_left _ hm)
    rw [dropFromSlot, ← erase_eq_filter hnd, List.erase_append_right _ hout, List.erase_cons_head]
    exact .statement before after

/-- A node that owns each node once loses it from one slot. -/
theorem Node.loses_drop (hnd : n.owned.Nodup) (hc : c ∈ n.owned) :
    n.Loses c (dropFromNode c n) := by
  obtain ⟨input, hi, hci⟩ := List.mem_flatMap.mp hc
  obtain ⟨before, after, hinputs⟩ := List.append_of_mem hi
  have howned : n.owned = before.flatMap (fun i => i.slot.owned) ++
      (input.slot.owned ++ after.flatMap fun i => i.slot.owned) := by
    rw [owned, hinputs, List.flatMap_append, List.flatMap_cons]
  rw [howned] at hnd
  obtain ⟨-, hrest, hbefore⟩ := List.nodup_append'.mp hnd
  obtain ⟨hslot, -, hafter⟩ := List.nodup_append'.mp hrest
  -- the slots before and after do not hold the node, so they stay
  have hstays {is : List Input} (his : c ∉ is.flatMap fun i => i.slot.owned) :
      is.map (fun i => { i with slot := dropFromSlot c i.slot }) = is := by
    conv_rhs => rw [← List.map_id is]
    refine List.map_congr_left fun i hi => ?_
    rw [dropFromSlot_of_not_mem fun hm => his (List.mem_flatMap.mpr ⟨i, hi, hm⟩)]
    rfl
  refine ⟨before, input, after, _, hinputs, Slot.loses_drop hslot hci, ?_⟩
  rw [dropFromNode, hinputs, List.map_append, List.map_cons,
    hstays fun hm => hbefore hm (List.mem_append_left _ hci), hstays fun hm => hafter hci hm]

/-- What is taken out of its place leaves every node as it was but its owner. -/
theorem Workspace.dropFromNode_of_ne (h : w.wiring.Linked) (hx : w.get? x = some n)
    (hp : w.parent? c ≠ some x) : dropFromNode c n = n :=
  dropFromNode_of_not_mem fun hm => hp ((mem_owned_iff h hx).mp hm)

theorem Workspace.loses_of_parent (h : w.wiring.Linked) (hx : w.get? x = some n)
    (hp : w.parent? c = some x) : n.Loses c (dropFromNode c n) :=
  Node.loses_drop (h.owned_nodup (wiring_of_get? hx)) ((mem_owned_iff h hx).mpr hp)

/-! ## Both walks -/

namespace Workspace

/-- The walks of a workspace end, agree on what is above what, and the walk down meets each node
once and after its parent. -/
structure WalksAgree (w : Workspace) : Prop where
  /-- A walk up that may take as many steps as there are nodes finds all. -/
  up_ends : ∀ x n bound, w.get? x = some n → w.size ≤ bound →
    w.ancestorsUpTo bound x = w.ancestors x
  /-- A walk down that may go as deep as there are nodes finds all. -/
  down_ends : ∀ x n bound, w.get? x = some n → w.size ≤ bound →
    w.descendantsUpTo bound x = w.descendants x
  mem_iff : ∀ x y n m, w.get? x = some n → w.get? y = some m →
    (x ∈ w.descendants y ↔ x = y ∨ y ∈ w.ancestors x)
  once : ∀ y, (w.descendants y).Nodup
  parent_first : ∀ x y, x ∈ w.descendants y → x ≠ y →
    ∃ p, w.parent? x = some p ∧ [p, x].Sublist (w.descendants y)

section Linked

variable (h : w.wiring.Linked)

include h

/-- The walk down meets a node after its parent. -/
theorem parent_first_descendantsUpTo {bound : Nat} (hx : x ∈ w.descendantsUpTo bound y)
    (hne : x ≠ y) : ∃ p, w.parent? x = some p ∧ [p, x].Sublist (w.descendantsUpTo bound y) := by
  induction bound generalizing y with
  | zero => cases hx
  | succ bound ih =>
    cases hy : w.get? y with
    | none => simp [descendantsUpTo, hy] at hx
    | some n =>
      simp only [descendantsUpTo, hy, List.mem_cons, hne, false_or] at hx ⊢
      obtain ⟨c, hc, hxc⟩ := List.mem_flatMap.mp hx
      have hpart : (w.descendantsUpTo bound c).Sublist
          (n.owned.flatMap (w.descendantsUpTo bound)) := by
        rw [List.flatMap_def]
        exact List.sublist_flatten_of_mem (List.mem_map_of_mem hc)
      by_cases hxc' : x = c
      · subst hxc'
        exact ⟨y, (mem_owned_iff h hy).mp hc, (List.singleton_sublist.mpr hx).cons_cons y⟩
      · obtain ⟨p, hp, hsub⟩ := ih hxc hxc'
        exact ⟨p, hp, (hsub.trans hpart).cons y⟩

theorem walksAgree : w.WalksAgree where
  up_ends := by
    intro x n bound hx hb
    have hc := chain_ancestors h hx
    rw [ancestorsUpTo_eq_take hc, List.take_of_length_le]
    exact Nat.le_trans (Nat.le_of_lt (Chain.length_lt hc)) hb
  down_ends := fun _ _ _ hx hb => (descendants_eq_upTo h hx hb).symm
  mem_iff := by
    intro x y n m hx _
    rw [mem_descendants h, eq_comm (a := y)]
    exact and_iff_right ⟨n, hx⟩
  once := nodup_descendantsUpTo h _
  parent_first := fun _ _ hx hne => parent_first_descendantsUpTo h hx hne

/-- Above a node of a tree there is no place for its top. -/
theorem parent?_ne_of_mem_descendants (hx : x ∈ w.descendants y) : w.parent? y ≠ some x := by
  intro hp
  obtain ⟨⟨m, hm⟩, habove⟩ := (mem_descendants h).mp hx
  obtain ⟨k, hk⟩ : ∃ k, w.get? y = some k := by
    cases hk : w.get? y with
    | none => simp [parent?, hk] at hp
    | some k => exact ⟨k, rfl⟩
  have hchain := chain_ancestors h hk
  rw [ancestors_of_parent h hp] at hchain
  exact hchain.not_mem (List.mem_cons.mpr habove)

/-- The walk down from a node that was taken out of its place is the same. -/
theorem descendants_unlink (hy : w.get? y = some n) :
    (w.unlink y).descendants y = w.descendants y := by
  obtain ⟨n', hy', -⟩ := unlink_there h (c := y) hy
  have hbound := Nat.le_max_left w.size (w.unlink y).size
  have hbound' := Nat.le_max_right w.size (w.unlink y).size
  rw [descendants_eq_upTo (linked_unlink h y) hy' hbound', descendants_eq_upTo h hy hbound]
  refine descendantsUpTo_congr_owned (P := (· ∈ w.descendants y)) (fun x hx => ?_)
    (fun x k c hx hk hc => descendants_down h hx hk hc) _
    ((mem_descendants h).mpr ⟨⟨n, hy⟩, .inl rfl⟩)
  rw [get?_unlink h]
  cases hk : w.get? x with
  | none => rfl
  | some k =>
    have hkept : dropFromNode y k = k :=
      dropFromNode_of_ne h hk (parent?_ne_of_mem_descendants h hx)
    simp only [Option.map_some, hkept]
    rfl

end Linked

/-! ## Moves that would close a circle -/

/-- How a move of a node under another one answers: it complains of a circle only if the new parent
is below the node, and does not succeed then. -/
structure BarsCircles (w : Workspace) (parent child : NodeId) (answer : Except EditError Unit) :
    Prop where
  only : ∀ c p, answer = .error (.cycle c p) →
    c = child ∧ p = parent ∧ parent ∈ w.descendants child
  never : parent ∈ w.descendants child → answer ≠ .ok ()

variable {r : Registry} {takes : Role → Bool} {parent child : NodeId} {input : String}

theorem slot_ne_cycle : w.slot x input ≠ .error (.cycle c p) := by
  unfold slot node
  cases w.get? x with
  | none => simp
  | some n => cases hs : n.slot? input <;> simp [hs]

theorem checkMovable_cycle (hcheck : w.checkMovable child parent = .error (.cycle c p)) :
    c = child ∧ p = parent ∧ (∃ n, w.get? parent = some n) ∧
      (child = parent ∨ child ∈ w.ancestors parent) := by
  unfold checkMovable node at hcheck
  cases hm : w.get? child with
  | none => simp [hm] at hcheck
  | some m =>
    cases hn : w.get? parent with
    | none => simp [hm, hn] at hcheck
    | some n =>
      simp only [hm, hn] at hcheck
      by_cases hs : m.shadow = true
      · simp [hs] at hcheck
      · by_cases hcircle : child = parent ∨ child ∈ w.ancestors parent
        · rw [if_neg hs, if_pos hcircle] at hcheck
          cases hcheck
          exact ⟨rfl, rfl, ⟨n, rfl⟩, hcircle⟩
        · rw [if_neg hs, if_neg hcircle] at hcheck
          cases hcheck

/-- The check of a move complains of a circle only where there would be one. -/
theorem checkMove_cycle (h : w.wiring.Linked)
    (hcheck : w.checkMove r takes parent input child = .error (.cycle c p)) :
    c = child ∧ p = parent ∧ parent ∈ w.descendants child := by
  unfold checkMove at hcheck
  cases hmovable : w.checkMovable child parent with
  | error e =>
    rw [hmovable] at hcheck
    cases hcheck
    obtain ⟨hc, hp, hn, hcircle⟩ := checkMovable_cycle hmovable
    exact ⟨hc, hp, (mem_descendants h).mpr ⟨hn, hcircle⟩⟩
  | ok m =>
    simp only [hmovable] at hcheck
    cases hd : r.lookup m.kind with
    | error e => simp [hd] at hcheck
    | ok d =>
      simp only [hd] at hcheck
      split at hcheck
      · exact absurd hcheck slot_ne_cycle
      · cases hcheck

/-- A move that answers as its check does, up to other complaints, bars circles. -/
theorem barsCircles_of_check (r : Registry) (takes : Role → Bool) (input : String)
    (h : w.wiring.Linked) {answer : Except EditError Unit}
    (hok : answer = .ok () → ∃ s, w.checkMove r takes parent input child = .ok s)
    (herror : ∀ c p, answer = .error (.cycle c p) →
      w.checkMove r takes parent input child = .error (.cycle c p)) :
    w.BarsCircles parent child answer where
  only c p hc := checkMove_cycle h (herror c p hc)
  never hmem ha := by
    obtain ⟨s, hs⟩ := hok ha
    obtain ⟨-, -, -, -, -, -, hne, habove, -⟩ := checkMove_ok hs
    rcases ((mem_descendants h).mp hmem).2 with heq | hm
    · exact hne heq
    · exact habove hm

theorem barsCircles_connectValue (h : w.wiring.Linked) :
    w.BarsCircles parent child (w.connectValue r parent input child).answer := by
  refine barsCircles_of_check r Role.isValue input h (fun hok => ?_) fun c p herror => ?_
  · obtain ⟨occupant, shadow, hcheck, -⟩ := connectValue_ok hok
    exact ⟨_, hcheck⟩
  · cases hcheck : w.checkMove r Role.isValue parent input child with
    | error e =>
      rw [connectValue, hcheck] at herror
      cases herror
      rfl
    | ok s =>
      cases s with
      | statements children =>
        rw [connectValue, hcheck] at herror
        cases herror
      | value occupant shadow =>
        cases occupant with
        | none =>
          rw [connectValue_of_vacant h hcheck] at herror
          cases herror
        | some displaced =>
          rw [connectValue_of_occupied h hcheck] at herror
          cases herror

theorem barsCircles_insertStatement (h : w.wiring.Linked) (place : Nat) :
    w.BarsCircles parent child (w.insertStatement r parent input place child).answer := by
  cases hcheck : w.checkMove r (· = .statement) parent input child with
  | error e =>
    refine barsCircles_of_check r (· = .statement) input h (fun hok => ?_) fun c p herror => ?_
    · rw [insertStatement, hcheck] at hok
      cases hok
    · rw [insertStatement, hcheck] at herror
      cases herror
      exact hcheck
  | ok s =>
    refine barsCircles_of_check r (· = .statement) input h (fun _ => ⟨s, hcheck⟩)
      fun c p herror => ?_
    cases s with
    | value child' shadow =>
      rw [insertStatement, hcheck] at herror
      cases herror
    | statements children =>
      rw [insertStatement_of_statements h hcheck] at herror
      cases herror

theorem barsCircles_pushStatement (h : w.wiring.Linked) :
    w.BarsCircles parent child (w.pushStatement r parent input child).answer := by
  unfold pushStatement
  cases hs : w.slot parent input with
  | ok slot => exact barsCircles_insertStatement h _
  | error e =>
    refine ⟨fun c p herror => ?_, fun _ hok => by cases hok⟩
    cases herror
    exact absurd hs slot_ne_cycle

/-! ## Deletions -/

/-- `v` is `w` without a node and all below it. -/
structure Deleted (w v : Workspace) (y : NodeId) : Prop where
  gone : ∀ x ∈ w.descendants y, v.get? x = none
  /-- All that is not below the node is as it was, but for the owner of the node. -/
  stays : ∀ x ∉ w.descendants y, w.parent? y ≠ some x → v.get? x = w.get? x
  /-- The owner loses the node from its slot, and nothing else. -/
  owner : ∀ p k, w.parent? y = some p → w.get? p = some k → ∃ m, v.get? p = some m ∧ k.Loses y m
  roots : v.roots = w.roots.erase y
  nextId : v.nextId = w.nextId

end Workspace

theorem Forest.deleted (h : Forest w) (y : NodeId) : Deleted w (w.discard y) y where
  gone x hx := by rw [get?_discard h.linked, if_pos hx]
  stays x hx hp := by
    rw [get?_discard h.linked, if_neg hx]
    cases hk : w.get? x with
    | none => rfl
    | some k => rw [Option.map_some, dropFromNode_of_ne h.linked hk hp]
  owner p k hp hk := by
    have hout : p ∉ w.descendants y := fun hm => parent?_ne_of_mem_descendants h.linked hm hp
    exact ⟨_, get?_discard_of_stays h.linked hk hout, loses_of_parent h.linked hk hp⟩
  roots := by rw [h.roots_discard, erase_eq_filter h.roots_nodup]
  nextId := by rw [Workspace.discard, nextId_remove, nextId_unlink]

/-- In a forest the walks up and down agree, no move closes a circle and none is said to without
doing so, and a deletion removes what the walk down finds and nothing else. -/
theorem Forest.walks_and_deletion (h : Forest w) :
    w.WalksAgree ∧
    (∀ r parent input child,
      w.BarsCircles parent child (w.connectValue r parent input child).answer ∧
      w.BarsCircles parent child (w.pushStatement r parent input child).answer ∧
      ∀ place, w.BarsCircles parent child (w.insertStatement r parent input place child).answer) ∧
    ∀ y n, w.get? y = some n → n.shadow = false →
      (w.delete y).answer = .ok (w.descendants y) ∧ Deleted w (w.delete y).workspace y := by
  refine ⟨walksAgree h.linked, fun r parent input child => ⟨barsCircles_connectValue h.linked,
    barsCircles_pushStatement h.linked, barsCircles_insertStatement h.linked⟩,
    fun y n hy hreal => ⟨?_, ?_⟩⟩
  · simp only [delete, node, hy, hreal, Bool.false_eq_true, if_false,
      descendants_unlink h.linked hy]
  · rw [workspace_delete hy hreal]
    exact h.deleted y

/-- A loop with a block in its body stands in a handler, before another block. It is not moved into
itself, and is deleted with its condition and its body. -/
theorem Forest.walks_and_deletion_loop :
    ∃ w, Forest w ∧ w.parent? 1 = some 0 ∧ w.descendants 0 = [0, 1, 2, 3, 4, 5] ∧
      (∃ p, w.parent? 4 = some p ∧ [p, 4].Sublist (w.descendants 0)) ∧
      (w.pushStatement .builtin 1 "DO" 1).answer ≠ .ok () ∧
      (w.delete 1).answer = .ok [1, 2, 3, 4] ∧ Deleted w (w.delete 1).workspace 1 := by
  have h1 : History .builtin _ := .change (.edit (.create "on_start" [] none)) .start trivial
  have h2 := h1.change (.edit (.create "while_loop" [] none)) trivial
  have h3 := h2.change (.edit (.pushStatement 0 "DO" 1)) trivial
  have h4 := h3.change (.edit (.create "show_number" [] none)) trivial
  have h5 := h4.change (.edit (.pushStatement 1 "DO" 3)) trivial
  have h6 := h5.change (.edit (.create "clear_screen" [] none)) trivial
  have h7 := h6.change (.edit (.pushStatement 0 "DO" 5)) trivial
  obtain ⟨w, hw, hparent, hall, htree, hreal⟩ : ∃ w, Forest w ∧ w.parent? 1 = some 0 ∧
      w.descendants 0 = [0, 1, 2, 3, 4, 5] ∧ w.descendants 1 = [1, 2, 3, 4] ∧
      (w.get? 1).map (fun n => n.shadow) = some false :=
    ⟨_, (h7.tidy Registry.sound_builtin).forest, by decide +kernel, by decide +kernel,
      by decide +kernel, by decide +kernel⟩
  obtain ⟨n, hn, hreal⟩ := Option.map_eq_some_iff.mp hreal
  obtain ⟨hwalks, hmoves, hdelete⟩ := hw.walks_and_deletion
  obtain ⟨hanswer, hdeleted⟩ := hdelete 1 n hn hreal
  refine ⟨w, hw, hparent, hall, hwalks.parent_first 4 0 (by rw [hall]; decide) (by decide), ?_,
    htree ▸ hanswer, hdeleted⟩
  exact (hmoves .builtin 1 "DO" 1).2.1.never (by rw [htree]; decide)

end BlockText

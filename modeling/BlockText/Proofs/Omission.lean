import BlockText.Proofs.Pruning

/-!
# Blocks that leave no text

A statement that must not run leaves no text, and neither does what is nested in it. So it can be
deleted without a trace, whether a flag leaves it out, be it new or old, or the rules themselves. A
deletion changes no node that stays but the owner, which has a statement less. Whether a node may
run is decided above it and how it is written below it, so the others are written as before; and
what is to be deleted next still leaves no text, if it did not go with what was above it.
-/

namespace BlockText

open Workspace Wiring Program

variable {s : Setup} {w : Workspace} {x y c : NodeId} {n m : Node} {rules : Rules}
  {ids : List NodeId}

namespace Workspace

/-! ## Deleting a node -/

/-- The workspace without a node and all below it. -/
def discard (w : Workspace) (x : NodeId) : Workspace :=
  (w.unlink x).remove ((w.unlink x).descendants x)

/-- The workspace without some nodes and all below them, deleted one after the other. -/
def discardAll (ids : List NodeId) (w : Workspace) : Workspace := ids.foldl discard w

/-- A node that is no default can be deleted. -/
theorem workspace_delete (hx : w.get? x = some n) (hreal : n.shadow = false) :
    (w.delete x).workspace = w.discard x := by
  simp only [delete, node, hx, hreal, Bool.false_eq_true, if_false, discard]

section Linked

variable (h : w.wiring.Linked)

include h

/-- A node that is taken out of its place is still above what was below it. -/
theorem mem_ancestors_unlink (hy : w.get? y = some n) :
    x ∈ (w.unlink x).ancestors y ↔ x ∈ w.ancestors y := by
  have hup {y : NodeId} {as : List NodeId} (hc : Chain w.wiring y as) (hx : x ∈ as) :
      ∃ bs, Chain (w.unlink x).wiring y bs ∧ x ∈ bs := by
    rw [wiring_unlink]
    induction hc with
    | top _ _ => cases hx
    | @up y p l as hl hp hc ih =>
      have hne : y ≠ x := by
        rintro rfl
        exact (Chain.up hl hp hc).not_mem hx
      rcases List.mem_cons.mp hx with rfl | hx
      · obtain ⟨k, hk⟩ := hc.there
        exact ⟨[x], .up (cut_of_eq hl) (by simp [hne, hp]) (.top (cut_of_eq hk) (by simp)),
          List.mem_singleton_self x⟩
      · obtain ⟨bs, hb, hxb⟩ := ih hx
        exact ⟨p :: bs, .up (cut_of_eq hl) (by simp [hne, hp]) hb, List.mem_cons_of_mem p hxb⟩
  constructor
  · intro hx
    exact ancestors_unlink_subset h hy hx
  · intro hx
    obtain ⟨bs, hb, hxb⟩ := hup (chain_ancestors h hy) hx
    rwa [ancestors_eq hb]

theorem mem_descendants_unlink : y ∈ (w.unlink x).descendants x ↔ y ∈ w.descendants x := by
  rw [mem_descendants (linked_unlink h x), mem_descendants h, get?_unlink h]
  cases hy : w.get? y with
  | none => simp
  | some n => simp only [Option.map_some, Option.some.injEq, exists_eq', mem_ancestors_unlink h hy]

/-- A deletion takes away what is below the node, and takes the node out of the slots of what
stays. -/
theorem get?_discard (x y : NodeId) : (w.discard x).get? y =
    if y ∈ w.descendants x then none else (w.get? y).map (dropFromNode x) := by
  rw [discard, get?_remove, get?_unlink h]
  by_cases hd : y ∈ w.descendants x
  · rw [if_pos ((mem_descendants_unlink h).mpr hd), if_pos hd]
  · rw [if_neg (mt (mem_descendants_unlink h).mp hd), if_neg hd]
    cases hy : w.get? y with
    | none => rfl
    | some n =>
      have hne : y ≠ x := by
        rintro rfl
        exact hd ((mem_descendants h).mpr ⟨⟨n, hy⟩, .inl rfl⟩)
      simp only [Option.map_some, if_neg hne]
      rfl

/-! ## What stays -/

theorem get?_discard_of_stays (hy : w.get? y = some n) (hd : y ∉ w.descendants x) :
    (w.discard x).get? y = some (dropFromNode x n) := by
  rw [get?_discard h, if_neg hd, hy, Option.map_some]

/-- What is above a node that stays, stays. -/
theorem above_stays (hy : w.get? y = some n) (hd : y ∉ w.descendants x) {a : NodeId}
    (ha : a ∈ y :: w.ancestors y) : a ∉ w.descendants x := by
  intro hm
  obtain ⟨⟨m, hm⟩, hx⟩ := (mem_descendants h).mp hm
  refine hd ((mem_descendants h).mpr ⟨⟨n, hy⟩, ?_⟩)
  rcases List.mem_cons.mp ha with rfl | ha
  · exact hx
  · rcases hx with rfl | hx
    · exact .inr ha
    · exact .inr ((chain_ancestors h hy).trans ha (chain_ancestors h hm) hx)

/-- What a node that stays owns, stays, but for the node that is deleted. -/
theorem owned_stays (hy : w.get? y = some n) (hd : y ∉ w.descendants x) (hc : c ∈ n.owned)
    (hne : c ≠ x) : c ∉ w.descendants x := by
  intro hm
  have hp := (mem_owned_iff h hy).mp hc
  refine hd ((mem_descendants h).mpr ⟨⟨n, hy⟩, ?_⟩)
  have habove := ((mem_descendants h).mp hm).2
  rw [ancestors_of_parent h hp, List.mem_cons] at habove
  exact habove.resolve_left (Ne.symm hne)

theorem ancestors_discard (hy : w.get? y = some n) (hd : y ∉ w.descendants x) :
    (w.discard x).ancestors y = w.ancestors y := by
  refine ancestors_eq ((chain_ancestors h hy).congr fun a ha l hl => ?_)
  obtain ⟨m, hm, rfl⟩ := get?_of_wiring hl
  exact ⟨_, wiring_of_get? (get?_discard_of_stays h hm (above_stays h hy hd ha)), rfl⟩

/-- Whether a node may run is decided above it. -/
theorem isEnabled_discard (hy : w.get? y = some n) (hd : y ∉ w.descendants x) (rules : Rules) :
    rules.isEnabled (w.discard x) y = rules.isEnabled w y := by
  have hroot : (w.discard x).rootOf y = w.rootOf y := by
    rw [rootOf, ancestors_discard h hy hd, rootOf]
  have hmem : w.rootOf y ∈ y :: w.ancestors y := by
    rw [rootOf]
    cases hlast : (w.ancestors y).getLast? with
    | none => exact List.mem_cons_self
    | some a => exact List.mem_cons_of_mem y (List.mem_of_getLast? hlast)
  have hkind : (w.discard x).kind? (w.rootOf y) = w.kind? (w.rootOf y) := by
    rw [kind?, get?_discard h, if_neg (above_stays h hy hd hmem), Option.map_map, kind?]
    rfl
  rw [Rules.isEnabled, get?_discard_of_stays h hy hd, Rules.isEnabled, hy, hroot]
  simp only [hkind]
  rfl

end Linked

end Workspace

/-! ## Deleting in a forest -/

namespace Forest

variable (h : Forest w)

include h

theorem roots_discard (x : NodeId) : (w.discard x).roots = w.roots.filter (· ≠ x) := by
  rw [Workspace.discard, Workspace.roots_remove, h.roots_unlink, List.filter_eq_self]
  intro y hy
  obtain ⟨hy, hne⟩ := List.mem_filter.mp hy
  have hd : y ∉ (w.unlink x).descendants x := by
    rw [mem_descendants_unlink h.linked]
    intro hm
    exact of_decide_eq_true hne (h.eq_of_mem_descendants hm ((h.mem_roots y).mp hy))
  simpa using hd

theorem discard_of_absent (hx : w.get? x = none) : w.discard x = w := by
  have hgone (y : NodeId) : y ∉ w.descendants x := by
    intro hm
    rw [Workspace.descendants, descendantsUpTo, hx] at hm
    cases hm
  refine eq_of_get? (fun y => ?_) ?_ (nextId_unlink w x)
  · rw [get?_discard h.linked, if_neg (hgone y)]
    cases hy : w.get? y with
    | none => rfl
    | some n =>
      rw [Option.map_some, dropFromNode_of_not_mem]
      intro hm
      obtain ⟨l, hl, -⟩ := h.linked.owned_there (wiring_of_get? hy) hm
      obtain ⟨m, hm, -⟩ := get?_of_wiring hl
      rw [hx] at hm
      cases hm
  · rw [h.roots_discard, List.filter_eq_self]
    intro y hy
    obtain ⟨n, hn, -⟩ := h.root_there hy
    have hne : y ≠ x := by
      rintro rfl
      rw [hx] at hn
      cases hn
    simpa using hne

theorem discard (x : NodeId) : Forest (w.discard x) := by
  cases hx : w.get? x with
  | none =>
    rw [h.discard_of_absent hx]
    exact h
  | some n => exact (h.unlink hx List.not_mem_nil).remove List.not_mem_nil

theorem conforms_discard {r : Registry} (hc : Conforms r w) (x : NodeId) :
    Conforms r (w.discard x) :=
  (hc.unlink h.linked x).remove (h.discard x).linked

/-- After some deletions those nodes are there that were, and that neither are deleted themselves
nor stand below a node that is. -/
theorem there_discardAll (ids : List NodeId) (y : NodeId) :
    (∃ n, (w.discardAll ids).get? y = some n) ↔
      (∃ n, w.get? y = some n) ∧ ∀ a ∈ y :: w.ancestors y, a ∉ ids := by
  induction ids generalizing w with
  | nil => simp [discardAll]
  | cons x ids ih =>
    rw [discardAll, List.foldl_cons]
    refine (ih (h.discard x)).trans ?_
    by_cases hd : y ∈ w.descendants x
    · have hx : x ∈ y :: w.ancestors y := by
        rw [List.mem_cons]
        exact ((mem_descendants h.linked).mp hd).2
      rw [get?_discard h.linked, if_pos hd]
      constructor
      · rintro ⟨⟨n, hn⟩, -⟩
        cases hn
      · rintro ⟨-, hids⟩
        exact absurd List.mem_cons_self (hids x hx)
    · cases hy : w.get? y with
      | none => simp [get?_discard h.linked, hd, hy]
      | some n =>
        have hx : x ∉ y :: w.ancestors y := by
          rw [List.mem_cons]
          exact fun hm => hd ((mem_descendants h.linked).mpr ⟨⟨n, hy⟩, hm⟩)
        rw [get?_discard_of_stays h.linked hy hd, ancestors_discard h.linked hy hd]
        refine and_congr (by simp) (forall₂_congr fun a ha => ?_)
        have hne : a ≠ x := fun he => hx (he ▸ ha)
        simp [hne]

/-- Where no default is to be deleted, every deletion is made. -/
theorem workspace_deleteAll (hreal : ∀ x ∈ ids, w.IsReal x) :
    (Rules.deleteAll ids w).workspace = w.discardAll ids := by
  induction ids generalizing w with
  | nil => rfl
  | cons x ids ih =>
    have hdelete : (w.delete x).workspace = w.discard x := by
      cases hx : w.get? x with
      | none =>
        rw [h.discard_of_absent hx, Workspace.delete, node, hx]
        rfl
      | some n =>
        have hshadow := hreal x List.mem_cons_self
        rw [IsReal, tag?, hx] at hshadow
        exact workspace_delete hx hshadow
    have hkeeps : Keeps w (w.discard x) := (Keeps.unlink h.linked x).trans (.remove _)
    rw [Rules.deleteAll, hdelete]
    exact ih (h.discard x) fun y hy => hkeeps.isReal (hreal y (List.mem_cons_of_mem x hy))

end Forest

/-! ## Slots without a node -/

namespace Node

theorem owned_of_statements {i : String} (hc : c ∈ n.statements i) : c ∈ n.owned := by
  obtain ⟨children, hs, hc⟩ := slot?_of_statements hc
  exact owned_of_slot? hs hc

theorem statements_dropFromNode (x : NodeId) (n : Node) (i : String) :
    (dropFromNode x n).statements i = (n.statements i).filter (· ≠ x) := by
  rw [statements, slot?_dropFromNode, statements]
  cases hs : n.slot? i with
  | none => rfl
  | some slot => cases slot <;> rfl

theorem valueTarget?_dropFromNode {i : String}
    (hx : ∀ child shadow, n.slot? i = some (.value child shadow) →
      x ∉ (Slot.value child shadow).owned) :
    (dropFromNode x n).valueTarget? i = n.valueTarget? i := by
  rw [valueTarget?, slot?_dropFromNode, valueTarget?]
  cases hs : n.slot? i with
  | none => rfl
  | some slot =>
    cases slot with
    | value child shadow => rw [Option.map_some, dropFromSlot_of_not_mem (hx child shadow hs)]
    | statements children => rfl

end Node

namespace Program

/-! ## The text of a node -/

theorem value_eq (f : Node → List Char) (i : String) : value s w f n i =
    (((n.valueTarget? i).bind w.get?).map f).getD (fallback s.registry n i) := by
  unfold value
  cases (n.valueTarget? i).bind w.get? with
  | none => rfl
  | some target => rfl

theorem body_congr {v : Workspace} {f g : Node → List Char} {i : String}
    (ht : (m.statements i).flatMap (statement s v f) = (n.statements i).flatMap (statement s w g)) :
    body s v f m i = body s w g n i := by
  simp only [body, ht]

/-- A depth that suffices for a node gives it the text that any other gives. -/
theorem render_eq_of_suffices (hl : w.wiring.Linked) {bound bound' : Nat}
    (hy : w.get? y = some n) (hb : w.Suffices bound y) (hb' : w.Suffices bound' y) :
    render s w bound n = render s w bound' n := by
  induction bound generalizing y n bound' with
  | zero =>
    obtain ⟨b, hb⟩ := hb.exists_bound hl hy
    cases hb
  | succ bound ih =>
    obtain ⟨bound', rfl⟩ := hb'.exists_bound hl hy
    have hchild (c : NodeId) (k : Node) (hc : c ∈ n.owned) (hk : w.get? c = some k) :
        render s w bound k = render s w bound' k := by
      have hp := (mem_owned_iff hl hy).mp hc
      exact ih hk (hb.child hl hp) (hb'.child hl hp)
    have hvalue : value s w (render s w bound) n = value s w (render s w bound') n := by
      funext i
      rw [value_eq, value_eq]
      refine congrArg (Option.getD · _) (Option.map_congr fun k hk => ?_)
      obtain ⟨c, ht, hk⟩ := Option.bind_eq_some_iff.mp hk
      obtain ⟨child, shadow, hs, hc⟩ := Node.slot?_of_valueTarget? ht
      exact hchild c k (Node.owned_of_slot? hs hc) hk
    have hbody : body s w (render s w bound) n = body s w (render s w bound') n := by
      funext i
      refine body_congr (List.flatMap_congr fun c hc => ?_)
      unfold statement
      cases hk : w.get? c with
      | none => rfl
      | some k => simp only [hchild c k (Node.owned_of_statements hc) hk]
    simp only [render, hvalue, hbody]

/-! ## Nodes that leave no text -/

/-- A node leaves no text: it is not written where a statement stands, and stands nowhere else. -/
structure Silent (s : Setup) (w : Workspace) (x : NodeId) : Prop where
  unwritten : ∀ n, w.get? x = some n → isWritten s w n = false
  apart : ∀ y n, w.get? y = some n → ∀ i child shadow, n.slot? i = some (.value child shadow) →
    x ∉ (Slot.value child shadow).owned

theorem isWritten_discard (hl : w.wiring.Linked) (hid : n.id = y) (hy : w.get? y = some n)
    (hd : y ∉ w.descendants x) :
    isWritten s (w.discard x) (dropFromNode x n) = isWritten s w n := by
  subst hid
  have henabled := isEnabled_discard hl hy hd s.rules
  show (n.disabled.isNone && s.rules.isEnabled (w.discard x) n.id && _) = _
  rw [henabled]
  rfl

namespace Silent

/-- A deletion of another node leaves no text where there was none. -/
theorem discard (h : Silent s w y) (hl : w.wiring.Linked)
    (hid : ∀ x n, w.get? x = some n → n.id = x) (x : NodeId) : Silent s (w.discard x) y := by
  constructor
  · intro m hm
    rw [get?_discard hl] at hm
    obtain ⟨hd, hm⟩ := Option.ite_none_left_eq_some.mp hm
    obtain ⟨n, hn, rfl⟩ := Option.map_eq_some_iff.mp hm
    rw [isWritten_discard hl (hid y n hn) hn hd]
    exact h.unwritten n hn
  · intro z m hm i child shadow hs hy
    rw [get?_discard hl] at hm
    obtain ⟨-, hm⟩ := Option.ite_none_left_eq_some.mp hm
    obtain ⟨n, hn, rfl⟩ := Option.map_eq_some_iff.mp hm
    rw [slot?_dropFromNode] at hs
    obtain ⟨slot, hslot, hdrop⟩ := Option.map_eq_some_iff.mp hs
    have howned := owned_dropFromSlot x slot
    rw [hdrop] at howned
    rw [howned] at hy
    cases slot with
    | statements children => cases hdrop
    | value child' shadow' =>
      exact h.apart z n hn i child' shadow' hslot (List.mem_of_mem_filter hy)

/-- A sequence without a node that leaves no text, where the others are written as before. -/
theorem flatMap_statement_discard (h : Silent s w x) (hl : w.wiring.Linked)
    (hid : ∀ x n, w.get? x = some n → n.id = x) {f g : Node → List Char}
    (hrender : ∀ y n, w.get? y = some n → y ∉ w.descendants x → f (dropFromNode x n) = g n)
    (seq : List NodeId) (hseq : ∀ y ∈ seq, y ≠ x → y ∉ w.descendants x) :
    (seq.filter (· ≠ x)).flatMap (statement s (w.discard x) f) =
      seq.flatMap (statement s w g) := by
  have hsilent : statement s w g x = [] := by
    unfold statement
    cases hx : w.get? x with
    | none => rfl
    | some n => simp only [h.unwritten n hx, Bool.false_eq_true, if_false]
  have hother (y : NodeId) (hd : y ∉ w.descendants x) :
      statement s (w.discard x) f y = statement s w g y := by
    unfold statement
    rw [get?_discard hl, if_neg hd]
    cases hy : w.get? y with
    | none => rfl
    | some n =>
      simp only [Option.map_some, isWritten_discard hl (hid y n hy) hy hd, hrender y n hy hd]
  induction seq with
  | nil => rfl
  | cons y seq ih =>
    have hrest := ih fun z hz => hseq z (List.mem_cons_of_mem y hz)
    by_cases hy : y = x
    · subst hy
      rw [List.filter_cons_of_neg (by simp), hrest, List.flatMap_cons, hsilent, List.nil_append]
    · rw [List.filter_cons_of_pos (by simpa using hy), List.flatMap_cons, List.flatMap_cons, hrest,
        hother y (hseq y List.mem_cons_self hy)]

/-- What stays is written as before. -/
theorem render_discard (h : Silent s w x) (hl : w.wiring.Linked)
    (hid : ∀ x n, w.get? x = some n → n.id = x) (hr : s.registry = .builtin) (bound : Nat)
    (hy : w.get? y = some n) (hd : y ∉ w.descendants x) :
    render s (w.discard x) bound (dropFromNode x n) = render s w bound n := by
  induction bound generalizing y n with
  | zero => rfl
  | succ bound ih =>
    simp only [render, hr, Registry.find?_builtin]
    refine render_congr n.kind (fun _ => rfl) rfl (fun i _ => ?_) fun i _ => ?_
    · show value s (w.discard x) _ (dropFromNode x n) i = value s w _ n i
      rw [value_eq, value_eq, Node.valueTarget?_dropFromNode (h.apart y n hy i)]
      refine congrArg (Option.getD · (fallback s.registry n i)) ?_
      cases ht : n.valueTarget? i with
      | none => rfl
      | some c =>
        obtain ⟨child, shadow, hs, hc⟩ := Node.slot?_of_valueTarget? ht
        have hne : c ≠ x := fun he => h.apart y n hy i child shadow hs (he ▸ hc)
        have hstays := owned_stays hl hy hd (Node.owned_of_slot? hs hc) hne
        rw [Option.bind_some, Option.bind_some, get?_discard hl, if_neg hstays, Option.map_map]
        exact Option.map_congr fun k hk => ih hk hstays
    · refine body_congr ?_
      rw [Node.statements_dropFromNode]
      refine h.flatMap_statement_discard hl hid (fun z k hz hstays => ih hz hstays) _ ?_
      exact fun c hc hne => owned_stays hl hy hd (Node.owned_of_statements hc) hne

/-- The deletion of a node that leaves no text leaves the text. -/
theorem writeChars_discard (h : Silent s w x) (hf : Forest w)
    (hid : ∀ x n, w.get? x = some n → n.id = x) (hr : s.registry = .builtin) :
    writeChars s (w.discard x) = writeChars s w := by
  have hv := (hf.discard x).linked
  -- a depth for both workspaces
  let depth := (w.discard x).size + w.size + 1
  have hdeep (u : Workspace) (hu : u.wiring.Linked) (hsize : u.size < depth) (z : NodeId) :
      statement s u (render s u (u.size + 1)) z = statement s u (render s u depth) z := by
    unfold statement
    cases hz : u.get? z with
    | none => rfl
    | some k =>
      have hsame : render s u (u.size + 1) k = render s u depth k :=
        render_eq_of_suffices hu hz (suffices_size u z)
          (Nat.lt_of_lt_of_le hsize (Nat.le_add_right _ _))
      simp only [hsame]
  calc writeChars s (w.discard x)
      = (w.discard x).roots.flatMap (statement s (w.discard x) (render s (w.discard x) depth)) :=
        List.flatMap_congr fun z _ => hdeep _ hv (by omega) z
    _ = w.roots.flatMap (statement s w (render s w depth)) := by
        rw [hf.roots_discard]
        refine h.flatMap_statement_discard hf.linked hid
          (fun z k hz hstays => h.render_discard hf.linked hid hr depth hz hstays) _ ?_
        intro z hz hne hm
        exact hne (hf.eq_of_mem_descendants hm ((hf.mem_roots z).mp hz))
    _ = writeChars s w := List.flatMap_congr fun z _ => (hdeep w hf.linked (by omega) z).symm

end Silent

/-- The deletion of nodes that leave no text leaves the text. -/
theorem writeChars_discardAll (hf : Forest w) (hc : Conforms .builtin w)
    (hr : s.registry = .builtin) (h : ∀ x ∈ ids, Silent s w x) :
    writeChars s (w.discardAll ids) = writeChars s w := by
  induction ids generalizing w with
  | nil => rfl
  | cons x ids ih =>
    have hid (y : NodeId) (n : Node) (hy : w.get? y = some n) : n.id = y := (hc.stored y n hy).1
    have hstep := (h x List.mem_cons_self).writeChars_discard hf hid hr
    have hrest := ih (hf.discard x) (hf.conforms_discard hc x) fun y hy =>
      (h y (List.mem_cons_of_mem x hy)).discard hf.linked hid x
    exact hrest.trans hstep

end Program

/-! ## Statements and roots that must not run -/

namespace Rules

/-- The statements and the roots that are left out by a flag or may not run. -/
def barred (rules : Rules) (r : Registry) (w : Workspace) : List NodeId :=
  w.nodes.keys.filter fun x =>
    (w.isTopLevel x || w.role? r x = some .statement) &&
      ((flag? w x).isSome || !rules.isEnabled w x)

theorem mem_barred {r : Registry} : x ∈ rules.barred r w ↔ (∃ n, w.get? x = some n) ∧
    (x ∈ w.roots ∨ w.role? r x = some .statement) ∧
      (flag? w x ≠ none ∨ rules.isEnabled w x = false) := by
  simp [barred, mem_keys, isTopLevel, Option.isSome_iff_ne_none]

/-- What is barred leaves no text. -/
theorem silent_of_mem_barred {r : Registry} {options : Options} (hf : Forest w)
    (hc : Conforms r w) (hx : x ∈ rules.barred r w) : Silent ⟨r, rules, options⟩ w x := by
  obtain ⟨-, hplace, hbarred⟩ := mem_barred.mp hx
  constructor
  · intro n hn
    have hid := (hc.stored x n hn).1
    rw [flag?, hn, Option.bind_some] at hbarred
    rw [isWritten, hid]
    rcases hbarred with hflag | hfalse
    · cases hd : n.disabled with
      | none => exact absurd hd hflag
      | some reason => rfl
    · rw [hfalse, Bool.and_false, Bool.false_and]
  · intro y n hn i child shadow hs hm
    rcases hplace with hroot | hrole
    · exact hf.not_owned_of_root hroot hn (Node.owned_of_slot? hs hm)
    · -- a value input takes values only
      obtain ⟨d, hd, -⟩ := hc.described y n hn
      obtain ⟨spec, -, -, hfits⟩ := hc.slots.of_slot? hn hd hs
      cases spec with
      | statement name => exact hfits
      | value name check default =>
        have hvalue := hfits x hm
        rw [hrole] at hvalue
        cases hvalue

/-- Statements and roots that are left out or may not run can be deleted, in any order and any
number of them, and the text stays what it was. They are gone with all below them and nothing else
is, and unless defaults are among them these deletions are edits that are made. -/
theorem write_discardAll_barred (hf : Forest w) (hc : Conforms .builtin w) (options : Options)
    (hids : ids ⊆ rules.barred .builtin w) :
    write ⟨.builtin, rules, options⟩ (w.discardAll ids) = write ⟨.builtin, rules, options⟩ w ∧
      (∀ x, (∃ n, (w.discardAll ids).get? x = some n) ↔
        (∃ n, w.get? x = some n) ∧ ∀ a ∈ x :: w.ancestors x, a ∉ ids) ∧
      ((∀ x ∈ ids, w.IsReal x) → (deleteAll ids w).workspace = w.discardAll ids) := by
  have hsilent (x : NodeId) (hx : x ∈ ids) : Silent ⟨.builtin, rules, options⟩ w x :=
    silent_of_mem_barred hf hc (hids hx)
  exact ⟨congrArg String.ofList (writeChars_discardAll hf hc rfl hsilent), hf.there_discardAll ids,
    hf.workspace_deleteAll⟩

/-- A start with two statements, the first of which has an old flag, a handler that is a duplicate
with a statement in it, and a statement at the top that needs an event. -/
def littered : Workspace :=
  let made : Workspace := [Kind.onStart, .onButtonPressed, .clearScreen, .clearScreen, .clearScreen,
    .clearScreen].foldl (fun w kind => (w.create .builtin ⟨kind, [], none⟩).workspace) {}
  let start := (made.pushStatement .builtin 0 "DO" 2).workspace.pushStatement .builtin 0 "DO" 3
  let nested := start.workspace.pushStatement .builtin 1 "DO" 4
  (nested.workspace.setDisabled 1 (some .duplicateHandler)).setDisabled 2 (some .needsEvent)

theorem tidy_littered : Tidy .builtin littered := by
  have hr := Registry.sound_builtin
  refine ((Reflagged.setDisabled _ _ _).trans (.setDisabled _ _ _)).tidy ?_
  refine .pushStatement (.pushStatement (.pushStatement ?_))
  exact (((((Tidy.empty.create hr _).create hr _).create hr _).create hr _).create hr _).create hr _

theorem write_discardAll_littered :
    Forest littered ∧ Conforms .builtin littered ∧ standard.barred .builtin littered = [1, 2, 5] ∧
      write ⟨.builtin, standard, {}⟩ (littered.discardAll [1, 2, 5]) =
        write ⟨.builtin, standard, {}⟩ littered ∧
      (littered.discardAll [1, 2, 5]).nodes.keys = [0, 3] := by
  have hbarred : standard.barred .builtin littered = [1, 2, 5] := by decide +kernel
  have hwrite := write_discardAll_barred tidy_littered.forest tidy_littered.conforms {}
    (List.Subset.refl (standard.barred .builtin littered))
  rw [hbarred] at hwrite
  exact ⟨tidy_littered.forest, tidy_littered.conforms, hbarred, hwrite.1, by decide +kernel⟩

end Rules

end BlockText

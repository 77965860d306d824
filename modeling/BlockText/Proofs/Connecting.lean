import BlockText.Catalogue.Builtin
import BlockText.Proofs.Forest

/-!
# Connecting a value

A node is moved into a value input: it is taken out of its place, the child that was there before it
moves to the top level, and the node is put into the input. The forest survives except in one case:
a node that is connected to the very input where it already stands is its own predecessor there, so
it moves to the top level and stays in the input as well.
-/

namespace BlockText

open Wiring

namespace Workspace

/-- The real child in a value input. -/
def child? (w : Workspace) (parent : NodeId) (input : String) : Option NodeId :=
  match (w.get? parent).bind (·.slot? input) with
  | some (.value child _) => child
  | _ => none

variable {w : Workspace}

theorem child?_eq {parent : NodeId} {input : String} {n : Node} {child shadow : Option NodeId}
    (hn : w.get? parent = some n) (hs : n.slot? input = some (.value child shadow)) :
    w.child? parent input = child := by
  simp [child?, hn, hs]

/-! ## What a move checks -/

theorem node_ok {id : NodeId} {n : Node} (h : w.node id = .ok n) : w.get? id = some n := by
  unfold node at h
  split at h
  · next hn =>
    cases h
    exact hn
  · cases h

theorem slot_ok {id : NodeId} {input : String} {s : Slot} (h : w.slot id input = .ok s) :
    ∃ n, w.get? id = some n ∧ n.slot? input = some s := by
  unfold slot at h
  split at h
  · cases h
  · next n hn =>
    split at h
    · next hs =>
      cases h
      exact ⟨n, node_ok hn, hs⟩
    · cases h

/-- What a successful check of a move has found: both nodes, no shadow, no cycle, a kind of the
right role, and the slot. -/
theorem checkMove_ok {r : Registry} {takes : Role → Bool} {parent child : NodeId} {input : String}
    {s : Slot} (h : w.checkMove r takes parent input child = .ok s) :
    ∃ m n d, w.get? child = some m ∧ w.get? parent = some n ∧ m.shadow = false ∧
      child ≠ parent ∧ child ∉ w.ancestors parent ∧ r.lookup m.kind = .ok d ∧
      takes d.shape.role = true ∧ n.slot? input = some s := by
  unfold checkMove at h
  split at h
  · cases h
  · next m hm =>
    unfold checkMovable at hm
    split at hm
    · cases hm
    · next m' hm' =>
      split at hm
      · cases hm
      · split at hm
        · cases hm
        · next hsh =>
          split at hm
          · cases hm
          · next hcy =>
            cases hm
            split at h
            · cases h
            · next d hd =>
              split at h
              · next ht =>
                obtain ⟨n, hn, hs⟩ := slot_ok h
                rw [not_or] at hcy
                exact ⟨m, n, d, node_ok hm', hn, by simpa using hsh, hcy.1, hcy.2, hd, ht, hs⟩
              · cases h

/-! ## What an attachment does -/

theorem arrive_eq {c : NodeId} {k : Node} (h : w.get? c = some k) : w.arrive c = (w, .ok ()) := by
  simp [arrive, node, h, Except.map]

theorem slot_eq {p : NodeId} {input : String} {n : Node} {s : Slot} (hn : w.get? p = some n)
    (hs : n.slot? input = some s) : w.slot p input = .ok s := by
  simp [slot, node, hn, hs]

/-- Putting nodes into slots and giving them parents removes no node. -/
theorem place_there {p c x : NodeId} {f g : Node → Node} {k : Node} (h : w.get? x = some k) :
    ∃ k', ((w.update p f).update c g).get? x = some k' := by
  rw [get?_update, get?_update, get?_update]
  split <;> split <;> simp_all

theorem linkValue_eq {p c : NodeId} {input : String} {n k : Node} {child shadow : Option NodeId}
    (hn : w.get? p = some n) (hs : n.slot? input = some (.value child shadow))
    (hc : w.get? c = some k) : w.linkValue p input c = (w.setChild p input c, .ok ()) := by
  obtain ⟨k', hk'⟩ : ∃ k', (w.setChild p input c).get? c = some k' := place_there hc
  simp only [linkValue, slot_eq hn hs, arrive_eq hk']

theorem linkStatement_eq {p c : NodeId} {input : String} {n k : Node} {children : List NodeId}
    (hn : w.get? p = some n) (hs : n.slot? input = some (.statements children))
    (hc : w.get? c = some k) :
    w.linkStatement p input none c = (w.appendStatement p input c, .ok ()) := by
  obtain ⟨k', hk'⟩ : ∃ k', (w.appendStatement p input c).get? c = some k' := place_there hc
  simp only [linkStatement, slot_eq hn hs, arrive_eq hk']

theorem linkStatement_some_eq {p c : NodeId} {input : String} {n k : Node} {children : List NodeId}
    (hn : w.get? p = some n) (hs : n.slot? input = some (.statements children))
    (hc : w.get? c = some k) (place : Nat) :
    w.linkStatement p input (some place) c = (w.setStatement p input place c, .ok ()) := by
  obtain ⟨k', hk'⟩ : ∃ k', (w.setStatement p input place c).get? c = some k' := place_there hc
  simp only [linkStatement, slot_eq hn hs, arrive_eq hk']

theorem linkShadow_eq {p c : NodeId} {input : String} {n k : Node} {child shadow : Option NodeId}
    (hn : w.get? p = some n) (hs : n.slot? input = some (.value child shadow))
    (hc : (w.setShadow p input c).get? c = some k) :
    w.linkShadow p input c = (w.setShadow p input c, .ok ()) := by
  simp [linkShadow, node, hn, hs, arrive_eq hc]

/-- An attachment that succeeds has put the child into the slot. -/
theorem linkValue_ok {p c : NodeId} {input : String} (h : (w.linkValue p input c).2 = .ok ()) :
    (w.linkValue p input c).1 = w.setChild p input c := by
  unfold linkValue at h ⊢
  split at h
  · cases h
  · cases h
  · rfl

/-! ## What a connection does -/

theorem attached_ok {link : Workspace × Except EditError Unit} {events : List Event}
    (h : (Edited.attached link events).answer = .ok ()) :
    link.2 = .ok () ∧ (Edited.attached link events).workspace = link.1 := by
  unfold Edited.attached at h ⊢
  split at h
  · exact ⟨rfl, rfl⟩
  · cases h

/-- What a successful connection has found, and what it does. -/
theorem connectValue_ok {r : Registry} {parent child : NodeId} {input : String}
    (h : (w.connectValue r parent input child).answer = .ok ()) :
    ∃ occupant shadow,
      w.checkMove r Role.isValue parent input child = .ok (.value occupant shadow) ∧
      (w.connectValue r parent input child).workspace =
        (match occupant with
          | none => w.unlink child
          | some displaced => (w.unlink child).moveToTop displaced).setChild parent input child := by
  unfold connectValue at h ⊢
  split at h
  · cases h
  · cases h
  · next shadow hc =>
    obtain ⟨hlink, hw⟩ := attached_ok h
    exact ⟨none, shadow, hc, hw.trans (linkValue_ok hlink)⟩
  · next displaced shadow hc =>
    obtain ⟨hlink, hw⟩ := attached_ok h
    exact ⟨some displaced, shadow, hc, hw.trans (linkValue_ok hlink)⟩

/-- What becomes of the child and of the parent of a move when a node is taken out of its place. -/
theorem unlink_there (h : w.wiring.Linked) {c x : NodeId} {k : Node} (hx : w.get? x = some k) :
    ∃ k', (w.unlink c).get? x = some k' ∧
      ∀ name, k'.slot? name = (k.slot? name).map (dropFromSlot c) := by
  refine ⟨_, by rw [get?_unlink h, hx, Option.map_some], fun name => ?_⟩
  exact slot?_dropFromNode c k name

/-- A connection to a vacant input always gets through. -/
theorem connectValue_of_vacant (hl : w.wiring.Linked) {r : Registry} {parent child : NodeId}
    {input : String} {shadow : Option NodeId}
    (h : w.checkMove r Role.isValue parent input child = .ok (.value none shadow)) :
    w.connectValue r parent input child =
      ⟨(w.unlink child).setChild parent input child, .ok (),
        [.reconnected child (some (parent, input))]⟩ := by
  obtain ⟨m, n, d, hm, hn, -, -, -, -, -, hs⟩ := checkMove_ok h
  obtain ⟨m1, hm1, -⟩ := unlink_there hl (c := child) hm
  obtain ⟨n1, hn1, hs1⟩ := unlink_there hl (c := child) hn
  have hslot := hs1 input
  rw [hs] at hslot
  simp only [connectValue, h, linkValue_eq hn1 hslot hm1, Edited.attached]

/-- A connection to an occupied input always gets through. -/
theorem connectValue_of_occupied (hl : w.wiring.Linked) {r : Registry}
    {parent child displaced : NodeId} {input : String} {shadow : Option NodeId}
    (h : w.checkMove r Role.isValue parent input child = .ok (.value (some displaced) shadow)) :
    w.connectValue r parent input child =
      ⟨((w.unlink child).moveToTop displaced).setChild parent input child, .ok (),
        [.reconnected displaced none, .reconnected child (some (parent, input))]⟩ := by
  obtain ⟨m, n, d, hm, hn, -, -, -, -, -, hs⟩ := checkMove_ok h
  have hl1 := linked_unlink hl child
  obtain ⟨m1, hm1, -⟩ := unlink_there hl (c := child) hm
  obtain ⟨n1, hn1, hs1⟩ := unlink_there hl (c := child) hn
  obtain ⟨m2, hm2, -⟩ := unlink_there hl1 (c := displaced) hm1
  obtain ⟨n2, hn2, hs2⟩ := unlink_there hl1 (c := displaced) hn1
  have hslot := hs2 input
  rw [hs1, hs] at hslot
  have hlink := linkValue_eq (w := (w.unlink child).moveToTop displaced) hn2 hslot hm2
  simp only [connectValue, h, hlink, Edited.attached]

/-- An insertion into a statement input always gets through. -/
theorem insertStatement_of_statements (hl : w.wiring.Linked) {r : Registry}
    {parent child : NodeId} {input : String} {place : Nat} {children : List NodeId}
    (h : w.checkMove r (· = .statement) parent input child = .ok (.statements children)) :
    w.insertStatement r parent input place child =
      ⟨(w.unlink child).setStatement parent input place child, .ok (),
        [.reconnected child (some (parent, input))]⟩ := by
  obtain ⟨m, n, d, hm, hn, -, -, -, -, -, hs⟩ := checkMove_ok h
  obtain ⟨m1, hm1, -⟩ := unlink_there hl (c := child) hm
  obtain ⟨n1, hn1, hs1⟩ := unlink_there hl (c := child) hn
  have hslot := hs1 input
  rw [hs] at hslot
  simp only [insertStatement, h, linkStatement_some_eq hn1 hslot hm1 place, Edited.attached]

theorem get?_setChild_parent {p c : NodeId} {input : String} (hpc : c ≠ p) :
    (w.setChild p input c).get? p =
      (w.get? p).map fun n => n.withSlot input (childInSlot c) := by
  rw [setChild, get?_update_of_ne _ (Ne.symm hpc), get?_update_self]

theorem parent?_setChild {p c : NodeId} {input : String} {m : Node} (hpc : c ≠ p)
    (hc : w.get? c = some m) : (w.setChild p input c).parent? c = some p := by
  simp [parent?, setChild, get?_update, hpc, hc]

end Workspace

namespace Forest

open Workspace

variable {w : Workspace} {parent child : NodeId} {input : String} {n m : Node}
  {occupant shadow : Option NodeId}

/-- The checks of a move leave a forest with the child loose, and the slot without it. -/
theorem unlink_slot (h : Forest w) (hm : w.get? child = some m) (hn : w.get? parent = some n)
    (hs : n.slot? input = some (.value occupant shadow)) (ho : occupant ≠ some child) :
    Forest (w.unlink child) [child] ∧ ∃ n' shadow', (w.unlink child).get? parent = some n' ∧
      n'.slot? input = some (.value occupant shadow') := by
  have hn' := get?_unlink h.linked child parent
  rw [hn, Option.map_some] at hn'
  refine ⟨h.unlink hm List.not_mem_nil, _, if shadow = some child then none else shadow, hn', ?_⟩
  show (dropFromNode child n).slot? input = _
  rw [slot?_dropFromNode, hs]
  simp [dropFromSlot, ho]

/-- A connection to an input that holds no child keeps the forest. -/
theorem connect_vacant (h : Forest w) (hm : w.get? child = some m) (hn : w.get? parent = some n)
    (hs : n.slot? input = some (.value none shadow)) (hne : child ≠ parent)
    (ha : child ∉ w.ancestors parent) : Forest ((w.unlink child).setChild parent input child) := by
  obtain ⟨h1, n', shadow', hn', hs'⟩ := h.unlink_slot hm hn hs (by simp)
  exact h1.setChild List.not_mem_nil hn' hs' hne fun hc => ha (ancestors_unlink_subset h.linked hn hc)

/-- A connection to an input that holds another child keeps the forest: that child becomes the last
root. -/
theorem connect_occupied {displaced : NodeId} (h : Forest w) (hm : w.get? child = some m)
    (hn : w.get? parent = some n) (hs : n.slot? input = some (.value (some displaced) shadow))
    (hd : displaced ≠ child) (hne : child ≠ parent) (ha : child ∉ w.ancestors parent) :
    Forest (((w.unlink child).moveToTop displaced).setChild parent input child) := by
  obtain ⟨h1, n1, shadow1, hn1, hs1⟩ := h.unlink_slot hm hn hs (by simpa using hd)
  have hown : displaced ∈ n1.owned := Node.owned_of_slot? hs1 (by simp [Slot.owned])
  obtain ⟨k, hk, -⟩ := h1.linked.owned_there (wiring_of_get? hn1) hown
  obtain ⟨md, hmd, -⟩ := get?_of_wiring hk
  have h2 : Forest ((w.unlink child).unlink displaced) [displaced, child] :=
    h1.unlink hmd (by simpa using hd)
  have hn2 := get?_unlink h1.linked displaced parent
  rw [hn1, Option.map_some] at hn2
  have ha2 : child ∉ ((w.unlink child).unlink displaced).ancestors parent := fun hc =>
    ha (ancestors_unlink_subset h.linked hn (ancestors_unlink_subset h1.linked hn1 hc))
  -- the child is hung into the slot before the displaced node is listed as a root: the two commute
  have h3 : Forest (((w.unlink child).unlink displaced).setChild parent input child)
      [displaced] := by
    have hs2 : (dropFromNode displaced n1).slot? input =
        some (.value none (if shadow1 = some displaced then none else shadow1)) := by
      rw [slot?_dropFromNode, hs1]
      simp [dropFromSlot]
    refine (h2.loose_congr (l := [child, displaced]) ?_).setChild (by simpa using hd.symm) hn2
      hs2 hne ha2
    intro x
    simp [or_comm]
  exact h3.addRoot List.not_mem_nil

end Forest

/-- What a connection is for: the child stands in the input and names the parent, it is no root, the
child that was there before is the last root, no node is both a root and in a slot, and the
workspace is a forest. -/
structure Connected (w v : Workspace) (parent : NodeId) (input : String) (child : NodeId) :
    Prop where
  occupies : v.child? parent input = some child
  names : v.parent? child = some parent
  not_root : child ∉ v.roots
  displaced : ∀ d, w.child? parent input = some d → d ≠ child → v.roots.getLast? = some d
  apart : ∀ x ∈ v.roots, ∀ p n, v.get? p = some n → x ∉ n.owned
  forest : Forest v

namespace Workspace

variable {w : Workspace} {parent child : NodeId} {input : String} {n : Node}

theorem child?_setChild {occupant shadow : Option NodeId} (hne : child ≠ parent)
    (hn : w.get? parent = some n) (hs : n.slot? input = some (.value occupant shadow)) :
    (w.setChild parent input child).child? parent input = some child := by
  have hp : (w.setChild parent input child).get? parent =
      some (n.withSlot input (childInSlot child)) := by
    rw [get?_setChild_parent hne, hn, Option.map_some]
  have hsl : (n.withSlot input (childInSlot child)).slot? input =
      some (.value (some child) shadow) := by
    rw [Node.slot?_withSlot, if_pos rfl, hs]
    rfl
  exact child?_eq hp hsl

/-- A node that was put into a value input is connected there, if the workspace is a forest. -/
theorem connected_setChild {v : Workspace} {m : Node} {occupant shadow : Option NodeId}
    (hf : Forest (v.setChild parent input child)) (hm : v.get? child = some m)
    (hn : v.get? parent = some n) (hs : n.slot? input = some (.value occupant shadow))
    (hne : child ≠ parent)
    (hd : ∀ d, w.child? parent input = some d → d ≠ child → v.roots.getLast? = some d) :
    Connected w (v.setChild parent input child) parent input child where
  occupies := child?_setChild hne hn hs
  names := parent?_setChild hne hm
  not_root := hf.not_root_of_parent (parent?_setChild hne hm)
  displaced := hd
  apart := by
    intro x hx p n hp
    exact hf.not_owned_of_root hx hp
  forest := hf

end Workspace

open Workspace in
/-- Connecting a value keeps the forest, and puts every node where it belongs, exactly if the child
does not already stand in that very input. -/
theorem connectValue_connected_iff {w : Workspace} {r : Registry} {parent child : NodeId}
    {input : String} (h : Forest w)
    (hok : (w.connectValue r parent input child).answer = .ok ()) :
    Connected w (w.connectValue r parent input child).workspace parent input child ↔
      w.child? parent input ≠ some child := by
  obtain ⟨occupant, shadow, hcheck, hw⟩ := connectValue_ok hok
  obtain ⟨m, n, d, hm, hn, -, hne, ha, -, -, hs⟩ := checkMove_ok hcheck
  have hoc := child?_eq hn hs
  obtain ⟨m1, hm1, -⟩ := unlink_there h.linked (c := child) hm
  obtain ⟨n1, hn1, hs1⟩ := unlink_there h.linked (c := child) hn
  have h1 : Forest (w.unlink child) [child] := h.unlink hm List.not_mem_nil
  rw [hw, hoc]
  constructor
  · rintro hc rfl
    -- the child was pushed to the roots as its own predecessor
    exact hc.not_root (List.mem_append_right _ (List.mem_singleton_self _))
  · intro ho
    cases occupant with
    | none =>
      have hsl := hs1 input
      rw [hs] at hsl
      refine connected_setChild (h.connect_vacant hm hn hs hne ha) hm1 hn1 hsl hne ?_
      intro d hd
      rw [hoc] at hd
      cases hd
    | some d =>
      have hdc : d ≠ child := by simpa using ho
      obtain ⟨m2, hm2, -⟩ := unlink_there h1.linked (c := d) hm1
      obtain ⟨n2, hn2, hs2⟩ := unlink_there h1.linked (c := d) hn1
      have hsl := hs2 input
      rw [hs1, hs] at hsl
      refine connected_setChild (h.connect_occupied hm hn hs hdc hne ha) hm2 hn2 hsl hne ?_
      intro d' hd' _
      rw [hoc, Option.some.injEq] at hd'
      subst hd'
      exact List.getLast?_concat

/-- A block with a number in its input, and a second number beside it. -/
def occupiedInput : Workspace :=
  let block : Node :=
    ⟨0, .showNumber, .empty, [⟨"NUM", .value none none⟩], none, false, none, none⟩
  let number (id : NodeId) : Node := ⟨id, .temperature, .empty, [], none, false, none, none⟩
  let planted : Workspace := (({} : Workspace).put block).put (number 1) |>.put (number 2)
  { planted with roots := [0, 2] }.setChild 0 "NUM" 1

theorem forest_occupiedInput : Forest occupiedInput := by
  unfold occupiedInput
  extract_lets block number planted
  have h0 : Forest _ [0] := Forest.empty.put (n := block) rfl rfl
  have h1 : Forest _ [1] := (h0.addRoot List.not_mem_nil).put (n := number 1) rfl rfl
  have h2 : Forest { planted with roots := [0, 2] } [1] :=
    (h1.put (n := number 2) rfl rfl).addRoot (by decide)
  exact h2.setChild List.not_mem_nil (n := block) rfl rfl (by decide) (by decide)

/-- The number beside the block takes the place of the one in its input. -/
theorem connectValue_connected_displacing :
    Forest occupiedInput ∧ occupiedInput.child? 0 "NUM" = some 1 ∧
      Connected occupiedInput (occupiedInput.connectValue .builtin 0 "NUM" 2).workspace
        0 "NUM" 2 :=
  ⟨forest_occupiedInput, rfl,
    (connectValue_connected_iff forest_occupiedInput rfl).mpr (by decide)⟩

/-- The number that stands in the input is connected to it once more, and is a root and in a slot
after that. -/
theorem connectValue_in_place :
    Forest occupiedInput ∧ (occupiedInput.connectValue .builtin 0 "NUM" 1).answer = .ok () ∧
      (occupiedInput.connectValue .builtin 0 "NUM" 1).workspace.child? 0 "NUM" = some 1 ∧
      (occupiedInput.connectValue .builtin 0 "NUM" 1).workspace.roots = [0, 2, 1] :=
  ⟨forest_occupiedInput, rfl, rfl, rfl⟩

end BlockText

import BlockText.Proofs.Wiring
import BlockText.Workspace.Edit

/-!
# The links of a workspace

What the single changes of a workspace do to its wiring, and why the walks up and down, which are
bounded by the number of nodes, are complete: in a linked workspace no chain of parents is longer
than there are nodes.
-/

namespace BlockText

/-- If two steps gave a result, then so did the first of them. -/
theorem bind_ok {ε α β : Type} {first : Except ε α} {next : α → Except ε β} {b : β}
    (h : first >>= next = .ok b) : ∃ a, first = .ok a ∧ next a = .ok b := by
  cases first with
  | error _ => cases h
  | ok a => exact ⟨a, rfl, h⟩

/-! ## The slots of a node -/

/-- The links of a node. -/
def Node.link (n : Node) : Link := ⟨n.parent, n.owned⟩

namespace Node

theorem updateSlot_split {name : String} (f : Slot → Slot) {i : Input} : ∀ {is : List Input},
    is.find? (fun j => j.name == name) = some i →
      ∃ before after, is = before ++ i :: after ∧
        updateSlot name f is = before ++ { i with slot := f i.slot } :: after
  | [], h => by cases h
  | j :: is, h => by
    rw [List.find?_cons] at h
    unfold updateSlot
    split at h
    · next hj =>
      cases h
      exact ⟨[], is, rfl, by simp [hj]⟩
    · next hj =>
      obtain ⟨before, after, he, hu⟩ := updateSlot_split f h
      exact ⟨j :: before, after, by simp [he], by simp [hj, hu]⟩

/-- A change of one slot changes what a node owns by what that slot owns. -/
theorem owned_withSlot {n : Node} {name : String} {s : Slot} (h : n.slot? name = some s)
    (f : Slot → Slot) : ∃ others, n.owned.Perm (s.owned ++ others) ∧
      (n.withSlot name f).owned.Perm ((f s).owned ++ others) := by
  obtain ⟨i, hi, rfl⟩ := Option.map_eq_some_iff.mp h
  obtain ⟨before, after, he, hu⟩ := updateSlot_split f hi
  refine ⟨before.flatMap (fun j => j.slot.owned) ++ after.flatMap (fun j => j.slot.owned), ?_, ?_⟩
  · simp only [owned, he, List.flatMap_append, List.flatMap_cons]
    exact List.perm_append_comm_assoc _ _ _
  · simp only [withSlot, owned, hu, List.flatMap_append, List.flatMap_cons]
    exact List.perm_append_comm_assoc _ _ _

theorem owned_withSlot_cons {n : Node} {name : String} {s : Slot} {f : Slot → Slot} {c : NodeId}
    (h : n.slot? name = some s) (hf : (f s).owned.Perm (c :: s.owned)) :
    (n.withSlot name f).owned.Perm (c :: n.owned) := by
  obtain ⟨others, hn, hw⟩ := owned_withSlot h f
  calc (n.withSlot name f).owned.Perm ((f s).owned ++ others) := hw
    _ |>.Perm (c :: s.owned ++ others) := hf.append_right others
    _ |>.Perm (c :: n.owned) := hn.symm.cons c

theorem slot?_withSlot (n : Node) (name name' : String) (f : Slot → Slot) :
    (n.withSlot name f).slot? name' =
      if name' = name then (n.slot? name).map f else n.slot? name' := by
  have key : ∀ is : List Input,
      ((updateSlot name f is).find? fun j => j.name == name').map (·.slot) =
        if name' = name then ((is.find? fun j => j.name == name).map (·.slot)).map f
        else (is.find? fun j => j.name == name').map (·.slot) := by
    intro is
    induction is with
    | nil => simp [updateSlot]
    | cons j is ih =>
      by_cases hj : j.name = name
      · by_cases hn : name' = name
        · simp [updateSlot, hj, hn]
        · simp [updateSlot, hj, hn, Ne.symm hn]
      · by_cases hn : name' = name
        · subst hn
          simpa [updateSlot, hj] using ih
        · by_cases hj' : j.name = name'
          · simp [updateSlot, hj', hn]
          · rw [if_neg hn] at ih
            simpa [updateSlot, hj, hj', hn] using ih
  exact key n.inputs

@[simp] theorem withSlot_parent (n : Node) (name : String) (f : Slot → Slot) :
    (n.withSlot name f).parent = n.parent := rfl

theorem slot?_mem {n : Node} {name : String} {s : Slot} (h : n.slot? name = some s) :
    ∃ i ∈ n.inputs, i.name = name ∧ i.slot = s := by
  obtain ⟨i, hi, rfl⟩ := Option.map_eq_some_iff.mp h
  exact ⟨i, List.mem_of_find?_eq_some hi, by simpa using List.find?_some hi, rfl⟩

theorem owned_of_slot? {n : Node} {name : String} {s : Slot} {c : NodeId}
    (h : n.slot? name = some s) (hc : c ∈ s.owned) : c ∈ n.owned := by
  obtain ⟨i, hi, -, rfl⟩ := slot?_mem h
  exact List.mem_flatMap.mpr ⟨i, hi, hc⟩

/-- What shows in a value input is its child or its shadow. -/
theorem slot?_of_valueTarget? {n : Node} {name : String} {c : NodeId}
    (h : n.valueTarget? name = some c) : ∃ child shadow,
      n.slot? name = some (.value child shadow) ∧ c ∈ (Slot.value child shadow).owned := by
  rw [valueTarget?] at h
  split at h
  case h_2 => cases h
  case h_1 child shadow hs =>
    refine ⟨child, shadow, hs, ?_⟩
    cases child with
    | none => simp_all [Slot.owned]
    | some d => simp_all [Slot.owned]

theorem slot?_of_statements {n : Node} {name : String} {c : NodeId}
    (h : c ∈ n.statements name) : ∃ children,
      n.slot? name = some (.statements children) ∧ c ∈ children := by
  rw [statements] at h
  split at h
  case h_2 => cases h
  case h_1 children hs => exact ⟨children, hs, h⟩

end Node

namespace Workspace

theorem owned_dropFromSlot (c : NodeId) (s : Slot) :
    (dropFromSlot c s).owned = s.owned.filter (· ≠ c) := by
  cases s with
  | value child shadow =>
    rcases child with _ | a <;> rcases shadow with _ | b
    · rfl
    · by_cases hb : b = c <;> simp [dropFromSlot, Slot.owned, hb]
    · by_cases ha : a = c <;> simp [dropFromSlot, Slot.owned, ha]
    · by_cases ha : a = c <;> by_cases hb : b = c <;> simp [dropFromSlot, Slot.owned, ha, hb]
  | statements children => rfl

theorem owned_dropFromNode (c : NodeId) (n : Node) :
    (dropFromNode c n).owned = n.owned.filter (· ≠ c) := by
  simp only [Node.owned, dropFromNode, List.flatMap_map, List.filter_flatMap, owned_dropFromSlot]

/-! ## Nodes after the single changes -/

section Lookup

variable (w : Workspace)

theorem get?_update (id x : NodeId) (f : Node → Node) :
    (w.update id f).get? x = if x = id then (w.get? id).map f else w.get? x :=
  SortedMap.get?_adjust w.nodes id x f

theorem get?_update_self (id : NodeId) (f : Node → Node) :
    (w.update id f).get? id = (w.get? id).map f := by
  rw [get?_update, if_pos rfl]

theorem get?_update_of_ne {id x : NodeId} (h : x ≠ id) (f : Node → Node) :
    (w.update id f).get? x = w.get? x := by
  rw [get?_update, if_neg h]

theorem get?_put (n : Node) (x : NodeId) :
    (w.put n).get? x = if x = n.id then some n else w.get? x :=
  SortedMap.get?_insert w.nodes n.id x n

theorem get?_remove (ids : List NodeId) (x : NodeId) :
    (w.remove ids).get? x = if x ∈ ids then none else w.get? x :=
  SortedMap.get?_foldl_erase ids w.nodes x

@[simp] theorem roots_update (id : NodeId) (f : Node → Node) : (w.update id f).roots = w.roots := rfl

@[simp] theorem nextId_update (id : NodeId) (f : Node → Node) :
    (w.update id f).nextId = w.nextId := rfl

@[simp] theorem roots_remove (ids : List NodeId) :
    (w.remove ids).roots = w.roots.filter fun x => !ids.contains x := rfl

@[simp] theorem nextId_remove (ids : List NodeId) : (w.remove ids).nextId = w.nextId := rfl

@[simp] theorem nextId_unlink (c : NodeId) : (w.unlink c).nextId = w.nextId := by
  unfold unlink
  split <;> rfl

@[simp] theorem nextId_pushRoot (c : NodeId) : (w.pushRoot c).nextId = w.nextId := by
  unfold pushRoot
  split <;> rfl

@[simp] theorem nextId_setShadow (p : NodeId) (input : String) (c : NodeId) :
    (w.setShadow p input c).nextId = w.nextId := by
  unfold setShadow
  cases w.shadow? p input <;> rfl

@[simp] theorem roots_setChild (p : NodeId) (input : String) (c : NodeId) :
    (w.setChild p input c).roots = w.roots := rfl

@[simp] theorem nextId_setChild (p : NodeId) (input : String) (c : NodeId) :
    (w.setChild p input c).nextId = w.nextId := rfl

end Lookup

/-! ## The wiring of a workspace -/

/-- The links of the nodes of a workspace. -/
def wiring (w : Workspace) : Wiring := fun x => (w.get? x).map Node.link

section Wiring

variable {w : Workspace}

theorem wiring_of_get? {x : NodeId} {n : Node} (h : w.get? x = some n) :
    w.wiring x = some n.link := by
  simp only [wiring, h, Option.map_some]

theorem get?_of_wiring {x : NodeId} {l : Link} (h : w.wiring x = some l) :
    ∃ n, w.get? x = some n ∧ n.link = l :=
  Option.map_eq_some_iff.mp h

@[simp] theorem parent?_wiring (x : NodeId) : w.wiring.parent? x = w.parent? x := by
  cases h : w.get? x <;> simp [Wiring.parent?, wiring, parent?, h, Node.link]

theorem top_wiring {x : NodeId} : w.wiring.Top x ↔ ∃ n, w.get? x = some n ∧ n.parent = none := by
  constructor
  · rintro ⟨l, hl, hn⟩
    obtain ⟨n, hx, rfl⟩ := get?_of_wiring hl
    exact ⟨n, hx, hn⟩
  · rintro ⟨n, hx, hn⟩
    exact ⟨n.link, wiring_of_get? hx, hn⟩

/-- A change of one node that keeps its links keeps the wiring. -/
theorem wiring_update_of_link {f : Node → Node} (hf : ∀ n, (f n).link = n.link) (id : NodeId) :
    (w.update id f).wiring = w.wiring := by
  funext x
  by_cases h : x = id
  · subst h
    cases hx : w.get? x <;> simp [wiring, get?_update, hx, hf]
  · simp [wiring, get?_update, h]

theorem wiring_unlink (c : NodeId) : (w.unlink c).wiring = w.wiring.cut c := by
  funext x
  have hout (v : Workspace) (hv : ∀ x, v.get? x =
      if w.parent? c = some x then (w.get? x).map (dropFromNode c) else w.get? x) :
      (v.update c fun n => { n with parent := none }).wiring x = w.wiring.cut c x := by
    by_cases hx : x = c
    · subst hx
      cases hg : w.get? x with
      | none => simp [wiring, get?_update, hv, hg, Wiring.cut]
      | some n =>
        by_cases hp : w.parent? x = some x
        · have := owned_dropFromNode x n
          simp only [Node.owned] at this
          simp [wiring, get?_update, hv, hg, hp, Wiring.cut, Node.link, Node.owned, this]
        · simp [wiring, get?_update, hv, hg, hp, Wiring.cut, Node.link, Node.owned]
    · cases hg : w.get? x with
      | none => simp [wiring, get?_update, hv, hg, hx, Wiring.cut]
      | some n =>
        by_cases hp : w.parent? c = some x
        · simp [wiring, get?_update, hv, hg, hx, hp, Wiring.cut, Node.link, owned_dropFromNode]
          rfl
        · simp [wiring, get?_update, hv, hg, hx, hp, Wiring.cut, Node.link]
  unfold unlink
  split
  · next p hp =>
    refine hout _ fun x => ?_
    rw [get?_update, hp]
    by_cases hxp : x = p
    · subst hxp
      simp
    · simp [hxp, Ne.symm hxp]
  · next hp => exact hout _ fun x => by simp [hp, get?]

theorem linked_unlink (h : w.wiring.Linked) (c : NodeId) : (w.unlink c).wiring.Linked := by
  rw [wiring_unlink]
  exact h.cut c

theorem wiring_remove (ids : List NodeId) :
    (w.remove ids).wiring = w.wiring.prune (· ∈ ids) := by
  funext x
  by_cases h : x ∈ ids <;> simp [wiring, get?_remove, Wiring.prune, h]

/-- Putting a child into a slot of another node hangs it there. -/
theorem wiring_place {p c : NodeId} {n : Node} {input : String} {f : Slot → Slot} (hpc : c ≠ p)
    (hp : w.get? p = some n) (g : Node → Node)
    (hg : ∀ m, (g m).link = { m.link with parent := some p }) :
    ((w.update p fun n => n.withSlot input f).update c g).wiring =
      w.wiring.hang p c (n.withSlot input f).owned := by
  funext x
  by_cases hx : x = c
  · subst hx
    cases hc : w.get? x <;> simp [wiring, get?_update, hpc, Wiring.hang, hc, hg]
  · by_cases hxp : x = p
    · subst hxp
      simp [wiring, get?_update, hx, Wiring.hang, hp, Node.link]
    · simp [wiring, get?_update, hx, hxp, Wiring.hang]

end Wiring

/-! ## Walks up -/

section Walks

open Wiring

variable {w : Workspace}

theorem mem_keys {x : NodeId} : x ∈ w.nodes.keys ↔ ∃ n, w.get? x = some n := by
  rw [SortedMap.mem_keys, Option.isSome_iff_exists]
  rfl

theorem ascending_keys (w : Workspace) : w.nodes.keys.Pairwise (· < ·) := by
  rw [SortedMap.keys, List.pairwise_map]
  exact w.nodes.ascending.imp Nat.compare_eq_lt.mp

/-- A chain of parents is shorter than the workspace is large. -/
theorem Chain.length_lt {x : NodeId} {as : List NodeId} (h : Chain w.wiring x as) :
    as.length < w.size := by
  have hsub : x :: as ⊆ w.nodes.keys := by
    intro a ha
    obtain ⟨l, hl⟩ := h.there_of_mem ha
    obtain ⟨n, hn, -⟩ := get?_of_wiring hl
    exact mem_keys.mpr ⟨n, hn⟩
  have hle := (h.nodup.subperm hsub).length_le
  simp only [List.length_cons, SortedMap.keys, List.length_map] at hle
  show as.length < w.nodes.entries.length
  omega

theorem ancestorsUpTo_eq_take {x : NodeId} {as : List NodeId} (h : Chain w.wiring x as)
    (bound : Nat) : w.ancestorsUpTo bound x = as.take bound := by
  induction bound generalizing x as with
  | zero => simp [ancestorsUpTo]
  | succ bound ih =>
    have hp := parent?_wiring (w := w) x
    cases h with
    | top hx hn =>
      rw [parent?_of_eq hx, hn] at hp
      simp [ancestorsUpTo, ← hp]
    | up hx hn hc =>
      rw [parent?_of_eq hx, hn] at hp
      simp [ancestorsUpTo, ← hp, ih hc]

/-- The walk up finds the whole chain. -/
theorem ancestors_eq {x : NodeId} {as : List NodeId} (h : Chain w.wiring x as) :
    w.ancestors x = as := by
  rw [ancestors, ancestorsUpTo_eq_take h, List.take_of_length_le]
  have := Chain.length_lt h
  omega

theorem chain_ancestors (h : w.wiring.Linked) {x : NodeId} {n : Node} (hx : w.get? x = some n) :
    Chain w.wiring x (w.ancestors x) := by
  obtain ⟨as, hc⟩ := h.chain (wiring_of_get? hx)
  rw [ancestors_eq hc]
  exact hc

/-- The walk up reads nothing but the wiring. -/
theorem ancestors_congr {v : Workspace} (h : w.wiring.Linked) (hv : v.wiring = w.wiring)
    {x : NodeId} {n : Node} (hx : w.get? x = some n) : v.ancestors x = w.ancestors x :=
  ancestors_eq (hv ▸ chain_ancestors h hx)

theorem ancestors_of_parent (h : w.wiring.Linked) {x p : NodeId} (hp : w.parent? x = some p) :
    w.ancestors x = p :: w.ancestors p := by
  rw [← parent?_wiring] at hp
  obtain ⟨l, hl, hlp⟩ := parent?_eq_some.mp hp
  obtain ⟨k, hk, -⟩ := h.owned_of_parent hp
  obtain ⟨m, hm, -⟩ := get?_of_wiring hk
  exact ancestors_eq (.up hl hlp (chain_ancestors h hm))

theorem ancestors_of_top {x : NodeId} (h : w.parent? x = none) : w.ancestors x = [] := by
  simp [ancestors, ancestorsUpTo, h]

/-! ## Walks down -/

/-- In a chain the node after a node is its parent. -/
theorem Chain.getElem?_succ {L : Wiring} {x : NodeId} {as : List NodeId} (h : Chain L x as)
    (k : Nat) (y : NodeId) :
    (x :: as)[k + 1]? = some y ↔ ∃ c, (x :: as)[k]? = some c ∧ L.parent? c = some y := by
  induction h generalizing k with
  | top hx hn =>
    cases k with
    | zero => simp [parent?_of_eq hx, hn]
    | succ k => simp
  | @up x p l as hx hn hc ih =>
    cases k with
    | zero => simp [parent?_of_eq hx, hn]
    | succ k => simpa using ih k

theorem mem_descendantsUpTo (h : w.wiring.Linked) {bound : Nat} {x y : NodeId} :
    x ∈ w.descendantsUpTo bound y ↔
      ∃ as, Chain w.wiring x as ∧ ∃ k < bound, (x :: as)[k]? = some y := by
  induction bound generalizing y with
  | zero => simp [descendantsUpTo]
  | succ bound ih =>
    cases hy : w.get? y with
    | none =>
      simp only [descendantsUpTo, hy, List.not_mem_nil, false_iff]
      rintro ⟨as, hc, k, -, hk⟩
      obtain ⟨l, hl⟩ := hc.there_of_mem (List.mem_of_getElem? hk)
      rw [wiring, hy] at hl
      cases hl
    | some n =>
      simp only [descendantsUpTo, hy, List.mem_cons, List.mem_flatMap, ih]
      constructor
      · rintro (rfl | ⟨c, hc, as, has, k, hk, hkc⟩)
        · exact ⟨_, chain_ancestors h hy, 0, by omega, rfl⟩
        · refine ⟨as, has, k + 1, by omega, ?_⟩
          rw [Chain.getElem?_succ has]
          exact ⟨c, hkc, h.parent_of_owned (wiring_of_get? hy) hc⟩
      · rintro ⟨as, has, k, hk, hky⟩
        cases k with
        | zero => exact .inl (by simpa using hky)
        | succ k =>
          obtain ⟨c, hkc, hcy⟩ := (Chain.getElem?_succ has k y).mp hky
          obtain ⟨l, hl, hcl⟩ := h.owned_of_parent hcy
          rw [wiring_of_get? hy, Option.some.injEq] at hl
          subst hl
          exact .inr ⟨c, hcl, as, has, k, by omega, hkc⟩

/-- The walk down finds a node exactly if the walk up from it finds the start. -/
theorem mem_descendants (h : w.wiring.Linked) {x y : NodeId} :
    x ∈ w.descendants y ↔ (∃ n, w.get? x = some n) ∧ (y = x ∨ y ∈ w.ancestors x) := by
  rw [descendants, mem_descendantsUpTo h]
  constructor
  · rintro ⟨as, hc, k, -, hk⟩
    obtain ⟨l, hl⟩ := hc.there
    obtain ⟨n, hn, -⟩ := get?_of_wiring hl
    rw [ancestors_eq hc]
    exact ⟨⟨n, hn⟩, List.mem_cons.mp (List.mem_of_getElem? hk)⟩
  · rintro ⟨⟨n, hn⟩, hy⟩
    have hc := chain_ancestors h hn
    obtain ⟨k, hk⟩ := List.mem_iff_getElem?.mp (List.mem_cons.mpr hy)
    refine ⟨_, hc, k, ?_, hk⟩
    have hlen := Chain.length_lt hc
    obtain ⟨hk, -⟩ := List.getElem?_eq_some_iff.mp hk
    simp only [List.length_cons] at hk
    omega

/-- The walk down meets no node twice. -/
theorem nodup_descendantsUpTo (h : w.wiring.Linked) (bound : Nat) (y : NodeId) :
    (w.descendantsUpTo bound y).Nodup := by
  induction bound generalizing y with
  | zero => exact List.nodup_nil
  | succ bound ih =>
    cases hy : w.get? y with
    | none => simp [descendantsUpTo, hy]
    | some n =>
      -- the node above a node is its parent, so a node met below two children is below both at
      -- one place of its chain
      have above {x c : NodeId} (hc : c ∈ n.owned) (hx : x ∈ w.descendantsUpTo bound c) :
          ∃ k, (x :: w.ancestors x)[k]? = some c ∧ (x :: w.ancestors x)[k + 1]? = some y := by
        obtain ⟨as, has, k, -, hk⟩ := (mem_descendantsUpTo h).mp hx
        rw [ancestors_eq has]
        refine ⟨k, hk, (Chain.getElem?_succ has k y).mpr ⟨c, hk, ?_⟩⟩
        exact h.parent_of_owned (wiring_of_get? hy) hc
      have nodup_chain {x c : NodeId} (hx : x ∈ w.descendantsUpTo bound c) :
          (x :: w.ancestors x).Nodup := by
        obtain ⟨as, has, -⟩ := (mem_descendantsUpTo h).mp hx
        rw [ancestors_eq has]
        exact has.nodup
      have index_eq {x c : NodeId} {i j : Nat} {z : NodeId}
          (hx : x ∈ w.descendantsUpTo bound c) (hi : (x :: w.ancestors x)[i]? = some z)
          (hj : (x :: w.ancestors x)[j]? = some z) : i = j := by
        obtain ⟨hi', hi⟩ := List.getElem?_eq_some_iff.mp hi
        obtain ⟨hj', hj⟩ := List.getElem?_eq_some_iff.mp hj
        exact (nodup_chain hx).getElem_inj_iff.mp (hi.trans hj.symm)
      simp only [descendantsUpTo, hy]
      refine List.nodup_cons.mpr ⟨?_, List.nodup_flatMap.mpr ⟨fun c _ => ih c, ?_⟩⟩
      · intro hm
        obtain ⟨c, hc, hx⟩ := List.mem_flatMap.mp hm
        obtain ⟨k, -, hk⟩ := above hc hx
        have := index_eq hx hk (j := 0) rfl
        omega
      · have hnd : n.owned.Nodup := h.owned_nodup (wiring_of_get? hy)
        refine hnd.imp_of_mem fun {c d} hc hd hne x hxc hxd => hne ?_
        obtain ⟨i, hi, hi'⟩ := above hc hxc
        obtain ⟨j, hj, hj'⟩ := above hd hxd
        have := index_eq hxc hi' hj'
        obtain rfl : i = j := by omega
        exact Option.some.inj (hi.symm.trans hj)

/-- What a node below another owns is below it too. -/
theorem descendants_down (h : w.wiring.Linked) {x y c : NodeId} {n : Node}
    (hx : x ∈ w.descendants y) (hn : w.get? x = some n) (hc : c ∈ n.owned) :
    c ∈ w.descendants y := by
  have hp : w.parent? c = some x := by
    rw [← parent?_wiring]
    exact h.parent_of_owned (wiring_of_get? hn) hc
  obtain ⟨l, hl, -⟩ := h.owned_there (wiring_of_get? hn) hc
  obtain ⟨m, hm, -⟩ := get?_of_wiring hl
  rw [mem_descendants h] at hx ⊢
  rw [ancestors_of_parent h hp]
  refine ⟨⟨m, hm⟩, .inr ?_⟩
  rcases hx.2 with rfl | hy
  · exact List.mem_cons_self
  · exact List.mem_cons_of_mem _ hy

/-- The parent of a node below a loose one is below it too. -/
theorem descendants_up (h : w.wiring.Linked) {x y p : NodeId} (hy : w.parent? y = none)
    (hx : x ∈ w.descendants y) (hp : w.parent? x = some p) : p ∈ w.descendants y := by
  obtain ⟨l, hl, -⟩ := h.owned_of_parent (parent?_wiring (w := w) x ▸ hp)
  obtain ⟨m, hm, -⟩ := get?_of_wiring hl
  rw [mem_descendants h] at hx ⊢
  rw [ancestors_of_parent h hp] at hx
  refine ⟨⟨m, hm⟩, ?_⟩
  rcases hx.2 with rfl | hx
  · rw [hy] at hp
    cases hp
  · exact List.mem_cons.mp hx

/-- A loose node may go with everything below it. -/
theorem linked_remove (h : w.wiring.Linked) {y : NodeId} (hy : w.parent? y = none) :
    (w.remove (w.descendants y)).wiring.Linked := by
  rw [wiring_remove]
  refine h.prune ?_ ?_
  · intro x l c hx hl hc
    obtain ⟨n, hn, rfl⟩ := get?_of_wiring hl
    exact descendants_down h hx hn hc
  · intro x p hx hp
    rw [parent?_wiring] at hp
    exact descendants_up h hy hx hp

/-! ## A node out of its place -/

theorem dropFromSlot_of_not_mem {c : NodeId} {s : Slot} (h : c ∉ s.owned) :
    dropFromSlot c s = s := by
  cases s with
  | value child shadow =>
    have hc : child ≠ some c := by
      rintro rfl
      simp [Slot.owned] at h
    have hs : shadow ≠ some c := by
      rintro rfl
      simp [Slot.owned] at h
    simp [dropFromSlot, hc, hs]
  | statements children =>
    simp only [dropFromSlot, Slot.statements.injEq, List.filter_eq_self]
    intro x hx
    have : x ≠ c := by
      rintro rfl
      exact h hx
    simpa using this

theorem dropFromNode_of_not_mem {c : NodeId} {n : Node} (h : c ∉ n.owned) :
    dropFromNode c n = n := by
  have : n.inputs.map (fun i => { i with slot := dropFromSlot c i.slot }) = n.inputs := by
    conv_rhs => rw [← List.map_id n.inputs]
    refine List.map_congr_left fun i hi => ?_
    rw [dropFromSlot_of_not_mem fun hc => h (List.mem_flatMap.mpr ⟨i, hi, hc⟩)]
    rfl
  simp only [dropFromNode, this]

theorem slot?_dropFromNode (c : NodeId) (n : Node) (name : String) :
    (dropFromNode c n).slot? name = (n.slot? name).map (dropFromSlot c) := by
  simp only [Node.slot?, Node.input?, dropFromNode, List.find?_map, Option.map_map]
  rfl

/-- Taking a node out of its place takes it out of every slot and changes nothing else but its
parent. -/
theorem get?_unlink (h : w.wiring.Linked) (c x : NodeId) :
    (w.unlink c).get? x = (w.get? x).map fun n =>
      { dropFromNode c n with parent := if x = c then none else n.parent } := by
  cases hx : w.get? x with
  | none =>
    have hw := congrFun (wiring_unlink (w := w) c) x
    simpa [wiring, hx, Wiring.cut] using hw
  | some n =>
    have stays (hp : w.parent? c ≠ some x) : dropFromNode c n = n := by
      refine dropFromNode_of_not_mem fun hm => hp ?_
      rw [← parent?_wiring]
      exact h.parent_of_owned (wiring_of_get? hx) hm
    unfold unlink
    split
    · next p hp =>
      rw [get?_update, get?_update, get?_update]
      by_cases hxp : x = p
      · subst hxp
        have hxc : x ≠ c := h.parent_ne (by rw [parent?_wiring]; exact hp)
        simp [hx, hxc, dropFromNode]
      · have hpx : w.parent? c ≠ some x := by
          rw [hp]
          simpa using Ne.symm hxp
        by_cases hxc : x = c
        · subst hxc
          simp [hx, hxp, stays hpx]
        · simp [hx, hxp, hxc, stays hpx]
    · next hp =>
      have hpx : w.parent? c ≠ some x := by simp [hp]
      rw [get?_update]
      by_cases hxc : x = c
      · subst hxc
        simp only [if_pos, Option.map_some, stays hpx]
        show (w.get? x).map _ = _
        rw [hx, Option.map_some]
      · simp only [if_neg hxc, Option.map_some, stays hpx]
        exact hx

/-- Taking a node out of its place lengthens no chain of parents. -/
theorem ancestors_unlink_subset (h : w.wiring.Linked) {c x : NodeId} {n : Node}
    (hx : w.get? x = some n) : (w.unlink c).ancestors x ⊆ w.ancestors x := by
  have key {x : NodeId} {as bs : List NodeId} (ha : Chain w.wiring x as)
      (hb : Chain (w.unlink c).wiring x bs) : bs ⊆ as := by
    induction ha generalizing bs with
    | @top x l hx hn =>
      cases hb with
      | top _ _ => exact List.nil_subset _
      | up hx' hn' _ =>
        rw [wiring_unlink] at hx'
        obtain ⟨k, hk, hp, -⟩ := cut_eq_some hx'
        rw [hx, Option.some.injEq] at hk
        subst hk
        rw [hn', hn] at hp
        simp at hp
    | @up x p l as hx hn _ ih =>
      cases hb with
      | top _ _ => exact List.nil_subset _
      | up hx' hn' hc =>
        rw [wiring_unlink] at hx'
        obtain ⟨k, hk, hp, -⟩ := cut_eq_some hx'
        rw [hx, Option.some.injEq] at hk
        subst hk
        rw [hn', hn] at hp
        split at hp
        · cases hp
        · cases hp
          exact List.cons_subset_cons _ (ih hc)
  have hx' : (w.unlink c).get? x = some { dropFromNode c n with
      parent := if x = c then none else n.parent } := by
    rw [get?_unlink h, hx, Option.map_some]
  exact key (chain_ancestors h hx) (chain_ancestors (linked_unlink h c) hx')

end Walks

end Workspace

end BlockText

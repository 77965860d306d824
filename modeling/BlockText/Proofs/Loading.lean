import BlockText.Document
import BlockText.Proofs.Forest
import Mathlib.Data.List.Count

/-!
# Loading a document

A document is accepted when its slots and parent links agree, its roots are there and owned by none,
and the owned nodes and the roots are together as many as the nodes. The count alone does not make a
forest of it: a root that is listed twice makes up for a node that is owned by none, and nodes that
own one another in a circle are owned without being below a root. An accepted document is a forest
exactly if it repeats no root and none of its chains of parents is a circle.
-/

namespace BlockText

open Wiring

namespace Document

/-! ## What the checks establish -/

variable {nodes : SortedMap NodeId Node}

theorem collect_ok {ns : List Node} {before : SortedMap NodeId Node}
    (h : collect ns before = .ok nodes) :
    (∀ x n, nodes.get? x = some n ↔ before.get? x = some n ∨ n ∈ ns ∧ n.id = x) ∧
      ∀ n ∈ ns, before.get? n.id = none := by
  induction ns generalizing before with
  | nil =>
    cases h
    simp
  | cons m ns ih =>
    unfold collect at h
    split at h
    · cases h
    · next hm =>
      have hm : before.get? m.id = none := by
        simpa [SortedMap.contains] using hm
      obtain ⟨hget, hfresh⟩ := ih h
      have hne : ∀ n ∈ ns, n.id ≠ m.id := by
        intro n hn he
        have := hfresh n hn
        rw [SortedMap.get?_insert, if_pos he] at this
        cases this
      refine ⟨fun x n => ?_, fun n hn => ?_⟩
      · rw [hget, SortedMap.get?_insert]
        by_cases hx : x = m.id
        · subst hx
          rw [if_pos rfl, hm]
          constructor
          · rintro (he | ⟨hn, he⟩)
            · cases he
              exact .inr ⟨List.mem_cons_self, rfl⟩
            · exact absurd he (hne n hn)
          · rintro (he | ⟨hn, he⟩)
            · cases he
            · rcases List.mem_cons.mp hn with rfl | hn
              · exact .inl rfl
              · exact absurd he (hne n hn)
        · rw [if_neg hx]
          constructor
          · rintro (hb | ⟨hn, he⟩)
            · exact .inl hb
            · exact .inr ⟨List.mem_cons_of_mem _ hn, he⟩
          · rintro (hb | ⟨hn, he⟩)
            · exact .inl hb
            · rcases List.mem_cons.mp hn with rfl | hn
              · exact absurd he.symm hx
              · exact .inr ⟨hn, he⟩
      · rcases List.mem_cons.mp hn with rfl | hn
        · exact hm
        · have := hfresh n hn
          rw [SortedMap.get?_insert, if_neg (hne n hn)] at this
          exact this

theorem checkOwned_ok {owner : NodeId} {children owned result : List NodeId}
    (h : checkOwned nodes owner children owned = .ok result) :
    result = children.reverse ++ owned ∧ (owned.Nodup → result.Nodup) ∧
      ∀ c ∈ children, ∃ n, nodes.get? c = some n ∧ n.parent = some owner := by
  induction children generalizing owned with
  | nil =>
    cases h
    exact ⟨rfl, id, nofun⟩
  | cons c children ih =>
    unfold checkOwned at h
    split at h
    · cases h
    · next n hn =>
      split at h
      · next hc =>
        obtain ⟨rfl, hnd, hall⟩ := ih h
        refine ⟨by simp, fun ho => hnd (List.nodup_cons.mpr ⟨hc.2, ho⟩), fun d hd => ?_⟩
        rcases List.mem_cons.mp hd with rfl | hd
        · exact ⟨n, hn, hc.1⟩
        · exact hall d hd
      · cases h

theorem checkNodes_ok {ns : List Node} {owned result : List NodeId}
    (h : checkNodes nodes ns owned = .ok result) :
    result.Perm (ns.flatMap Node.owned ++ owned) ∧ (owned.Nodup → result.Nodup) ∧
      ∀ m ∈ ns, ∀ c ∈ m.owned, ∃ n, nodes.get? c = some n ∧ n.parent = some m.id := by
  induction ns generalizing owned with
  | nil =>
    cases h
    exact ⟨.refl _, id, nofun⟩
  | cons m ns ih =>
    unfold checkNodes at h
    split at h
    · next owned' ho =>
      obtain ⟨rfl, hnd, hall⟩ := checkOwned_ok ho
      obtain ⟨hp, hnd', hall'⟩ := ih h
      refine ⟨?_, fun hn => hnd' (hnd hn), fun k hk => ?_⟩
      · calc result.Perm (ns.flatMap Node.owned ++ (m.owned.reverse ++ owned)) := hp
          _ |>.Perm (m.owned.reverse ++ (ns.flatMap Node.owned ++ owned)) :=
            List.perm_append_comm_assoc _ _ _
          _ |>.Perm (m.owned ++ (ns.flatMap Node.owned ++ owned)) :=
            (List.reverse_perm _).append_right _
          _ |>.Perm ((m :: ns).flatMap Node.owned ++ owned) := by
            rw [List.flatMap_cons, List.append_assoc]
      · rcases List.mem_cons.mp hk with rfl | hk
        · exact hall
        · exact hall' k hk
    · cases h

theorem checkRoots_ok {owned roots : List NodeId} (h : checkRoots nodes owned roots = .ok ()) :
    ∀ x ∈ roots, x ∉ owned ∧ ∃ n, nodes.get? x = some n ∧ n.parent = none := by
  induction roots with
  | nil => exact nofun
  | cons root roots ih =>
    unfold checkRoots at h
    split at h
    · cases h
    · next n hn =>
      split at h
      · next hc =>
        intro x hx
        rcases List.mem_cons.mp hx with rfl | hx
        · exact ⟨hc.2, n, hn, hc.1⟩
        · exact ih h x hx
      · cases h

/-- What an accepted document is known to be: every node is stored under its id, what stands in a
slot names its owner, no node is owned twice, the roots name no parent and are owned by none, and
owned nodes and roots are together as many as the nodes. -/
structure Accepted (d : Document) (w : Workspace) (owned : List NodeId) : Prop where
  roots_eq : w.roots = d.roots
  get?_iff : ∀ x n, w.get? x = some n ↔ n ∈ d.nodes ∧ n.id = x
  owned_nodup : owned.Nodup
  owned_perm : owned.Perm (w.nodes.values.flatMap Node.owned)
  parent_of_owned : ∀ {p n c}, w.get? p = some n → c ∈ n.owned → w.parent? c = some p
  root_top : ∀ x ∈ w.roots, x ∉ owned ∧ w.wiring.Top x
  count : owned.length + w.roots.length = w.size

variable {d : Document} {w : Workspace}

theorem toWorkspace_ok (h : d.toWorkspace = .ok w) : ∃ owned, Accepted d w owned := by
  unfold toWorkspace at h
  obtain ⟨nodes, hnodes, h⟩ := bind_ok h
  obtain ⟨owned, howned, h⟩ := bind_ok h
  obtain ⟨_, hroots, h⟩ := bind_ok h
  split at h
  · next hcount =>
    cases h
    obtain ⟨hget, -⟩ := collect_ok hnodes
    obtain ⟨hperm, hnd, hparent⟩ := checkNodes_ok howned
    simp only [SortedMap.get?_empty, reduceCtorEq, false_or] at hget
    rw [List.append_nil] at hperm
    refine ⟨owned, rfl, hget, hnd .nil, hperm, ?_, ?_, hcount⟩
    · intro p n c hp hc
      obtain ⟨m, hm, hmp⟩ := hparent n (SortedMap.mem_values.mpr ⟨p, hp⟩) c hc
      rw [((hget p n).mp hp).2] at hmp
      show (nodes.get? c).bind (·.parent) = some p
      rw [hm, Option.bind_some, hmp]
    · intro x hx
      obtain ⟨hxo, n, hn, hnp⟩ := checkRoots_ok hroots x hx
      exact ⟨hxo, Workspace.top_wiring.mpr ⟨n, hn, hnp⟩⟩
  · cases h

namespace Accepted

variable {owned : List NodeId}

theorem mem_owned (h : Accepted d w owned) {c : NodeId} :
    c ∈ owned ↔ ∃ p n, w.get? p = some n ∧ c ∈ n.owned := by
  rw [h.owned_perm.mem_iff, List.mem_flatMap]
  constructor
  · rintro ⟨n, hn, hc⟩
    obtain ⟨p, hp⟩ := SortedMap.mem_values.mp hn
    exact ⟨p, n, hp, hc⟩
  · rintro ⟨p, n, hp, hc⟩
    exact ⟨n, SortedMap.mem_values.mpr ⟨p, hp⟩, hc⟩

/-- If no root is repeated, the count leaves no node over. -/
theorem owned_or_root (h : Accepted d w owned) (hr : w.roots.Nodup) {x : NodeId} {n : Node}
    (hx : w.get? x = some n) : x ∈ owned ∨ x ∈ w.roots := by
  have hnd : (owned ++ w.roots).Nodup :=
    List.nodup_append'.mpr ⟨h.owned_nodup, hr, fun x ho hr => (h.root_top x hr).1 ho⟩
  have hsub : owned ++ w.roots ⊆ w.nodes.keys := by
    intro x hx
    rw [Workspace.mem_keys]
    rcases List.mem_append.mp hx with ho | hr
    · obtain ⟨p, m, hp, hc⟩ := h.mem_owned.mp ho
      obtain ⟨n, hn, -⟩ := Option.bind_eq_some_iff.mp (h.parent_of_owned hp hc)
      exact ⟨n, hn⟩
    · obtain ⟨n, hn, -⟩ := Workspace.top_wiring.mp (h.root_top x hr).2
      exact ⟨n, hn⟩
  have hlen : w.nodes.keys.length ≤ (owned ++ w.roots).length := by
    rw [List.length_append, h.count]
    simp [SortedMap.keys, Workspace.size, SortedMap.size]
  have hperm := (hnd.subperm hsub).perm_of_length_le hlen
  exact List.mem_append.mp (hperm.mem_iff.mpr (Workspace.mem_keys.mpr ⟨n, hx⟩))

/-- An accepted document without a repeated root and without a circle is a forest. -/
theorem forest (h : Accepted d w owned) (hr : w.roots.Nodup)
    (hc : ∀ x n, w.get? x = some n → ∃ as, Chain w.wiring x as) : Forest w := by
  refine ⟨⟨?_, ?_, ?_, ?_⟩, hr, ?_, nofun⟩
  · intro p l hp
    obtain ⟨n, hn, rfl⟩ := Workspace.get?_of_wiring hp
    exact (List.nodup_flatMap.mp (h.owned_perm.nodup_iff.mp h.owned_nodup)).1 n
      (SortedMap.mem_values.mpr ⟨p, hn⟩)
  · intro p l c hp hcl
    obtain ⟨n, hn, rfl⟩ := Workspace.get?_of_wiring hp
    rw [Workspace.parent?_wiring]
    exact h.parent_of_owned hn hcl
  · intro c p hp
    rw [Workspace.parent?_wiring] at hp
    obtain ⟨m, hm, hmp⟩ := Option.bind_eq_some_iff.mp hp
    rcases h.owned_or_root hr hm with ho | ht
    · obtain ⟨q, n, hq, hcq⟩ := h.mem_owned.mp ho
      obtain rfl : q = p := Option.some.inj ((h.parent_of_owned hq hcq).symm.trans hp)
      exact ⟨n.link, Workspace.wiring_of_get? hq, hcq⟩
    · obtain ⟨n, hn, hnp⟩ := Workspace.top_wiring.mp (h.root_top c ht).2
      rw [hm, Option.some.injEq] at hn
      rw [hn, hnp] at hmp
      cases hmp
  · intro x l hx
    obtain ⟨n, hn, -⟩ := Workspace.get?_of_wiring hx
    exact hc x n hn
  · intro x
    rw [List.mem_nil_iff, or_false]
    constructor
    · intro ht
      obtain ⟨n, hn, hnp⟩ := Workspace.top_wiring.mp ht
      rcases h.owned_or_root hr hn with ho | hx
      · obtain ⟨q, m, hq, hxq⟩ := h.mem_owned.mp ho
        have := h.parent_of_owned hq hxq
        simp [Workspace.parent?, hn, hnp] at this
      · exact hx
    · intro hx
      exact (h.root_top x hx).2

/-- What the walk down from a node meets hangs on a chain that ends, if the node does. -/
theorem chain_of_mem_descendantsUpTo (h : Accepted d w owned) {bound : Nat} {x y : NodeId}
    {as : List NodeId} (hy : Chain w.wiring y as) (hx : x ∈ w.descendantsUpTo bound y) :
    ∃ bs, Chain w.wiring x bs := by
  induction bound generalizing y as with
  | zero => cases hx
  | succ bound ih =>
    unfold Workspace.descendantsUpTo at hx
    split at hx
    · cases hx
    · next n hn =>
      rcases List.mem_cons.mp hx with rfl | hx
      · exact ⟨as, hy⟩
      · obtain ⟨c, hc, hx⟩ := List.mem_flatMap.mp hx
        have hp := h.parent_of_owned hn hc
        rw [← Workspace.parent?_wiring] at hp
        obtain ⟨l, hl, hlp⟩ := parent?_eq_some.mp hp
        exact ih (.up hl hlp hy) hx

end Accepted

/-- An accepted document is a forest exactly if it repeats no root and no chain of parents in it is
a circle; and exactly then the walk from its roots meets each of its nodes once. -/
theorem toWorkspace_reached_once_iff (h : d.toWorkspace = .ok w) :
    ((d.roots.Nodup ∧ ∀ n ∈ d.nodes, (d.roots.flatMap w.descendants).count n.id = 1) ↔
      d.roots.Nodup ∧ ∀ n ∈ d.nodes, ∃ as, Chain w.wiring n.id as) ∧
    (Forest w ↔ d.roots.Nodup ∧ ∀ n ∈ d.nodes, ∃ as, Chain w.wiring n.id as) := by
  obtain ⟨owned, ha⟩ := toWorkspace_ok h
  have hget : ∀ n ∈ d.nodes, w.get? n.id = some n := fun n hn => (ha.get?_iff _ _).mpr ⟨hn, rfl⟩
  have forest_of (hr : d.roots.Nodup) (hc : ∀ n ∈ d.nodes, ∃ as, Chain w.wiring n.id as) :
      Forest w := by
    refine ha.forest (ha.roots_eq ▸ hr) fun x n hx => ?_
    obtain ⟨hn, rfl⟩ := (ha.get?_iff x n).mp hx
    exact hc n hn
  refine ⟨⟨?_, ?_⟩, ⟨?_, ?_⟩⟩
  · rintro ⟨hr, hwalk⟩
    refine ⟨hr, fun n hn => ?_⟩
    have hmem : n.id ∈ d.roots.flatMap w.descendants :=
      List.count_pos_iff.mp (by rw [hwalk n hn]; omega)
    obtain ⟨y, hy, hd⟩ := List.mem_flatMap.mp hmem
    obtain ⟨l, hl, hp⟩ := (ha.root_top y (ha.roots_eq ▸ hy)).2
    exact ha.chain_of_mem_descendantsUpTo (.top hl hp) hd
  · rintro ⟨hr, hc⟩
    refine ⟨hr, fun n hn => ?_⟩
    rw [← ha.roots_eq]
    exact (forest_of hr hc).count_walk (hget n hn)
  · intro hf
    refine ⟨ha.roots_eq ▸ hf.roots_nodup, fun n hn => ?_⟩
    exact hf.linked.chain (Workspace.wiring_of_get? (hget n hn))
  · rintro ⟨hr, hc⟩
    exact forest_of hr hc

/-- A block with a default is accepted and is a forest: both of its nodes are met once. -/
theorem toWorkspace_block_with_default :
    ∃ d w, toWorkspace d = .ok w ∧ Forest w ∧ d.nodes.length = 2 ∧
      ∀ n ∈ d.nodes, (d.roots.flatMap w.descendants).count n.id = 1 := by
  let block : Node :=
    ⟨0, .showNumber, .empty, [⟨"NUM", .value none (some 1)⟩], none, false, none, none⟩
  let default : Node := ⟨1, .mathNumber, .empty, [], some 0, true, none, none⟩
  let w : Workspace := ⟨SortedMap.ofList [(0, block), (1, default)], [0], 2⟩
  have h : toWorkspace ⟨[0], [block, default]⟩ = .ok w := rfl
  obtain ⟨hwalk, hforest⟩ := toWorkspace_reached_once_iff h
  have hc : [0].Nodup ∧ ∀ n ∈ [block, default], ∃ as, Chain w.wiring n.id as := by
    refine ⟨by decide, fun n hn => ?_⟩
    rcases List.mem_pair.mp hn with rfl | rfl
    · exact ⟨[], .top rfl rfl⟩
    · exact ⟨[0], .up rfl rfl (.top rfl rfl)⟩
  exact ⟨_, _, h, hforest.mpr hc, rfl, (hwalk.mpr hc).2⟩

/-- Both conditions are needed. A root that is listed twice makes up for a node that no slot and no
root names: the walk meets one node twice and the other never. A node in a slot of its own is owned
once: the walk does not meet it. -/
theorem toWorkspace_repeated_root_or_circle :
    (∃ d w, toWorkspace d = .ok w ∧ ¬ d.roots.Nodup ∧
      d.nodes.map (fun n => (d.roots.flatMap w.descendants).count n.id) = [2, 0]) ∧
    ∃ d w, toWorkspace d = .ok w ∧ d.roots.Nodup ∧
      d.nodes.map (fun n => (d.roots.flatMap w.descendants).count n.id) = [0] := by
  let loose (id : NodeId) : Node := ⟨id, .clearScreen, .empty, [], none, false, none, none⟩
  let circle : Node :=
    ⟨0, .repeatTimes, .empty, [⟨"DO", .statements [0]⟩], some 0, false, none, none⟩
  exact ⟨⟨⟨[0, 0], [loose 0, loose 1]⟩,
      ⟨SortedMap.ofList [(0, loose 0), (1, loose 1)], [0, 0], 2⟩, rfl, by decide, rfl⟩,
    ⟨⟨[], [circle]⟩, ⟨SortedMap.ofList [(0, circle)], [], 1⟩, rfl, by decide, rfl⟩⟩

end Document

end BlockText

import BlockText.Proofs.Links

/-!
# Forests

A workspace is a forest when its wiring is linked and its roots are exactly the nodes that name no
parent, each listed once. An edit takes a node out of its place and puts it into another one, so in
between there are loose nodes, which name no parent and are no roots either. Every step of an edit
keeps a forest up to its loose nodes.
-/

namespace BlockText

open Wiring

/-- A forest, apart from some loose nodes: slots and parent links agree, every chain of parents
ends, the roots are distinct, and the nodes that name no parent are the roots and the loose ones. -/
structure Forest (w : Workspace) (loose : List NodeId := []) : Prop where
  linked : w.wiring.Linked
  roots_nodup : w.roots.Nodup
  top_iff : ∀ x, w.wiring.Top x ↔ x ∈ w.roots ∨ x ∈ loose
  apart : ∀ x ∈ loose, x ∉ w.roots

namespace Forest

variable {w v : Workspace} {loose : List NodeId} {c p : NodeId}

theorem empty : Forest {} where
  linked := ⟨nofun, nofun, nofun, nofun⟩
  roots_nodup := .nil
  top_iff := by
    intro x
    constructor
    · rintro ⟨l, hl, -⟩
      cases hl
    · rintro (hx | hx) <;> cases hx
  apart := nofun

theorem mem_roots (h : Forest w) (x : NodeId) : x ∈ w.roots ↔ w.wiring.Top x := by
  rw [h.top_iff]
  simp

theorem root_there (h : Forest w loose) {x : NodeId} (hx : x ∈ w.roots) :
    ∃ n, w.get? x = some n ∧ n.parent = none :=
  Workspace.top_wiring.mp ((h.top_iff x).mpr (.inl hx))

theorem loose_there (h : Forest w loose) {x : NodeId} (hx : x ∈ loose) :
    ∃ n, w.get? x = some n ∧ n.parent = none :=
  Workspace.top_wiring.mp ((h.top_iff x).mpr (.inr hx))

theorem parent?_of_loose (h : Forest w loose) {x : NodeId} (hx : x ∈ loose) :
    w.parent? x = none := by
  obtain ⟨n, hn, hp⟩ := h.loose_there hx
  simp [Workspace.parent?, hn, hp]

/-- No node is both a root and owned by a slot. -/
theorem not_owned_of_root (h : Forest w loose) {x : NodeId} {n : Node} (hx : x ∈ w.roots)
    (hp : w.get? p = some n) : x ∉ n.owned := by
  obtain ⟨l, hl, hn⟩ := (h.top_iff x).mpr (.inl hx)
  exact h.linked.not_owned hl hn (Workspace.wiring_of_get? hp)

theorem not_root_of_parent (h : Forest w loose) (hp : w.parent? c = some p) : c ∉ w.roots := by
  intro hc
  obtain ⟨n, hn, hnp⟩ := h.root_there hc
  simp [Workspace.parent?, hn, hnp] at hp

/-- Changes that keep the links and the roots keep a forest. -/
theorem congr (h : Forest w loose) (hw : v.wiring = w.wiring) (hr : v.roots = w.roots) :
    Forest v loose where
  linked := hw ▸ h.linked
  roots_nodup := hr ▸ h.roots_nodup
  top_iff := by
    intro x
    rw [hw, hr]
    exact h.top_iff x
  apart := hr ▸ h.apart

theorem loose_congr (h : Forest w loose) {l : List NodeId} (hl : ∀ x, x ∈ l ↔ x ∈ loose) :
    Forest w l where
  linked := h.linked
  roots_nodup := h.roots_nodup
  top_iff := by
    intro x
    rw [hl]
    exact h.top_iff x
  apart := by
    intro x hx
    exact h.apart x ((hl x).mp hx)

theorem update (h : Forest w loose) {f : Node → Node} (hf : ∀ n, (f n).link = n.link)
    (id : NodeId) : Forest (w.update id f) loose :=
  h.congr (Workspace.wiring_update_of_link hf id) rfl

/-! ## Taking a node out of its place -/

/-- Taking a node out of its place takes it out of the roots. -/
theorem roots_unlink (h : Forest w loose) (c : NodeId) :
    (w.unlink c).roots = w.roots.filter (· ≠ c) := by
  unfold Workspace.unlink
  split
  · next p hp =>
    have hc : c ∉ w.roots := h.not_root_of_parent hp
    simp only [Workspace.roots_update]
    symm
    rw [List.filter_eq_self]
    intro x hx
    have : x ≠ c := by
      rintro rfl
      exact hc hx
    simpa using this
  · rfl

theorem unlink (h : Forest w loose) {n : Node} (hc : w.get? c = some n) (hcl : c ∉ loose) :
    Forest (w.unlink c) (c :: loose) where
  linked := Workspace.linked_unlink h.linked c
  roots_nodup := by
    rw [h.roots_unlink]
    exact h.roots_nodup.filter _
  top_iff := by
    intro x
    rw [Workspace.wiring_unlink, top_cut (Workspace.wiring_of_get? hc), h.top_iff, h.roots_unlink]
    by_cases hx : x = c <;> simp [hx]
  apart := by
    intro x hx
    rw [h.roots_unlink, List.mem_filter]
    rintro ⟨hr, hne⟩
    rcases List.mem_cons.mp hx with rfl | hx
    · simp at hne
    · exact h.apart x hx hr

/-! ## Putting a loose node into its place -/

/-- A loose node becomes the last root. -/
theorem addRoot (h : Forest w (c :: loose)) (hcl : c ∉ loose) :
    Forest { w with roots := w.roots ++ [c] } loose where
  linked := h.linked
  roots_nodup := by
    have hc : c ∉ w.roots := h.apart c List.mem_cons_self
    exact List.nodup_append'.mpr ⟨h.roots_nodup, List.nodup_singleton c, by simpa using hc⟩
  top_iff := by
    intro x
    have := h.top_iff x
    show w.wiring.Top x ↔ x ∈ w.roots ++ [c] ∨ x ∈ loose
    rw [this]
    simp only [List.mem_cons, List.mem_append, List.not_mem_nil, or_false]
    tauto
  apart := by
    intro x hx
    show x ∉ w.roots ++ [c]
    have hne : x ≠ c := by
      rintro rfl
      exact hcl hx
    simpa [hne] using h.apart x (List.mem_cons_of_mem _ hx)

/-- A loose node is hung into a slot of a node that is not below it. -/
theorem place (h : Forest w (c :: loose)) (hcl : c ∉ loose) {n : Node} {input : String}
    {f : Slot → Slot} {s : Slot} (hp : w.get? p = some n) (hs : n.slot? input = some s)
    (hf : (f s).owned.Perm (c :: s.owned)) (hpc : c ≠ p) (hca : c ∉ w.ancestors p)
    {g : Node → Node} (hg : ∀ m, (g m).link = { m.link with parent := some p }) :
    Forest ((w.update p fun n => n.withSlot input f).update c g) loose := by
  obtain ⟨m, hm, hmp⟩ := h.loose_there List.mem_cons_self
  have hw : ((w.update p fun n => n.withSlot input f).update c g).wiring =
      w.wiring.hang p c (n.withSlot input f).owned := Workspace.wiring_place hpc hp g hg
  refine ⟨?_, h.roots_nodup, ?_, ?_⟩
  · rw [hw]
    exact h.linked.hang (Workspace.wiring_of_get? hp) (Workspace.wiring_of_get? hm) hmp hpc
      (Workspace.chain_ancestors h.linked hp) hca (Node.owned_withSlot_cons hs hf)
  · intro x
    rw [hw, top_hang (Workspace.wiring_of_get? hm), h.top_iff]
    have hr : c ∉ w.roots := h.apart c List.mem_cons_self
    simp only [List.mem_cons, Workspace.roots_update]
    by_cases hx : x = c
    · subst hx
      simp [hr, hcl]
    · simp [hx]
  · intro x hx
    exact h.apart x (List.mem_cons_of_mem _ hx)

theorem setChild (h : Forest w (c :: loose)) (hcl : c ∉ loose) {n : Node} {input : String}
    {shadow : Option NodeId} (hp : w.get? p = some n)
    (hs : n.slot? input = some (.value none shadow)) (hpc : c ≠ p) (hca : c ∉ w.ancestors p) :
    Forest (w.setChild p input c) loose :=
  h.place hcl hp hs (by simp [Workspace.childInSlot, Slot.owned]) hpc hca fun _ => rfl

theorem setStatement (h : Forest w (c :: loose)) (hcl : c ∉ loose) {n : Node} {input : String}
    {children : List NodeId} (hp : w.get? p = some n)
    (hs : n.slot? input = some (.statements children)) (hpc : c ≠ p) (hca : c ∉ w.ancestors p)
    (place : Nat) : Forest (w.setStatement p input place c) loose := by
  refine h.place hcl hp hs ?_ hpc hca fun _ => rfl
  exact List.perm_insertIdx c children (Nat.min_le_right _ _)

/-! ## Removing a loose node -/

/-- Below a loose node there is no other node without a parent. -/
theorem eq_of_mem_descendants (h : Forest w loose) {x : NodeId} (hx : x ∈ w.descendants c)
    (ht : w.wiring.Top x) : x = c := by
  obtain ⟨n, hn, hp⟩ := Workspace.top_wiring.mp ht
  rcases ((Workspace.mem_descendants h.linked).mp hx).2 with rfl | hc
  · rfl
  · rw [Workspace.ancestors_of_top (by simp [Workspace.parent?, hn, hp])] at hc
    cases hc

/-- Removing a loose node with all below it leaves the roots. -/
theorem roots_remove (h : Forest w (c :: loose)) : (w.remove (w.descendants c)).roots = w.roots := by
  rw [Workspace.roots_remove, List.filter_eq_self]
  intro x hx
  have : x ∉ w.descendants c := by
    intro hd
    have := h.eq_of_mem_descendants hd ((h.top_iff x).mpr (.inl hx))
    subst this
    exact h.apart x List.mem_cons_self hx
  simpa using this

theorem remove (h : Forest w (c :: loose)) (hcl : c ∉ loose) :
    Forest (w.remove (w.descendants c)) loose := by
  have hroots := h.roots_remove
  refine ⟨?_, ?_, ?_, ?_⟩
  · exact Workspace.linked_remove h.linked (h.parent?_of_loose List.mem_cons_self)
  · rw [hroots]
    exact h.roots_nodup
  · intro x
    rw [Workspace.wiring_remove, top_prune, hroots]
    constructor
    · rintro ⟨ht, hd⟩
      rcases (h.top_iff x).mp ht with hx | hx
      · exact .inl hx
      · rcases List.mem_cons.mp hx with rfl | hx
        · obtain ⟨n, hn, -⟩ := h.loose_there (x := x) List.mem_cons_self
          exact absurd ((Workspace.mem_descendants h.linked).mpr ⟨⟨n, hn⟩, .inl rfl⟩) hd
        · exact .inr hx
    · intro hx
      have ht : w.wiring.Top x := (h.top_iff x).mpr (hx.imp_right (List.mem_cons_of_mem _))
      refine ⟨ht, fun hd => ?_⟩
      have := h.eq_of_mem_descendants hd ht
      subst this
      rcases hx with hx | hx
      · exact h.apart x List.mem_cons_self hx
      · exact hcl hx
  · intro x hx
    rw [hroots]
    exact h.apart x (List.mem_cons_of_mem _ hx)

/-! ## Fresh nodes -/

/-- A fresh node without children is one more loose node. -/
theorem put (h : Forest w loose) {n : Node} (hn : w.get? n.id = none)
    (hl : n.link = ⟨none, []⟩) : Forest (w.put n) (n.id :: loose) := by
  have hfresh : w.wiring n.id = none := by simp [Workspace.wiring, hn]
  have hw : (w.put n).wiring = w.wiring.plant n.id := by
    funext x
    by_cases hx : x = n.id
    · simp [Workspace.wiring, Workspace.get?_put, plant, hx, hl]
    · simp [Workspace.wiring, Workspace.get?_put, plant, hx]
  refine ⟨hw ▸ h.linked.plant hfresh, h.roots_nodup, fun x => ?_, fun x hx hr => ?_⟩
  · rw [hw, top_plant, h.top_iff, List.mem_cons]
    exact or_assoc.trans (or_congr_right or_comm)
  · rcases List.mem_cons.mp hx with rfl | hx
    · obtain ⟨m, hm, -⟩ := h.root_there hr
      rw [hn] at hm
      cases hm
    · exact h.apart x hx hr

/-! ## The walk from the roots -/

/-- A node is below exactly one root. -/
theorem mem_descendants_root (h : Forest w) {x y : NodeId} {n : Node} (hx : w.get? x = some n) :
    y ∈ w.roots ∧ x ∈ w.descendants y ↔ w.rootOf x = y := by
  rw [Workspace.rootOf, ← (Workspace.chain_ancestors h.linked hx).mem_top_iff,
    Workspace.mem_descendants h.linked, List.mem_cons, h.mem_roots]
  constructor
  · rintro ⟨ht, -, hy⟩
    exact ⟨hy, ht⟩
  · rintro ⟨hy, ht⟩
    exact ⟨ht, ⟨n, hx⟩, hy⟩

/-- The walk from the roots meets no node twice. -/
theorem nodup_walk (h : Forest w) : (w.roots.flatMap w.descendants).Nodup := by
  refine List.nodup_flatMap.mpr ⟨fun y _ => Workspace.nodup_descendantsUpTo h.linked _ y, ?_⟩
  refine h.roots_nodup.imp_of_mem fun {y z} hy hz hne x hxy hxz => hne ?_
  obtain ⟨⟨m, hm⟩, -⟩ := (Workspace.mem_descendants h.linked).mp hxy
  exact ((h.mem_descendants_root hm).mp ⟨hy, hxy⟩).symm.trans
    ((h.mem_descendants_root hm).mp ⟨hz, hxz⟩)

/-- The walk from the roots meets every node. -/
theorem mem_walk (h : Forest w) {x : NodeId} :
    x ∈ w.roots.flatMap w.descendants ↔ ∃ n, w.get? x = some n := by
  rw [List.mem_flatMap]
  constructor
  · rintro ⟨y, -, hx⟩
    exact ((Workspace.mem_descendants h.linked).mp hx).1
  · rintro ⟨n, hn⟩
    exact ⟨w.rootOf x, (h.mem_descendants_root hn).mpr rfl⟩

/-- In a forest the walk from the roots meets every node exactly once. -/
theorem count_walk (h : Forest w) {x : NodeId} {n : Node} (hx : w.get? x = some n) :
    (w.roots.flatMap w.descendants).count x = 1 :=
  List.count_eq_one_of_mem h.nodup_walk (h.mem_walk.mpr ⟨n, hx⟩)

end Forest

end BlockText

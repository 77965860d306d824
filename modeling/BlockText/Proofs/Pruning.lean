import BlockText.Proofs.Idle
import Mathlib.Data.List.Basic

/-!
# Trees that are pruned

The rules delete the superfluous roots one after the other, and each deletion walks through what is
left. The trees of a forest do not touch one another, so the walk finds what it would have found
before any deletion. Hence all that goes can be said of the workspace as it was: the trees of the
superfluous roots, and nothing else.
-/

namespace BlockText

open Workspace Wiring

variable {w v : Workspace} {x y : NodeId} {tops : List NodeId} {kind : Kind}

namespace Workspace

/-! ## Walks down -/

/-- A walk down reads nothing but who owns whom. -/
theorem descendantsUpTo_congr_owned {P : NodeId → Prop}
    (hsame : ∀ x, P x → (v.get? x).map Node.owned = (w.get? x).map Node.owned)
    (hdown : ∀ x n c, P x → w.get? x = some n → c ∈ n.owned → P c) (bound : Nat) (hy : P y) :
    v.descendantsUpTo bound y = w.descendantsUpTo bound y := by
  induction bound generalizing y with
  | zero => rfl
  | succ bound ih =>
    have howned := hsame y hy
    cases hn : w.get? y with
    | none =>
      rw [hn, Option.map_none, Option.map_eq_none_iff] at howned
      simp only [descendantsUpTo, howned, hn]
    | some n =>
      rw [hn, Option.map_some, Option.map_eq_some_iff] at howned
      obtain ⟨m, hm, hmn⟩ := howned
      simp only [descendantsUpTo, hm, hn, hmn]
      apply congrArg (y :: ·)
      exact List.flatMap_congr fun c hc => ih (hdown y n c hy hn hc)

/-- A walk down meets the same nodes in two workspaces that agree on what it may meet. -/
theorem descendantsUpTo_congr {P : NodeId → Prop} (hsame : ∀ x, P x → v.get? x = w.get? x)
    (hdown : ∀ x n c, P x → w.get? x = some n → c ∈ n.owned → P c) (bound : Nat) (hy : P y) :
    v.descendantsUpTo bound y = w.descendantsUpTo bound y :=
  descendantsUpTo_congr_owned (fun x hx => by rw [hsame x hx]) hdown bound hy

theorem descendants_withRoots (w : Workspace) (roots : List NodeId) (x : NodeId) :
    ({ w with roots := roots } : Workspace).descendants x = w.descendants x :=
  descendantsUpTo_congr (v := { w with roots := roots }) (w := w) (P := fun _ => True)
    (fun _ _ => rfl) (fun _ _ _ _ _ _ => trivial) (w.size + 1) trivial

/-- No walk down goes deeper than there are nodes, so its bound does not matter. -/
theorem descendantsUpTo_of_size_le (h : w.wiring.Linked) {as : List NodeId}
    (hy : Chain w.wiring y as) {bound bound' : Nat} (hb : w.size ≤ bound + as.length)
    (hb' : w.size ≤ bound' + as.length) :
    w.descendantsUpTo bound y = w.descendantsUpTo bound' y := by
  -- the chain of parents grows by one with each step down
  induction bound generalizing y as bound' with
  | zero =>
    have hlt := Chain.length_lt hy
    omega
  | succ bound ih =>
    cases bound' with
    | zero =>
      have hlt := Chain.length_lt hy
      omega
    | succ bound' =>
      obtain ⟨l, hl⟩ := hy.there
      obtain ⟨n, hn, rfl⟩ := get?_of_wiring hl
      simp only [descendantsUpTo, hn]
      apply congrArg (y :: ·)
      refine List.flatMap_congr fun c hc => ?_
      obtain ⟨k, hk, hparent⟩ := h.owned_there hl hc
      apply ih (.up hk hparent hy)
      · rw [List.length_cons]
        omega
      · rw [List.length_cons]
        omega

theorem descendants_eq_upTo (h : w.wiring.Linked) {n : Node} (hy : w.get? y = some n) {bound : Nat}
    (hb : w.size ≤ bound) : w.descendants y = w.descendantsUpTo bound y :=
  descendantsUpTo_of_size_le h (chain_ancestors h hy) (by omega) (by omega)

/-! ## Trees -/

/-- The nodes of the trees below some roots. -/
def trees (w : Workspace) (tops : List NodeId) : List NodeId := tops.flatMap w.descendants

theorem trees_append (w : Workspace) (xs ys : List NodeId) :
    w.trees (xs ++ ys) = w.trees xs ++ w.trees ys := List.flatMap_append

theorem remove_remove (w : Workspace) (xs ys : List NodeId) :
    (w.remove xs).remove ys = w.remove (xs ++ ys) := by
  refine eq_of_get? (fun x => ?_) ?_ rfl
  · rw [get?_remove, get?_remove, get?_remove]
    by_cases hx : x ∈ xs <;> by_cases hy : x ∈ ys <;> simp [hx, hy]
  · rw [roots_remove, roots_remove, roots_remove, List.filter_filter]
    refine List.filter_congr fun x _ => ?_
    rw [List.contains_eq_mem, List.contains_eq_mem, List.contains_eq_mem]
    by_cases hx : x ∈ xs <;> by_cases hy : x ∈ ys <;> simp [hx, hy]

/-- Taking a root out of its place takes it out of the roots and changes no node. -/
theorem unlink_root {n : Node} (hx : w.get? x = some n) (hp : n.parent = none) :
    w.unlink x = { w with roots := w.roots.filter (· ≠ x) } := by
  have hparent : w.parent? x = none := by simp [parent?, hx, hp]
  rw [unlink, hparent]
  refine eq_of_get? (fun y => ?_) rfl rfl
  rw [get?_update]
  split
  · next hy =>
    subst hy
    show (w.get? y).map _ = w.get? y
    rw [hx, Option.map_some, ← hp]
  · rfl

end Workspace

namespace Forest

variable (h : Forest w) (htops : tops ⊆ w.roots)

include h

theorem trees_down {n : Node} {c : NodeId} (hx : x ∈ w.trees tops) (hn : w.get? x = some n)
    (hc : c ∈ n.owned) : c ∈ w.trees tops := by
  obtain ⟨t, ht, hx⟩ := List.mem_flatMap.mp hx
  exact List.mem_flatMap.mpr ⟨t, ht, descendants_down h.linked hx hn hc⟩

theorem mem_trees_root (hx : x ∈ w.roots) : x ∈ w.trees tops ↔ x ∈ tops := by
  constructor
  · intro hm
    obtain ⟨t, ht, hd⟩ := List.mem_flatMap.mp hm
    rw [h.eq_of_mem_descendants hd ((h.mem_roots x).mp hx)]
    exact ht
  · intro hm
    obtain ⟨n, hn, -⟩ := h.root_there hx
    exact List.mem_flatMap.mpr ⟨x, hm, (mem_descendants h.linked).mpr ⟨⟨n, hn⟩, .inl rfl⟩⟩

theorem roots_remove_trees :
    (w.remove (w.trees tops)).roots = w.roots.filter fun x => x ∉ tops := by
  rw [Workspace.roots_remove]
  refine List.filter_congr fun x hx => ?_
  rw [List.contains_eq_mem]
  simp only [h.mem_trees_root hx, decide_not]

include htops

theorem trees_up {p : NodeId} (hx : x ∈ w.trees tops) (hp : w.parent? x = some p) :
    p ∈ w.trees tops := by
  obtain ⟨t, ht, hx⟩ := List.mem_flatMap.mp hx
  obtain ⟨m, hm, hmp⟩ := h.root_there (htops ht)
  have htop : w.parent? t = none := by simp [Workspace.parent?, hm, hmp]
  exact List.mem_flatMap.mpr ⟨t, ht, descendants_up h.linked htop hx hp⟩

/-- What a node outside the trees owns is outside them too. -/
theorem outside_down {n : Node} {c : NodeId} (hx : x ∉ w.trees tops) (hn : w.get? x = some n)
    (hc : c ∈ n.owned) : c ∉ w.trees tops := by
  intro hm
  apply hx
  apply h.trees_up htops hm
  rw [← parent?_wiring]
  exact h.linked.parent_of_owned (wiring_of_get? hn) hc

/-- A forest without some of its trees is a forest. -/
theorem remove_trees : Forest (w.remove (w.trees tops)) := by
  have hroots : (w.remove (w.trees tops)).roots = _ := h.roots_remove_trees
  refine ⟨?_, ?_, fun x => ?_, nofun⟩
  · rw [wiring_remove]
    refine h.linked.prune ?_ ?_
    · intro x l c hx hl hc
      obtain ⟨n, hn, rfl⟩ := get?_of_wiring hl
      exact h.trees_down hx hn hc
    · intro x p hx hp
      rw [parent?_wiring] at hp
      exact h.trees_up htops hx hp
  · rw [hroots]
    exact h.roots_nodup.filter _
  · rw [wiring_remove, top_prune, ← h.mem_roots, hroots, List.mem_nil_iff, or_false,
      List.mem_filter, decide_eq_true_iff]
    exact and_congr_right fun hx => not_congr (h.mem_trees_root hx)

/-- Outside the trees that are gone the walk down finds what it found before. -/
theorem descendants_remove_trees {n : Node} (hn : w.get? x = some n) (hx : x ∉ w.trees tops) :
    (w.remove (w.trees tops)).descendants x = w.descendants x := by
  have hv := h.remove_trees htops
  have hget (y : NodeId) (hy : y ∉ w.trees tops) :
      (w.remove (w.trees tops)).get? y = w.get? y := by rw [get?_remove, if_neg hy]
  rw [descendants_eq_upTo hv.linked ((hget x hx).trans hn) (Nat.le_max_left _ w.size),
    descendants_eq_upTo h.linked hn (Nat.le_max_right (w.remove (w.trees tops)).size _)]
  exact descendantsUpTo_congr hget (fun y m c hy hm hc => h.outside_down htops hy hm hc) _ hx

/-! ## Deleting -/

/-- After the deletion of some roots, the deletion of another one removes its tree. -/
theorem delete_remove_trees (hx : x ∈ w.roots) (hxt : x ∉ tops)
    (hreal : ∀ n, w.get? x = some n → n.shadow = false) :
    (w.remove (w.trees tops)).delete x =
      ⟨w.remove (w.trees (tops ++ [x])), .ok (w.descendants x), [.deleted (w.descendants x)]⟩ := by
  obtain ⟨n, hn, hp⟩ := h.root_there hx
  have hout : x ∉ w.trees tops := fun hm => hxt ((h.mem_trees_root hx).mp hm)
  have hget : (w.remove (w.trees tops)).get? x = some n := by rw [get?_remove, if_neg hout, hn]
  -- without its place among the roots the node still has the tree that it had
  have hwalk : ((w.remove (w.trees tops)).unlink x).descendants x = w.descendants x := by
    rw [unlink_root hget hp, ← h.descendants_remove_trees htops hn hout]
    exact descendants_withRoots _ _ x
  have hself : x ∈ w.descendants x := (mem_descendants h.linked).mpr ⟨⟨n, hn⟩, .inl rfl⟩
  have hremove : ((w.remove (w.trees tops)).unlink x).remove (w.descendants x) =
      w.remove (w.trees (tops ++ [x])) := by
    rw [trees_append, ← remove_remove, unlink_root hget hp]
    refine eq_of_get? (fun y => ?_) ?_ rfl
    · rw [get?_remove, get?_remove]
      simp [trees, Workspace.get?]
    · rw [Workspace.roots_remove, Workspace.roots_remove, List.filter_filter]
      refine List.filter_congr fun y _ => ?_
      by_cases hy : y = x
      · simp [hy, hself, trees]
      · simp [hy, trees]
  rw [Workspace.delete, node, hget]
  simp only [hreal n hn, hwalk, hremove, Bool.false_eq_true, if_false]

theorem deleteAll_remove_trees {ids : List NodeId} (hids : ids ⊆ w.roots)
    (hnd : (tops ++ ids).Nodup)
    (hreal : ∀ x ∈ w.roots, ∀ n, w.get? x = some n → n.shadow = false) :
    (Rules.deleteAll ids (w.remove (w.trees tops))).workspace = w.remove (w.trees (tops ++ ids)) ∧
      (Rules.deleteAll ids (w.remove (w.trees tops))).answer = .ok (w.trees ids) := by
  induction ids generalizing tops with
  | nil =>
    rw [List.append_nil]
    exact ⟨rfl, rfl⟩
  | cons id ids ih =>
    rw [List.cons_subset] at hids
    have hid : id ∉ tops := fun hm => (List.nodup_append'.mp hnd).2.2 hm List.mem_cons_self
    have hdelete := h.delete_remove_trees htops hids.1 hid (hreal id hids.1)
    have hstep : tops ++ [id] ⊆ w.roots := List.append_subset.mpr ⟨htops, by simpa using hids.1⟩
    obtain ⟨hworkspace, hanswer⟩ := ih hstep hids.2 (by simpa using hnd)
    rw [List.append_assoc, List.singleton_append] at hworkspace
    constructor
    · rw [Rules.deleteAll, hdelete]
      exact hworkspace
    · rw [Rules.deleteAll, hdelete]
      show Except.map _ (Rules.deleteAll ids _).answer = _
      rw [hanswer]
      rfl

end Forest

/-! ## Superfluous roots -/

namespace Rules

/-- The roots of some kinds that are not the first made of their kind. -/
def superfluous (kinds : List Kind) (w : Workspace) : List NodeId :=
  kinds.flatMap fun kind => (w.topLevelOf kind).tail

theorem mem_superfluous {kinds : List Kind} : x ∈ superfluous kinds w ↔
    ∃ kind ∈ kinds, x ∈ (w.topLevelOf kind).tail := List.mem_flatMap

theorem superfluous_subset (kinds : List Kind) (w : Workspace) :
    superfluous kinds w ⊆ w.roots := by
  intro x hx
  obtain ⟨kind, -, hx⟩ := mem_superfluous.mp hx
  exact (mem_topLevelOf.mp (List.mem_of_mem_tail hx)).1

theorem nodup_ordered (kinds : List Kind) : (Kind.ordered kinds).Nodup :=
  List.Nodup.filter _ (show Kind.all.Nodup by decide)

theorem kind?_of_mem_tail (hx : x ∈ (w.topLevelOf kind).tail) : w.kind? x = some kind :=
  (mem_topLevelOf.mp (List.mem_of_mem_tail hx)).2

theorem nodup_superfluous {kinds : List Kind} (hk : kinds.Nodup) (hnd : w.roots.Nodup) :
    (superfluous kinds w).Nodup := by
  refine List.nodup_flatMap.mpr ⟨fun kind _ => (nodup_topLevelOf hnd).tail, ?_⟩
  refine hk.imp fun {k k'} hne x hx hx' => hne ?_
  exact Option.some.inj ((kind?_of_mem_tail hx).symm.trans (kind?_of_mem_tail hx'))

section Prune

variable (h : Forest w) (hreal : ∀ x ∈ w.roots, ∀ n, w.get? x = some n → n.shadow = false)

include h

/-- The roots of a kind are what they were before roots of other kinds were deleted. -/
theorem topLevelOf_remove_trees (hkind : ∀ x ∈ tops, w.kind? x ≠ some kind) :
    (w.remove (w.trees tops)).topLevelOf kind = w.topLevelOf kind := by
  rw [topLevelOf, h.roots_remove_trees, List.filter_filter, topLevelOf]
  refine congrArg NodeId.sort (List.filter_congr fun x hx => ?_)
  by_cases hxt : x ∈ tops
  · simp [hxt, hkind x hxt]
  · have hout : x ∉ w.trees tops := fun hm => hxt ((h.mem_trees_root hx).mp hm)
    simp [hxt, Workspace.kind?, get?_remove, hout]

include hreal

theorem pruneKind_remove_trees {p : Pruned} (hp : p.workspace = w.remove (w.trees tops))
    (htops : tops ⊆ w.roots) (hnd : tops.Nodup) (hkind : ∀ x ∈ tops, w.kind? x ≠ some kind) :
    (pruneKind p kind).workspace = w.remove (w.trees (tops ++ (w.topLevelOf kind).tail)) ∧
      (pruneKind p kind).removed = p.removed ++ w.trees (w.topLevelOf kind).tail := by
  have hsame := topLevelOf_remove_trees h hkind
  rw [← hp] at hsame
  unfold pruneKind
  split
  · next first extra more htop =>
    rw [hsame] at htop
    have htail : (w.topLevelOf kind).tail = extra :: more := by rw [htop, List.tail_cons]
    have hids : extra :: more ⊆ w.roots := by
      intro x hx
      rw [← htail] at hx
      exact (mem_topLevelOf.mp (List.mem_of_mem_tail hx)).1
    have hboth : (tops ++ extra :: more).Nodup := by
      refine List.nodup_append'.mpr ⟨hnd, htail ▸ (nodup_topLevelOf h.roots_nodup).tail, ?_⟩
      intro x hx hx'
      rw [← htail] at hx'
      exact hkind x hx (kind?_of_mem_tail hx')
    obtain ⟨hworkspace, hanswer⟩ := h.deleteAll_remove_trees htops hids hboth hreal
    rw [htail, hp]
    refine ⟨hworkspace, ?_⟩
    show p.removed ++ (deleteAll (extra :: more) _).answer.toOption.getD [] = _
    rw [hanswer]
    rfl
  · next hnone =>
    -- there is one root of the kind at most
    have htail : (w.topLevelOf kind).tail = [] := by
      rw [← hsame]
      cases htop : p.workspace.topLevelOf kind with
      | nil => rfl
      | cons first others =>
        cases others with
        | nil => rfl
        | cons extra more => exact absurd htop (hnone first extra more)
    rw [htail, List.append_nil]
    exact ⟨hp, (List.append_nil _).symm⟩

theorem foldl_pruneKind_remove_trees {kinds done : List Kind} {p : Pruned}
    (hk : (done ++ kinds).Nodup)
    (hp : p.workspace = w.remove (w.trees (superfluous done w)))
    (hr : p.removed = w.trees (superfluous done w)) :
    (kinds.foldl pruneKind p).workspace = w.remove (w.trees (superfluous (done ++ kinds) w)) ∧
      (kinds.foldl pruneKind p).removed = w.trees (superfluous (done ++ kinds) w) := by
  induction kinds generalizing done p with
  | nil =>
    rw [List.append_nil]
    exact ⟨hp, hr⟩
  | cons kind kinds ih =>
    obtain ⟨hdone, -, hdisj⟩ := List.nodup_append'.mp hk
    have hkind : ∀ x ∈ superfluous done w, w.kind? x ≠ some kind := by
      intro x hx he
      obtain ⟨k, hkm, hx⟩ := mem_superfluous.mp hx
      obtain rfl : k = kind := Option.some.inj ((kind?_of_mem_tail hx).symm.trans he)
      exact hdisj hkm List.mem_cons_self
    obtain ⟨hworkspace, hremoved⟩ := pruneKind_remove_trees h hreal hp
      (superfluous_subset done w) (nodup_superfluous hdone h.roots_nodup) hkind
    have hstep : superfluous (done ++ [kind]) w = superfluous done w ++ (w.topLevelOf kind).tail := by
      simp [superfluous]
    rw [← List.singleton_append, ← List.append_assoc] at hk ⊢
    apply ih hk
    · rw [hworkspace, hstep]
    · rw [hremoved, hr, hstep, trees_append]

/-- Pruning removes the trees of the superfluous roots and nothing else. -/
theorem prune_eq_remove (kinds : List Kind) :
    (prune kinds w).workspace = w.remove (w.trees (superfluous (Kind.ordered kinds) w)) ∧
      (prune kinds w).removed = w.trees (superfluous (Kind.ordered kinds) w) := by
  have hnone : w.remove (w.trees (superfluous [] w)) = w := by
    refine eq_of_get? (fun x => ?_) ?_ rfl
    · rw [get?_remove]
      simp [superfluous, trees]
    · rw [Workspace.roots_remove]
      simp [superfluous, trees]
  have hnd : ([] ++ Kind.ordered kinds).Nodup := nodup_ordered kinds
  exact foldl_pruneKind_remove_trees h hreal hnd hnone.symm rfl

end Prune

end Rules

end BlockText

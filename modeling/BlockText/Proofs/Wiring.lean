import BlockText.Block.Node
import Mathlib.Data.List.Perm.Subperm
import Mathlib.Data.List.Nodup

/-!
# Wirings

What makes a workspace a forest is said of its links alone: which parent each node names, and which
nodes stand in its slots. A wiring is that view. Five changes of a wiring are enough to describe
every edit: a node is cut loose, a loose node is hung on another, a closed part is pruned, a fresh
node is planted, and a node takes fresh children. Each keeps a wiring linked.
-/

namespace BlockText

/-- The links of a node: the parent that it names and the nodes that stand in its slots. -/
structure Link where
  parent : Option NodeId
  owned : List NodeId

/-- The links of the nodes that are there. -/
abbrev Wiring : Type := NodeId → Option Link

namespace Wiring

/-- The parent that a node names. -/
def parent? (L : Wiring) (x : NodeId) : Option NodeId := (L x).bind (·.parent)

/-- The parents above `x`, nearest first; the last of them names none. -/
inductive Chain (L : Wiring) : NodeId → List NodeId → Prop
  | top {x : NodeId} {l : Link} : L x = some l → l.parent = none → Chain L x []
  | up {x p : NodeId} {l : Link} {as : List NodeId} :
      L x = some l → l.parent = some p → Chain L p as → Chain L x (p :: as)

/-- Slots and parent links agree: no node stands twice in the slots of one owner, what stands in a
slot names the owner as its parent, a parent owns the node that names it, and every chain of parents
ends. So a node that names a parent is owned by exactly one slot position. -/
structure Linked (L : Wiring) : Prop where
  owned_nodup : ∀ {p l}, L p = some l → l.owned.Nodup
  parent_of_owned : ∀ {p l c}, L p = some l → c ∈ l.owned → L.parent? c = some p
  owned_of_parent : ∀ {c p}, L.parent? c = some p → ∃ l, L p = some l ∧ c ∈ l.owned
  chain : ∀ {x l}, L x = some l → ∃ as, Chain L x as

variable {L : Wiring}

theorem parent?_eq_some {x p : NodeId} :
    L.parent? x = some p ↔ ∃ l, L x = some l ∧ l.parent = some p := by
  simp only [parent?, Option.bind_eq_some_iff]

theorem parent?_of_eq {x : NodeId} {l : Link} (h : L x = some l) : L.parent? x = l.parent := by
  simp only [parent?, h, Option.bind_some]

/-! ## Chains of parents -/

namespace Chain

theorem eq {x : NodeId} {as bs : List NodeId} (ha : Chain L x as) (hb : Chain L x bs) :
    as = bs := by
  induction ha generalizing bs with
  | top hx hl =>
    cases hb with
    | top _ _ => rfl
    | up hx' hl' _ =>
      rw [hx, Option.some.injEq] at hx'
      rw [hx', hl'] at hl
      cases hl
  | up hx hl _ ih =>
    cases hb with
    | top hx' hl' =>
      rw [hx, Option.some.injEq] at hx'
      rw [hx', hl'] at hl
      cases hl
    | up hx' hl' hc =>
      rw [hx, Option.some.injEq] at hx'
      rw [hx', hl', Option.some.injEq] at hl
      subst hl
      rw [ih hc]

theorem there {x : NodeId} {as : List NodeId} (h : Chain L x as) : ∃ l, L x = some l := by
  cases h with
  | top hx _ => exact ⟨_, hx⟩
  | up hx _ _ => exact ⟨_, hx⟩

/-- What stands above a member of a chain is the rest of the chain. -/
theorem split {x a : NodeId} {as : List NodeId} (h : Chain L x as) (ha : a ∈ as) :
    ∃ below above, as = below ++ a :: above ∧ Chain L a above := by
  induction h with
  | top _ _ => cases ha
  | @up x p l as hx hl hp ih =>
    rcases List.mem_cons.mp ha with rfl | ha
    · exact ⟨[], as, rfl, hp⟩
    · obtain ⟨below, above, rfl, hc⟩ := ih ha
      exact ⟨p :: below, above, rfl, hc⟩

theorem trans {x a b : NodeId} {as bs : List NodeId} (hx : Chain L x as) (ha : a ∈ as)
    (hc : Chain L a bs) (hb : b ∈ bs) : b ∈ as := by
  obtain ⟨below, above, rfl, hc'⟩ := hx.split ha
  rw [hc.eq hc'] at hb
  simp [hb]

theorem not_mem {x : NodeId} {as : List NodeId} (h : Chain L x as) : x ∉ as := by
  intro hx
  obtain ⟨below, above, he, hc⟩ := h.split hx
  have hl := congrArg List.length (he.symm.trans (h.eq hc))
  simp at hl
  omega

theorem nodup {x : NodeId} {as : List NodeId} (h : Chain L x as) : (x :: as).Nodup := by
  induction h with
  | top _ _ => simp
  | up hx hl hp ih => exact List.nodup_cons.mpr ⟨not_mem (.up hx hl hp), ih⟩

/-- Every member of a chain is there. -/
theorem there_of_mem {x a : NodeId} {as : List NodeId} (h : Chain L x as) (ha : a ∈ x :: as) :
    ∃ l, L a = some l := by
  rcases List.mem_cons.mp ha with rfl | ha
  · exact h.there
  · obtain ⟨_, _, _, hc⟩ := h.split ha
    exact hc.there

/-- A chain stays as long as none of its nodes changes its parent. -/
theorem congr {L' : Wiring} {x : NodeId} {as : List NodeId} (h : Chain L x as)
    (hs : ∀ a ∈ x :: as, ∀ l, L a = some l → ∃ l', L' a = some l' ∧ l'.parent = l.parent) :
    Chain L' x as := by
  induction h with
  | top hx hl =>
    obtain ⟨l', hx', hl'⟩ := hs _ List.mem_cons_self _ hx
    exact .top hx' (hl'.trans hl)
  | up hx hl _ ih =>
    obtain ⟨l', hx', hl'⟩ := hs _ List.mem_cons_self _ hx
    exact .up hx' (hl'.trans hl) (ih fun a ha => hs a (List.mem_cons_of_mem _ ha))

end Chain

namespace Linked

theorem parent_ne {x p : NodeId} (h : Linked L) (hp : L.parent? x = some p) : p ≠ x := by
  rintro rfl
  obtain ⟨l, hx, hl⟩ := parent?_eq_some.mp hp
  obtain ⟨as, hc⟩ := h.chain hx
  exact (Chain.up hx hl hc).not_mem List.mem_cons_self

/-- A node stands in the slots of at most one owner. -/
theorem owner_unique {p q c : NodeId} {l k : Link} (h : Linked L) (hp : L p = some l)
    (hq : L q = some k) (hcp : c ∈ l.owned) (hcq : c ∈ k.owned) : p = q := by
  have := (h.parent_of_owned hp hcp).symm.trans (h.parent_of_owned hq hcq)
  exact Option.some.inj this

theorem owned_there {p c : NodeId} {l : Link} (h : Linked L) (hp : L p = some l)
    (hc : c ∈ l.owned) : ∃ k, L c = some k ∧ k.parent = some p :=
  parent?_eq_some.mp (h.parent_of_owned hp hc)

/-- A node that names no parent stands in no slot. -/
theorem not_owned {p c : NodeId} {l k : Link} (h : Linked L) (hc : L c = some k)
    (hn : k.parent = none) (hp : L p = some l) : c ∉ l.owned := by
  intro hm
  rw [← parent?_of_eq hc, h.parent_of_owned hp hm] at hn
  cases hn

end Linked

/-- A node that is there and names no parent. -/
def Top (L : Wiring) (x : NodeId) : Prop := ∃ l, L x = some l ∧ l.parent = none

/-- Of a node and the parents above it, the last alone names no parent. -/
theorem Chain.mem_top_iff {x y : NodeId} {as : List NodeId} (h : Chain L x as) :
    y ∈ x :: as ∧ L.Top y ↔ as.getLast?.getD x = y := by
  induction h with
  | top hx hl =>
    simp only [List.mem_singleton, List.getLast?_nil, Option.getD_none]
    constructor
    · rintro ⟨rfl, -⟩
      rfl
    · rintro rfl
      exact ⟨rfl, _, hx, hl⟩
  | @up x p l as hx hl _ ih =>
    have hlast : (p :: as).getLast?.getD x = as.getLast?.getD p := by
      simp [List.getLast?_cons]
    rw [hlast, ← ih, List.mem_cons]
    constructor
    · rintro ⟨rfl | hy, ht⟩
      · obtain ⟨k, hk, hkp⟩ := ht
        rw [hx, Option.some.injEq] at hk
        rw [hk, hkp] at hl
        cases hl
      · exact ⟨hy, ht⟩
    · rintro ⟨hy, ht⟩
      exact ⟨.inr hy, ht⟩

/-! ## Cutting a node loose -/

/-- The wiring in which a node names no parent, and the parent that it named does not own it. -/
def cut (L : Wiring) (c : NodeId) : Wiring := fun x =>
  (L x).map fun l =>
    ⟨if x = c then none else l.parent,
      if L.parent? c = some x then l.owned.filter (· ≠ c) else l.owned⟩

theorem cut_eq_some {c x : NodeId} {k : Link} (h : L.cut c x = some k) :
    ∃ l, L x = some l ∧ k.parent = (if x = c then none else l.parent) ∧
      k.owned = if L.parent? c = some x then l.owned.filter (· ≠ c) else l.owned := by
  obtain ⟨l, hl, rfl⟩ := Option.map_eq_some_iff.mp h
  exact ⟨l, hl, rfl, rfl⟩

theorem cut_of_eq {c x : NodeId} {l : Link} (h : L x = some l) :
    L.cut c x = some ⟨if x = c then none else l.parent,
      if L.parent? c = some x then l.owned.filter (· ≠ c) else l.owned⟩ := by
  simp only [cut, h, Option.map_some]

theorem parent?_cut (c x : NodeId) :
    (L.cut c).parent? x = if x = c then none else L.parent? x := by
  cases h : L x with
  | none => simp [parent?, cut, h]
  | some l => simp [parent?, cut, h]

theorem top_cut {c x : NodeId} {l : Link} (hc : L c = some l) :
    (L.cut c).Top x ↔ L.Top x ∨ x = c := by
  constructor
  · rintro ⟨k, hk, hn⟩
    obtain ⟨l, hl, hp, -⟩ := cut_eq_some hk
    by_cases hx : x = c
    · exact .inr hx
    · rw [if_neg hx] at hp
      exact .inl ⟨l, hl, hp.symm.trans hn⟩
  · rintro (⟨k, hk, hn⟩ | rfl)
    · exact ⟨_, cut_of_eq hk, by simp [hn]⟩
    · exact ⟨_, cut_of_eq hc, by simp⟩

namespace Linked

/-- A cut takes exactly the node out of the slots. -/
theorem mem_owned_cut {c x d : NodeId} {l k : Link} (h : Linked L) (hl : L x = some l)
    (hk : L.cut c x = some k) : d ∈ k.owned ↔ d ∈ l.owned ∧ d ≠ c := by
  obtain ⟨l', hl', -, ho⟩ := cut_eq_some hk
  rw [hl, Option.some.injEq] at hl'
  subst hl'
  by_cases hp : L.parent? c = some x
  · rw [ho, if_pos hp]
    simp
  · rw [ho, if_neg hp]
    constructor
    · intro hd
      refine ⟨hd, ?_⟩
      rintro rfl
      exact hp (h.parent_of_owned hl hd)
    · exact And.left

theorem cut (h : Linked L) (c : NodeId) : Linked (L.cut c) where
  owned_nodup := by
    intro p k hk
    obtain ⟨l, hl, -, ho⟩ := cut_eq_some hk
    rw [ho]
    split
    · exact (h.owned_nodup hl).filter _
    · exact h.owned_nodup hl
  parent_of_owned := by
    intro p k d hk hd
    obtain ⟨l, hl, -⟩ := cut_eq_some hk
    obtain ⟨hd, hne⟩ := (h.mem_owned_cut hl hk).mp hd
    rw [parent?_cut, if_neg hne]
    exact h.parent_of_owned hl hd
  owned_of_parent := by
    intro d p hp
    rw [parent?_cut] at hp
    split at hp
    · cases hp
    · next hne =>
      obtain ⟨l, hl, hd⟩ := h.owned_of_parent hp
      exact ⟨_, cut_of_eq hl, (h.mem_owned_cut hl (cut_of_eq hl)).mpr ⟨hd, hne⟩⟩
  chain := by
    intro x k hk
    obtain ⟨l, hl, -⟩ := cut_eq_some hk
    obtain ⟨as, hc⟩ := h.chain hl
    clear hk hl
    -- the chain ends early if it meets the node that was cut loose
    induction hc with
    | top hx hn => exact ⟨[], .top (cut_of_eq hx) (by simp [hn])⟩
    | @up x p l as hx hn _ ih =>
      by_cases hxc : x = c
      · exact ⟨[], .top (cut_of_eq hx) (by simp [hxc])⟩
      · obtain ⟨bs, hb⟩ := ih
        exact ⟨p :: bs, .up (cut_of_eq hx) (by simp [hxc, hn]) hb⟩

end Linked

/-! ## Hanging a loose node on another -/

/-- The wiring in which `c` names `p` as its parent, and `os` stands in the slots of `p`. -/
def hang (L : Wiring) (p c : NodeId) (os : List NodeId) : Wiring := fun x =>
  if x = c then (L x).map fun l => { l with parent := some p }
  else if x = p then (L x).map fun l => { l with owned := os }
  else L x

theorem parent?_hang {p c : NodeId} {os : List NodeId} {l : Link} (hc : L c = some l)
    (x : NodeId) : (L.hang p c os).parent? x = if x = c then some p else L.parent? x := by
  by_cases hx : x = c
  · subst hx
    simp [parent?, hang, hc]
  · by_cases hp : x = p
    · subst hp
      cases h : L x <;> simp [parent?, hang, hx, h]
    · simp [parent?, hang, hx, hp]

theorem hang_eq_some {p c x : NodeId} {os : List NodeId} {k : Link} (hpc : c ≠ p)
    (h : L.hang p c os x = some k) :
    ∃ l, L x = some l ∧ k.owned = if x = p then os else l.owned := by
  unfold hang at h
  split at h
  · next hx =>
    subst hx
    obtain ⟨l, hl, rfl⟩ := Option.map_eq_some_iff.mp h
    exact ⟨l, hl, by simp [hpc]⟩
  · split at h
    · next hp =>
      subst hp
      obtain ⟨l, hl, rfl⟩ := Option.map_eq_some_iff.mp h
      exact ⟨l, hl, by simp⟩
    · next hp => exact ⟨k, h, by simp [hp]⟩

theorem hang_there {p c x : NodeId} (os : List NodeId) {l : Link} (hpc : c ≠ p)
    (h : L x = some l) :
    ∃ k, L.hang p c os x = some k ∧ k.owned = if x = p then os else l.owned := by
  unfold hang
  by_cases hx : x = c
  · subst hx
    exact ⟨{ l with parent := some p }, by simp [h], by simp [hpc]⟩
  · by_cases hp : x = p
    · subst hp
      exact ⟨{ l with owned := os }, by simp [hx, h], by simp⟩
    · exact ⟨l, by simp [hx, hp, h], by simp [hp]⟩

theorem top_hang {p c x : NodeId} {os : List NodeId} {l : Link} (hc : L c = some l) :
    (L.hang p c os).Top x ↔ L.Top x ∧ x ≠ c := by
  have key (M : Wiring) : M.Top x ↔ (∃ l, M x = some l) ∧ M.parent? x = none := by
    constructor
    · rintro ⟨l, hl, hn⟩
      exact ⟨⟨l, hl⟩, (parent?_of_eq hl).trans hn⟩
    · rintro ⟨⟨l, hl⟩, hn⟩
      exact ⟨l, hl, (parent?_of_eq hl).symm.trans hn⟩
  have there : (∃ l, L.hang p c os x = some l) ↔ ∃ l, L x = some l := by
    simp only [← Option.isSome_iff_exists, hang]
    split
    · simp
    · split <;> simp
  rw [key, key, there, parent?_hang hc]
  by_cases hx : x = c <;> simp [hx]

/-- Hanging a node changes the parent of no other node. -/
theorem hang_keeps {p c x : NodeId} (os : List NodeId) {l lc : Link} (hc : L c = some lc)
    (hpc : c ≠ p) (hx : x ≠ c) (hl : L x = some l) :
    ∃ k, L.hang p c os x = some k ∧ k.parent = l.parent := by
  obtain ⟨k, hk, -⟩ := hang_there os hpc hl
  refine ⟨k, hk, ?_⟩
  rw [← parent?_of_eq hk, parent?_hang hc, if_neg hx, parent?_of_eq hl]

/-- Above `p` nothing changes when `c`, which is not above it, is hung on it; so the chain of `c`
ends. -/
theorem Chain.hang {p c : NodeId} {as : List NodeId} (os : List NodeId) {lc : Link}
    (has : Chain L p as) (hc : L c = some lc) (hpc : c ≠ p) (hca : c ∉ as) :
    Chain (L.hang p c os) c (p :: as) := by
  have hpas : Chain (L.hang p c os) p as := by
    refine has.congr fun a ha l hl => hang_keeps os hc hpc ?_ hl
    rintro rfl
    rcases List.mem_cons.mp ha with rfl | ha
    · exact hpc rfl
    · exact hca ha
  obtain ⟨k, hk, -⟩ := hang_there os hpc hc
  refine .up hk ?_ hpas
  rw [← parent?_of_eq hk, parent?_hang hc, if_pos rfl]

/-- A loose node may be hung on any node that is not below it. -/
theorem Linked.hang {p c : NodeId} {os as : List NodeId} {lp lc : Link} (h : Linked L)
    (hp : L p = some lp) (hc : L c = some lc) (hn : lc.parent = none) (hpc : c ≠ p)
    (has : Chain L p as) (hca : c ∉ as) (ho : os.Perm (c :: lp.owned)) :
    Linked (L.hang p c os) where
  owned_nodup := by
    intro x k hk
    obtain ⟨l, hl, hko⟩ := hang_eq_some hpc hk
    rw [hko]
    split
    · exact ho.nodup_iff.mpr (List.nodup_cons.mpr ⟨h.not_owned hc hn hp, h.owned_nodup hp⟩)
    · exact h.owned_nodup hl
  parent_of_owned := by
    intro x k d hk hd
    obtain ⟨l, hl, hko⟩ := hang_eq_some hpc hk
    rw [parent?_hang hc]
    have loose {q : NodeId} {m : Link} (hq : L q = some m) (hm : d ∈ m.owned) : d ≠ c := by
      rintro rfl
      exact h.not_owned hc hn hq hm
    rw [hko] at hd
    split at hd
    · next hx =>
      subst hx
      rcases List.mem_cons.mp (ho.mem_iff.mp hd) with rfl | hd
      · exact if_pos rfl
      · rw [if_neg (loose hp hd)]
        exact h.parent_of_owned hp hd
    · rw [if_neg (loose hl hd)]
      exact h.parent_of_owned hl hd
  owned_of_parent := by
    intro d q hq
    rw [parent?_hang hc] at hq
    split at hq
    · next hd =>
      cases hq
      obtain ⟨k, hk, hko⟩ := hang_there os hpc hp
      refine ⟨k, hk, ?_⟩
      rw [hko, if_pos rfl, hd]
      exact ho.mem_iff.mpr List.mem_cons_self
    · obtain ⟨l, hl, hd⟩ := h.owned_of_parent hq
      obtain ⟨k, hk, hko⟩ := hang_there os hpc hl
      refine ⟨k, hk, ?_⟩
      rw [hko]
      split
      · next hx =>
        subst hx
        rw [hp, Option.some.injEq] at hl
        subst hl
        exact ho.mem_iff.mpr (List.mem_cons_of_mem _ hd)
      · exact hd
  chain := by
    intro x k hk
    obtain ⟨l, hl, -⟩ := hang_eq_some hpc hk
    obtain ⟨bs, hb⟩ := h.chain hl
    clear hk hl
    -- a chain that ended at `c` goes on above `p`
    induction hb with
    | @top x l hx hl =>
      by_cases hxc : x = c
      · subst hxc
        exact ⟨p :: as, has.hang os hc hpc hca⟩
      · obtain ⟨k, hk, hkl⟩ := hang_keeps os hc hpc hxc hx
        exact ⟨[], .top hk (hkl.trans hl)⟩
    | @up x q l bs hx hl _ ih =>
      obtain ⟨cs, hcs⟩ := ih
      have hxc : x ≠ c := by
        rintro rfl
        rw [hx, Option.some.injEq] at hc
        rw [hc, hn] at hl
        cases hl
      obtain ⟨k, hk, hkl⟩ := hang_keeps os hc hpc hxc hx
      exact ⟨q :: cs, .up hk (hkl.trans hl) hcs⟩

/-! ## Pruning whole trees -/

/-- The wiring without the nodes of a set. -/
def prune (L : Wiring) (S : NodeId → Prop) [DecidablePred S] : Wiring := fun x =>
  if S x then none else L x

section Prune

variable {S : NodeId → Prop} [DecidablePred S]

theorem prune_eq_some {x : NodeId} {l : Link} :
    L.prune S x = some l ↔ ¬ S x ∧ L x = some l := by
  unfold prune
  split
  · next hs => simp [hs]
  · next hs => simp [hs]

theorem top_prune {x : NodeId} : (L.prune S).Top x ↔ L.Top x ∧ ¬ S x := by
  simp only [Top, prune_eq_some]
  constructor
  · rintro ⟨l, ⟨hs, hl⟩, hn⟩
    exact ⟨⟨l, hl, hn⟩, hs⟩
  · rintro ⟨⟨l, hl, hn⟩, hs⟩
    exact ⟨l, ⟨hs, hl⟩, hn⟩

/-- Trees may go as a whole: with each node what it owns, and with each node its parent. -/
theorem Linked.prune (h : Linked L)
    (down : ∀ {x l c}, S x → L x = some l → c ∈ l.owned → S c)
    (up : ∀ {x p}, S x → L.parent? x = some p → S p) : Linked (L.prune S) := by
  have parent?_prune {x : NodeId} (hx : ¬ S x) : (L.prune S).parent? x = L.parent? x := by
    simp [parent?, Wiring.prune, hx]
  have stays {x p : NodeId} (hp : L.parent? x = some p) (hx : ¬ S x) : ¬ S p := by
    intro hs
    obtain ⟨l, hl, hm⟩ := h.owned_of_parent hp
    exact hx (down hs hl hm)
  refine ⟨?_, ?_, ?_, ?_⟩
  · intro p l hl
    exact h.owned_nodup (prune_eq_some.mp hl).2
  · intro p l c hl hc
    obtain ⟨hp, hl⟩ := prune_eq_some.mp hl
    have hcp := h.parent_of_owned hl hc
    rw [parent?_prune fun hs => hp (up hs hcp)]
    exact hcp
  · intro c p hp
    have hc : ¬ S c := by
      intro hs
      simp [parent?, Wiring.prune, hs] at hp
    rw [parent?_prune hc] at hp
    obtain ⟨l, hl, hm⟩ := h.owned_of_parent hp
    exact ⟨l, prune_eq_some.mpr ⟨stays hp hc, hl⟩, hm⟩
  · intro x l hk
    obtain ⟨hx, hl⟩ := prune_eq_some.mp hk
    obtain ⟨as, hc⟩ := h.chain hl
    clear hk hl
    induction hc with
    | top hx' hn => exact ⟨[], .top (prune_eq_some.mpr ⟨hx, hx'⟩) hn⟩
    | @up x p l as hx' hn _ ih =>
      obtain ⟨bs, hb⟩ := ih (stays (parent?_eq_some.mpr ⟨l, hx', hn⟩) hx)
      exact ⟨p :: bs, .up (prune_eq_some.mpr ⟨hx, hx'⟩) hn hb⟩

end Prune

/-! ## Planting a fresh node -/

/-- The wiring with one more node that names no parent and owns nothing. -/
def plant (L : Wiring) (x : NodeId) : Wiring := fun y => if y = x then some ⟨none, []⟩ else L y

theorem top_plant {x y : NodeId} : (L.plant x).Top y ↔ L.Top y ∨ y = x := by
  by_cases h : y = x <;> simp [Top, plant, h]

theorem Linked.plant {x : NodeId} (h : Linked L) (hx : L x = none) : Linked (L.plant x) := by
  have parent?_plant (y : NodeId) : (L.plant x).parent? y = L.parent? y := by
    by_cases hy : y = x <;> simp [parent?, Wiring.plant, hy, hx]
  have keeps {y : NodeId} {l : Link} (hl : L y = some l) : L.plant x y = some l := by
    have hy : y ≠ x := by
      rintro rfl
      rw [hx] at hl
      cases hl
    simp [Wiring.plant, hy, hl]
  have back {y : NodeId} {l : Link} (hl : L.plant x y = some l) :
      (y = x ∧ l = ⟨none, []⟩) ∨ L y = some l := by
    unfold Wiring.plant at hl
    split at hl
    · next hy => exact .inl ⟨hy, (Option.some.inj hl).symm⟩
    · exact .inr hl
  refine ⟨?_, ?_, ?_, ?_⟩
  · intro p l hl
    rcases back hl with ⟨-, rfl⟩ | hl
    · exact List.nodup_nil
    · exact h.owned_nodup hl
  · intro p l c hl hc
    rcases back hl with ⟨-, rfl⟩ | hl
    · cases hc
    · rw [parent?_plant]
      exact h.parent_of_owned hl hc
  · intro c p hp
    rw [parent?_plant] at hp
    obtain ⟨l, hl, hc⟩ := h.owned_of_parent hp
    exact ⟨l, keeps hl, hc⟩
  · intro y l hl
    rcases back hl with ⟨rfl, rfl⟩ | hl
    · exact ⟨[], .top hl rfl⟩
    · obtain ⟨as, hc⟩ := h.chain hl
      exact ⟨as, hc.congr fun a _ l hl => ⟨l, keeps hl, rfl⟩⟩

/-! ## Giving a node fresh children -/

/-- The wiring in which a node owns fresh nodes in place of those that it owned, which are loose. -/
def rewire (L : Wiring) (p : NodeId) (fresh : List NodeId) : Wiring := fun x =>
  if x ∈ fresh then some ⟨some p, []⟩
  else (L x).map fun l =>
    ⟨if l.parent = some p then none else l.parent, if x = p then fresh else l.owned⟩

section Rewire

variable {p : NodeId} {fresh : List NodeId}

theorem rewire_eq_some {x : NodeId} {k : Link} (h : L.rewire p fresh x = some k) :
    (x ∈ fresh ∧ k = ⟨some p, []⟩) ∨ x ∉ fresh ∧ ∃ l, L x = some l ∧
      k = ⟨if l.parent = some p then none else l.parent, if x = p then fresh else l.owned⟩ := by
  unfold rewire at h
  split at h
  · next hx => exact .inl ⟨hx, (Option.some.inj h).symm⟩
  · next hx =>
    obtain ⟨l, hl, rfl⟩ := Option.map_eq_some_iff.mp h
    exact .inr ⟨hx, l, hl, rfl⟩

theorem rewire_of_eq {x : NodeId} {l : Link} (hf : ∀ x ∈ fresh, L x = none) (h : L x = some l) :
    L.rewire p fresh x =
      some ⟨if l.parent = some p then none else l.parent, if x = p then fresh else l.owned⟩ := by
  have hx : x ∉ fresh := by
    intro hx
    rw [hf x hx] at h
    cases h
  simp [rewire, hx, h]

theorem parent?_rewire {x : NodeId} {l : Link} (hf : ∀ x ∈ fresh, L x = none)
    (h : L x = some l) : (L.rewire p fresh).parent? x =
      if L.parent? x = some p then none else L.parent? x := by
  rw [parent?_of_eq (rewire_of_eq hf h), parent?_of_eq h]

theorem top_rewire {x : NodeId} (hf : ∀ x ∈ fresh, L x = none) :
    (L.rewire p fresh).Top x ↔ L.Top x ∨ L.parent? x = some p := by
  constructor
  · rintro ⟨k, hk, hn⟩
    rcases rewire_eq_some hk with ⟨-, rfl⟩ | ⟨-, l, hl, rfl⟩
    · cases hn
    · by_cases hp : l.parent = some p
      · exact .inr (parent?_eq_some.mpr ⟨l, hl, hp⟩)
      · rw [if_neg hp] at hn
        exact .inl ⟨l, hl, hn⟩
  · rintro (⟨l, hl, hn⟩ | hp)
    · exact ⟨_, rewire_of_eq hf hl, by simp [hn]⟩
    · obtain ⟨l, hl, hp⟩ := parent?_eq_some.mp hp
      exact ⟨_, rewire_of_eq hf hl, by simp [hp]⟩

theorem Linked.rewire {lp : Link} (h : Linked L) (hp : L p = some lp)
    (hf : ∀ x ∈ fresh, L x = none) (hnd : fresh.Nodup) : Linked (L.rewire p fresh) := by
  have hpf : p ∉ fresh := by
    intro hx
    rw [hf p hx] at hp
    cases hp
  refine ⟨?_, ?_, ?_, ?_⟩
  · intro q k hk
    rcases rewire_eq_some hk with ⟨-, rfl⟩ | ⟨-, l, hl, rfl⟩
    · exact List.nodup_nil
    · show (if q = p then fresh else l.owned).Nodup
      split
      · exact hnd
      · exact h.owned_nodup hl
  · intro q k c hk hc
    rcases rewire_eq_some hk with ⟨-, rfl⟩ | ⟨-, l, hl, rfl⟩
    · cases hc
    · by_cases hq : q = p
      · have hc : c ∈ fresh := by simpa [hq] using hc
        rw [parent?_eq_some, hq]
        exact ⟨⟨some p, []⟩, by simp [Wiring.rewire, hc], rfl⟩
      · have hc : c ∈ l.owned := by simpa [hq] using hc
        have hcq := h.parent_of_owned hl hc
        obtain ⟨m, hm, -⟩ := h.owned_there hl hc
        rw [parent?_rewire hf hm, hcq, if_neg (by simpa using hq)]
  · intro c q hcq
    obtain ⟨k, hk, hkq⟩ := parent?_eq_some.mp hcq
    rcases rewire_eq_some hk with ⟨hc, rfl⟩ | ⟨-, l, hl, rfl⟩
    · cases hkq
      exact ⟨_, rewire_of_eq hf hp, by simpa using hc⟩
    · rw [parent?_rewire hf hl] at hcq
      split at hcq
      · cases hcq
      · next hne =>
        obtain ⟨m, hm, hc⟩ := h.owned_of_parent hcq
        have hqp : q ≠ p := by
          rintro rfl
          exact hne hcq
        exact ⟨_, rewire_of_eq hf hm, by simpa [hqp] using hc⟩
  · -- a chain of parents is cut where it reached the node
    have key {x : NodeId} {as : List NodeId} (hc : Chain L x as) :
        ∃ bs, Chain (L.rewire p fresh) x bs := by
      induction hc with
      | top hx hn => exact ⟨[], .top (rewire_of_eq hf hx) (by simp [hn])⟩
      | @up x q l as hx hn _ ih =>
        obtain ⟨bs, hb⟩ := ih
        by_cases hq : q = p
        · exact ⟨[], .top (rewire_of_eq hf hx) (by simp [hn, hq])⟩
        · exact ⟨q :: bs, .up (rewire_of_eq hf hx) (by simp [hn, hq]) hb⟩
    intro x k hk
    rcases rewire_eq_some hk with ⟨hx, rfl⟩ | ⟨-, l, hl, rfl⟩
    · obtain ⟨as, hc⟩ := h.chain hp
      obtain ⟨bs, hb⟩ := key hc
      exact ⟨p :: bs, .up hk rfl hb⟩
    · obtain ⟨as, hc⟩ := h.chain hl
      exact key hc

end Rewire

end Wiring

end BlockText

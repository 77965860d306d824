import BlockText.Proofs.Emission

/-!
# What holds after the rules

After the rules there is one root at most of each kind that may be root once, and of two handlers
that handle the same thing one at most is no duplicate. Where this holds already the rules delete
nothing and flag no handler as a duplicate. Of several rules for handlers of one kind the last
decides, since it clears the flags that the others set.
-/

namespace BlockText

open Workspace

variable {w v : Workspace} {x y : NodeId} {kind : Kind}

/-! ## Roots of a kind -/

theorem NodeId.perm_place (id : NodeId) (ids : List NodeId) :
    (NodeId.sort.place id ids).Perm (id :: ids) := by
  induction ids with
  | nil => exact .refl _
  | cons x xs ih =>
    rw [sort.place]
    split
    · exact .refl _
    · exact (ih.cons x).trans (.swap id x xs)

theorem NodeId.perm_sort (ids : List NodeId) : (NodeId.sort ids).Perm ids := by
  induction ids with
  | nil => exact .nil
  | cons id ids ih => exact (perm_place id _).trans (ih.cons id)

theorem Workspace.mem_topLevelOf : x ∈ w.topLevelOf kind ↔ x ∈ w.roots ∧ w.kind? x = some kind := by
  rw [topLevelOf, (NodeId.perm_sort _).mem_iff, List.mem_filter, decide_eq_true_iff]

theorem Workspace.nodup_topLevelOf (h : w.roots.Nodup) : (w.topLevelOf kind).Nodup :=
  (NodeId.perm_sort _).nodup_iff.mpr (h.filter _)

/-- There is one root of a kind at most. -/
def Workspace.Single (w : Workspace) (kind : Kind) : Prop :=
  ∀ x ∈ w.roots, ∀ y ∈ w.roots, w.kind? x = some kind → w.kind? y = some kind → x = y

theorem Keeps.kind? (h : Keeps w v) {m : Node} (hx : v.get? x = some m) :
    v.kind? x = w.kind? x := by
  obtain ⟨n, hn, ha⟩ := h x m hx
  rw [Workspace.kind?, Workspace.kind?, hx, hn, Option.map_some, Option.map_some, ha.kind]

/-- Some nodes of an orderly workspace were deleted, and it is orderly again. -/
structure Thinned (w v : Workspace) : Prop where
  orderly : Orderly v
  keeps : Keeps w v
  roots : v.roots ⊆ w.roots

namespace Thinned

theorem refl (h : Orderly w) : Thinned w w := ⟨h, fun _ m hm => ⟨m, hm, .refl m⟩, fun _ => id⟩

theorem trans {u : Workspace} (h : Thinned u w) (h' : Thinned w v) : Thinned u v :=
  ⟨h'.orderly, h.keeps.trans h'.keeps, List.Subset.trans h'.roots h.roots⟩

theorem kind? (h : Thinned w v) (hx : x ∈ v.roots) : v.kind? x = w.kind? x := by
  obtain ⟨m, hm, -⟩ := h.orderly.forest.root_there hx
  exact h.keeps.kind? hm

theorem single (h : Thinned w v) (hw : w.Single kind) : v.Single kind := by
  intro x hx y hy hkx hky
  rw [h.kind? hx] at hkx
  rw [h.kind? hy] at hky
  exact hw x (h.roots hx) y (h.roots hy) hkx hky

end Thinned

namespace Orderly

/-- A root is deleted with all below it, and no other root is. -/
theorem delete_root (h : Orderly w) (hx : x ∈ w.roots) : Thinned w (w.delete x).workspace ∧
    (w.delete x).workspace.roots = w.roots.filter (· ≠ x) := by
  obtain ⟨n, hn, -⟩ := h.forest.root_there hx
  have hreal : n.shadow = false := by simpa [IsReal, tag?, hn] using h.real x hx
  have hdelete : (w.delete x).workspace = (w.unlink x).remove ((w.unlink x).descendants x) := by
    simp [delete, node, hn, hreal]
  have hforest := h.forest.unlink hn List.not_mem_nil
  have hroots := hforest.roots_remove.trans (h.forest.roots_unlink x)
  have hkeeps : Keeps w ((w.unlink x).remove ((w.unlink x).descendants x)) :=
    (Keeps.unlink h.forest.linked x).trans (.remove _)
  have hdone := hforest.remove List.not_mem_nil
  have hsub : ((w.unlink x).remove ((w.unlink x).descendants x)).roots ⊆ w.roots := by
    rw [hroots]
    exact fun _ => List.mem_of_mem_filter
  rw [hdelete]
  refine ⟨⟨⟨hdone, (h.conforms.unlink h.forest.linked x).remove hdone.linked, fun y hy => ?_⟩,
    hkeeps, hsub⟩, hroots⟩
  exact hkeeps.isReal (h.real y (hsub hy))

theorem deleteAll_roots (h : Orderly w) {ids : List NodeId} (hids : ids ⊆ w.roots)
    (hnd : ids.Nodup) : Thinned w (Rules.deleteAll ids w).workspace ∧
      ∀ x ∈ ids, x ∉ (Rules.deleteAll ids w).workspace.roots := by
  induction ids generalizing w with
  | nil => exact ⟨.refl h, nofun⟩
  | cons id ids ih =>
    rw [List.cons_subset] at hids
    rw [List.nodup_cons] at hnd
    obtain ⟨hthin, hroots⟩ := h.delete_root hids.1
    have hrest : ids ⊆ (w.delete id).workspace.roots := by
      intro x hx
      rw [hroots, List.mem_filter]
      have : x ≠ id := fun he => hnd.1 (he ▸ hx)
      exact ⟨hids.2 hx, by simpa using this⟩
    obtain ⟨hthin', hgone⟩ := ih hthin.orderly hrest hnd.2
    refine ⟨hthin.trans hthin', ?_⟩
    rw [List.forall_mem_cons]
    refine ⟨fun hm => ?_, hgone⟩
    have := hthin'.roots hm
    rw [hroots] at this
    simp at this

end Orderly

/-! ## One root of a kind -/

namespace Rules

theorem pruneKind_eq {p : Pruned} (h : p.workspace.Single kind) (hnd : p.workspace.roots.Nodup) :
    pruneKind p kind = p := by
  unfold pruneKind
  split
  · next first extra more htop =>
    have hmem (x : NodeId) (hx : x ∈ first :: extra :: more) := mem_topLevelOf.mp (htop ▸ hx)
    have hf := hmem first List.mem_cons_self
    have he := hmem extra (List.mem_cons_of_mem _ List.mem_cons_self)
    have heq := h first hf.1 extra he.1 hf.2 he.2
    have hnd' : (p.workspace.topLevelOf kind).Nodup := nodup_topLevelOf hnd
    rw [htop, heq] at hnd'
    simp at hnd'
  · rfl

theorem thinned_pruneKind {p : Pruned} (h : Orderly p.workspace) (kind : Kind) :
    Thinned p.workspace (pruneKind p kind).workspace ∧
      (pruneKind p kind).workspace.Single kind := by
  unfold pruneKind
  split
  · next first extra more htop =>
    have hmem (x : NodeId) (hx : x ∈ first :: extra :: more) := mem_topLevelOf.mp (htop ▸ hx)
    have hnd : (p.workspace.topLevelOf kind).Nodup := nodup_topLevelOf h.forest.roots_nodup
    rw [htop, List.nodup_cons] at hnd
    obtain ⟨hthin, hgone⟩ := h.deleteAll_roots
      (fun x hx => (hmem x (List.mem_cons_of_mem _ hx)).1) hnd.2
    -- of the roots of the kind only the first is left
    have hfirst (x : NodeId) (hx : x ∈ (deleteAll (extra :: more) p.workspace).workspace.roots)
        (hk : (deleteAll (extra :: more) p.workspace).workspace.kind? x = some kind) :
        x = first := by
      rw [hthin.kind? hx] at hk
      have htopx := mem_topLevelOf.mpr ⟨hthin.roots hx, hk⟩
      rw [htop] at htopx
      rcases List.mem_cons.mp htopx with rfl | hm
      · rfl
      · exact absurd hx (hgone x hm)
    refine ⟨hthin, fun x hx y hy hkx hky => ?_⟩
    rw [hfirst x hx hkx, hfirst y hy hky]
  · next hnone =>
    refine ⟨.refl h, fun x hx y hy hkx hky => ?_⟩
    have htx := mem_topLevelOf.mpr ⟨hx, hkx⟩
    have hty := mem_topLevelOf.mpr ⟨hy, hky⟩
    cases htop : p.workspace.topLevelOf kind with
    | nil =>
      rw [htop] at htx
      cases htx
    | cons first rest =>
      cases rest with
      | nil =>
        rw [htop, List.mem_singleton] at htx hty
        rw [htx, hty]
      | cons extra more => exact absurd htop (hnone first extra more)

theorem mem_ordered {kinds : List Kind} : kind ∈ Kind.ordered kinds ↔ kind ∈ kinds := by
  have hall : kind ∈ Kind.all := by cases kind <;> decide
  rw [Kind.ordered, List.mem_filter, List.contains_iff_mem]
  exact and_iff_right hall

/-- After pruning there is one root at most of each of the kinds. -/
theorem thinned_prune (h : Orderly w) (kinds : List Kind) :
    Thinned w (prune kinds w).workspace ∧ ∀ k ∈ kinds, (prune kinds w).workspace.Single k := by
  have hrun (ks : List Kind) (p : Pruned) (hp : Orderly p.workspace) :
      Thinned p.workspace (ks.foldl pruneKind p).workspace ∧
        ∀ k ∈ ks, (ks.foldl pruneKind p).workspace.Single k := by
    induction ks generalizing p with
    | nil => exact ⟨.refl hp, nofun⟩
    | cons kind ks ih =>
      obtain ⟨hthin, hsingle⟩ := thinned_pruneKind hp kind
      obtain ⟨hthin', hrest⟩ := ih _ hthin.orderly
      rw [List.foldl_cons, List.forall_mem_cons]
      exact ⟨hthin.trans hthin', hthin'.single hsingle, hrest⟩
  obtain ⟨hthin, hsingle⟩ := hrun (Kind.ordered kinds) ⟨w, [], [], []⟩ h
  exact ⟨hthin, fun k hk => hsingle k (mem_ordered.mpr hk)⟩

/-- Pruning changes nothing where there is one root at most of each of the kinds. -/
theorem prune_eq {kinds : List Kind} (h : ∀ k ∈ kinds, w.Single k) (hnd : w.roots.Nodup) :
    prune kinds w = ⟨w, [], [], []⟩ := by
  have hrun (ks : List Kind) (hks : ∀ k ∈ ks, w.Single k) :
      ks.foldl pruneKind ⟨w, [], [], []⟩ = ⟨w, [], [], []⟩ := by
    induction ks with
    | nil => rfl
    | cons kind ks ih =>
      rw [List.forall_mem_cons] at hks
      rw [List.foldl_cons, pruneKind_eq hks.1 hnd]
      exact ih hks.2
  exact hrun _ fun k hk => h k (mem_ordered.mp hk)

/-! ## Handlers -/

/-- Why a node is left out. -/
def flag? (w : Workspace) (x : NodeId) : Option Disabled := (w.get? x).bind (·.disabled)

theorem flag?_setDisabled (w : Workspace) (id x : NodeId) (reason : Option Disabled) :
    flag? (w.setDisabled id reason) x =
      if x = id then (w.get? x).bind fun _ => reason else flag? w x := by
  rw [flag?, setDisabled, get?_update]
  split
  · next hx =>
    rw [hx]
    cases w.get? id <;> rfl
  · rfl

theorem flag?_foldl_setDisabled (ids : List NodeId) (w : Workspace) (x : NodeId)
    (reason : Option Disabled) :
    flag? (ids.foldl (fun w id => w.setDisabled id reason) w) x =
      if x ∈ ids then (w.get? x).bind fun _ => reason else flag? w x := by
  induction ids generalizing w with
  | nil => simp
  | cons id ids ih =>
    obtain ⟨f, hf⟩ := (Reflagged.setDisabled w id reason).nodes
    have hget : ((w.setDisabled id reason).get? x).bind (fun _ => reason) =
        (w.get? x).bind fun _ => reason := by
      rw [hf]
      cases w.get? x <;> rfl
    rw [List.foldl_cons, ih, hget, flag?_setDisabled]
    by_cases hx : x ∈ ids
    · simp [hx]
    · by_cases hid : x = id <;> simp [hx, hid]

section FlagGroup

variable {group : List NodeId}

theorem flag?_flagGroup_of_not_mem (h : x ∉ group) : flag? (flagGroup w group) x = flag? w x := by
  cases group with
  | nil => rfl
  | cons first others =>
    rw [List.mem_cons, not_or] at h
    unfold flagGroup
    rw [flag?_foldl_setDisabled, if_neg h.2]
    split
    · rw [flag?_setDisabled, if_neg h.1]
    · rfl

/-- All handlers of a group but the first are duplicates. -/
theorem flag?_flagGroup_of_mem_tail (h : x ∈ group.tail) {n : Node} (hx : w.get? x = some n) :
    flag? (flagGroup w group) x = some .duplicateHandler := by
  cases group with
  | nil => cases h
  | cons first others =>
    rw [List.tail_cons] at h
    unfold flagGroup
    rw [flag?_foldl_setDisabled, if_pos h]
    split
    · obtain ⟨f, hf⟩ := (Reflagged.setDisabled w first none).nodes
      rw [hf, hx]
      rfl
    · rw [hx]
      rfl

/-- A handler that is alone in its group is no duplicate. -/
theorem flag?_flagGroup_singleton (w : Workspace) (x : NodeId) :
    flag? (flagGroup w [x]) x ≠ some .duplicateHandler := by
  show flag? (if (w.get? x).bind (·.disabled) = some .duplicateHandler then w.setDisabled x none
    else w) x ≠ _
  split
  · rw [flag?_setDisabled, if_pos rfl]
    cases w.get? x <;> simp
  · next h => exact h

end FlagGroup

theorem flag?_foldl_flagGroup_of_not_mem {groups : List (List NodeId)} (h : ∀ g ∈ groups, x ∉ g) :
    flag? (groups.foldl flagGroup w) x = flag? w x := by
  induction groups generalizing w with
  | nil => rfl
  | cons g groups ih =>
    rw [List.forall_mem_cons] at h
    rw [List.foldl_cons, ih h.2, flag?_flagGroup_of_not_mem h.1]

/-- The last group with a node decides about its flag. -/
theorem flag?_foldl_flagGroup {Q : Option Disabled → Prop} {groups : List (List NodeId)}
    (hg : ∀ g ∈ groups, x ∈ g → ∀ v, Reflagged w v → Q (flag? (flagGroup v g) x))
    (hex : ∃ g ∈ groups, x ∈ g) : Q (flag? (groups.foldl flagGroup w) x) := by
  have hrun (groups : List (List NodeId)) (v : Workspace) (hv : Reflagged w v)
      (hg : ∀ g ∈ groups, x ∈ g → ∀ v, Reflagged w v → Q (flag? (flagGroup v g) x))
      (hex : ∃ g ∈ groups, x ∈ g) : Q (flag? (groups.foldl flagGroup v) x) := by
    induction groups generalizing v with
    | nil =>
      obtain ⟨g, hm, -⟩ := hex
      cases hm
    | cons g groups ih =>
      rw [List.forall_mem_cons] at hg
      rw [List.foldl_cons]
      by_cases hlater : ∃ g ∈ groups, x ∈ g
      · exact ih _ (hv.trans (.flagGroup v g)) hg.2 hlater
      · have hrest : ∀ g ∈ groups, x ∉ g := fun g hm hx => hlater ⟨g, hm, hx⟩
        obtain ⟨g', hm, hx⟩ := hex
        rcases List.mem_cons.mp hm with rfl | hm
        · rw [flag?_foldl_flagGroup_of_not_mem hrest]
          exact hg.1 hx v hv
        · exact absurd hx (hrest g' hm)
  exact hrun groups w (.refl w) hg hex

/-- The handlers of a kind are grouped by what they handle. -/
theorem get?_handlers (w : Workspace) (rule : HandlerRule) (key : String) :
    (handlers w rule).get? key =
      if ((w.topLevelOf rule.kind).filter fun x => discriminant w rule.field x = key).isEmpty
        then none
      else some ((w.topLevelOf rule.kind).filter fun x => discriminant w rule.field x = key) := by
  have hrun (ids : List NodeId) (groups : SortedMap String (List NodeId)) :
      (ids.foldl (fun groups id => groups.insert (discriminant w rule.field id)
        ((groups.get? (discriminant w rule.field id)).getD [] ++ [id])) groups).get? key =
      if (ids.filter fun x => discriminant w rule.field x = key).isEmpty then groups.get? key
      else some ((groups.get? key).getD [] ++
        ids.filter fun x => discriminant w rule.field x = key) := by
    induction ids generalizing groups with
    | nil => rfl
    | cons id ids ih =>
      rw [List.foldl_cons, ih, SortedMap.get?_insert]
      by_cases hk : discriminant w rule.field id = key
      · rw [List.filter_cons_of_pos (by simpa using hk), hk, if_pos rfl]
        cases ids.filter fun x => discriminant w rule.field x = key <;> simp
      · rw [List.filter_cons_of_neg (by simpa using hk), if_neg (Ne.symm hk)]
  rw [handlers, hrun]
  simp

section FlagHandlers

variable {rule : HandlerRule}

theorem eq_filter_of_mem_handlers {g : List NodeId} (hg : g ∈ (handlers w rule).values) :
    ∃ key, g = (w.topLevelOf rule.kind).filter fun x => discriminant w rule.field x = key := by
  obtain ⟨key, hkey⟩ := SortedMap.mem_values.mp hg
  rw [get?_handlers] at hkey
  split at hkey
  · cases hkey
  · exact ⟨key, (Option.some.inj hkey).symm⟩

/-- A handler is in the group of what it handles, and in no other. -/
theorem group_of_mem (hx : x ∈ w.topLevelOf rule.kind) :
    (∃ g ∈ (handlers w rule).values, x ∈ g) ∧ ∀ g ∈ (handlers w rule).values, x ∈ g →
      g = (w.topLevelOf rule.kind).filter fun y =>
        discriminant w rule.field y = discriminant w rule.field x := by
  have hself : x ∈ (w.topLevelOf rule.kind).filter fun y =>
      discriminant w rule.field y = discriminant w rule.field x := by simpa using hx
  refine ⟨⟨_, SortedMap.mem_values.mpr ⟨discriminant w rule.field x, ?_⟩, hself⟩, ?_⟩
  · rw [get?_handlers, if_neg (by rw [List.isEmpty_iff]; exact List.ne_nil_of_mem hself)]
  · intro g hg hxg
    obtain ⟨key, rfl⟩ := eq_filter_of_mem_handlers hg
    obtain rfl : discriminant w rule.field x = key := by simpa using (List.mem_filter.mp hxg).2
    rfl

theorem reflagged_flagHandlers (w : Workspace) (rule : HandlerRule) :
    Reflagged w (flagHandlers w rule).1 := .foldl Reflagged.flagGroup _ w

/-- A rule leaves alone what is no root of its kind. -/
theorem flag?_flagHandlers_of_not_mem (hx : x ∉ w.topLevelOf rule.kind) :
    flag? (flagHandlers w rule).1 x = flag? w x := by
  refine flag?_foldl_flagGroup_of_not_mem fun g hg hxg => ?_
  obtain ⟨key, rfl⟩ := eq_filter_of_mem_handlers hg
  exact hx (List.mem_of_mem_filter hxg)

/-- Of two handlers of one thing a rule flags one. -/
theorem flagHandlers_duplicate (hx : x ∈ w.topLevelOf rule.kind)
    (hy : y ∈ w.topLevelOf rule.kind) (hne : x ≠ y)
    (hd : discriminant w rule.field x = discriminant w rule.field y)
    (hthere : ∀ z ∈ w.topLevelOf rule.kind, ∃ n, w.get? z = some n) :
    flag? (flagHandlers w rule).1 x = some .duplicateHandler ∨
      flag? (flagHandlers w rule).1 y = some .duplicateHandler := by
  have htail (z : NodeId) (hz : z ∈ w.topLevelOf rule.kind)
      (hm : z ∈ ((w.topLevelOf rule.kind).filter fun y =>
        discriminant w rule.field y = discriminant w rule.field z).tail) :
      flag? (flagHandlers w rule).1 z = some .duplicateHandler := by
    obtain ⟨hex, honly⟩ := group_of_mem hz
    refine flag?_foldl_flagGroup (Q := (· = some .duplicateHandler)) (fun g hg hzg v hv => ?_) hex
    obtain ⟨n, hn⟩ := hthere z hz
    obtain ⟨f, hf⟩ := hv.nodes
    exact flag?_flagGroup_of_mem_tail (honly g hg hzg ▸ hm) ((hf z).trans (congrArg _ hn))
  have hxg : x ∈ (w.topLevelOf rule.kind).filter fun z =>
      discriminant w rule.field z = discriminant w rule.field y := by simpa [hd] using hx
  have hyg : y ∈ (w.topLevelOf rule.kind).filter fun z =>
      discriminant w rule.field z = discriminant w rule.field y := by simpa using hy
  -- both are in one group, so one of them is not the first in it
  cases hg : (w.topLevelOf rule.kind).filter fun z =>
      discriminant w rule.field z = discriminant w rule.field y with
  | nil =>
    rw [hg] at hxg
    cases hxg
  | cons first others =>
    rw [hg, List.mem_cons] at hxg hyg
    rcases hxg with rfl | hxg
    · exact .inr (htail y hy (by rw [hg]; exact hyg.resolve_left (Ne.symm hne)))
    · exact .inl (htail x hx (by rw [hd, hg]; exact hxg))

/-- Handlers of different things are no duplicates. -/
theorem flagHandlers_distinct (hnd : w.roots.Nodup) (hx : x ∈ w.topLevelOf rule.kind)
    (hinj : ∀ y ∈ w.topLevelOf rule.kind,
      discriminant w rule.field y = discriminant w rule.field x → y = x) :
    flag? (flagHandlers w rule).1 x ≠ some .duplicateHandler := by
  obtain ⟨hex, honly⟩ := group_of_mem hx
  have hgroup : ((w.topLevelOf rule.kind).filter fun y =>
      discriminant w rule.field y = discriminant w rule.field x) = [x] := by
    refine List.perm_singleton.mp ((List.perm_ext_iff_of_nodup
      ((nodup_topLevelOf hnd).filter _) (List.nodup_singleton x)).mpr fun y => ?_)
    rw [List.mem_filter, List.mem_singleton, decide_eq_true_iff]
    constructor
    · exact fun hy => hinj y hy.1 hy.2
    · rintro rfl
      exact ⟨hx, rfl⟩
  refine flag?_foldl_flagGroup (Q := (· ≠ some .duplicateHandler)) (fun g hg hxg v _ => ?_) hex
  rw [honly g hg hxg, hgroup]
  exact flag?_flagGroup_singleton v x

end FlagHandlers

/-- The field that handlers of a kind have to differ in: that of the last rule for the kind. -/
def fieldFor (kind : Kind) : List HandlerRule → Option String
  | [] => none
  | rule :: rules => (fieldFor kind rules).or (if rule.kind = kind then some rule.field else none)

theorem reflagged_discriminant (h : Reflagged w v) (field : String) (x : NodeId) :
    discriminant v field x = discriminant w field x := by
  obtain ⟨f, hf⟩ := h.nodes
  rw [discriminant, hf, discriminant]
  cases w.get? x <;> rfl

theorem reflagged_kind? (h : Reflagged w v) (x : NodeId) : v.kind? x = w.kind? x := by
  obtain ⟨f, hf⟩ := h.nodes
  rw [Workspace.kind?, hf, Workspace.kind?]
  cases w.get? x <;> rfl

theorem reflagged_topLevelOf (h : Reflagged w v) (kind : Kind) :
    v.topLevelOf kind = w.topLevelOf kind := by
  rw [topLevelOf, h.roots, funext (reflagged_kind? h), topLevelOf]

theorem flagAll_cons (rule : HandlerRule) (rules : List HandlerRule) (w : Workspace) :
    (flagAll (rule :: rules) w).1 = (flagAll rules (flagHandlers w rule).1).1 := rfl

theorem flag?_flagAll_of_not_mem {rules : List HandlerRule}
    (h : ∀ rule ∈ rules, x ∉ w.topLevelOf rule.kind) : flag? (flagAll rules w).1 x = flag? w x := by
  induction rules generalizing w with
  | nil => rfl
  | cons rule rules ih =>
    rw [List.forall_mem_cons] at h
    rw [flagAll_cons, ih fun r hr => ?_, flag?_flagHandlers_of_not_mem h.1]
    rw [reflagged_topLevelOf (reflagged_flagHandlers w rule)]
    exact h.2 r hr

theorem kind_ne_of_fieldFor_eq_none {rules : List HandlerRule} (h : fieldFor kind rules = none) :
    ∀ rule ∈ rules, rule.kind ≠ kind := by
  induction rules with
  | nil => exact nofun
  | cons rule rules ih =>
    rw [fieldFor, Option.or_eq_none_iff] at h
    rw [List.forall_mem_cons]
    refine ⟨fun hk => ?_, ih h.1⟩
    rw [if_pos hk] at h
    cases h.2

/-- What the last rule for a kind brings about for the roots of the kind holds in the end. -/
theorem flagAll_last {rules : List HandlerRule} {field : String} {Q : Workspace → Prop}
    (hfield : fieldFor kind rules = some field)
    (hstep : ∀ v, Reflagged w v → Q (flagHandlers v ⟨kind, field⟩).1)
    (hframe : ∀ u v, (∀ z ∈ w.topLevelOf kind, flag? v z = flag? u z) → Q u → Q v) :
    Q (flagAll rules w).1 := by
  have hrun (rules : List HandlerRule) (v : Workspace) (hv : Reflagged w v)
      (hfield : fieldFor kind rules = some field) : Q (flagAll rules v).1 := by
    induction rules generalizing v with
    | nil => cases hfield
    | cons rule rules ih =>
      have hflag := hv.trans (reflagged_flagHandlers v rule)
      rw [fieldFor] at hfield
      rw [flagAll_cons]
      cases hlater : fieldFor kind rules with
      | some f =>
        rw [hlater, Option.some_or] at hfield
        exact ih _ hflag (hlater.trans hfield)
      | none =>
        rw [hlater, Option.none_or] at hfield
        split at hfield
        case isFalse => cases hfield
        case isTrue hk =>
          -- the rules after this one are for other kinds, and leave the flags of this kind alone
          obtain rfl : rule = ⟨kind, field⟩ := by
            rw [Option.some.injEq] at hfield
            rw [← hk, ← hfield]
          refine hframe _ _ (fun z hz => flag?_flagAll_of_not_mem fun r hr hmem => ?_) (hstep v hv)
          rw [reflagged_topLevelOf hflag] at hmem
          have hkr := (mem_topLevelOf.mp hmem).2
          rw [(mem_topLevelOf.mp hz).2, Option.some.injEq] at hkr
          exact kind_ne_of_fieldFor_eq_none hlater r hr hkr.symm
  exact hrun rules w (.refl w) hfield

/-! ## All rules -/

theorem normalize_workspace (rules : Rules) (w : Workspace) :
    (rules.normalize w).workspace = rules.gate (flagAll rules.uniqueHandlers
      (clearDuplicates (prune rules.singletons w).workspace)).1 := rfl

theorem reflagged_gate (rules : Rules) (w : Workspace) : Reflagged w (rules.gate w) := .map _ _

theorem get?_gate (rules : Rules) (w : Workspace) (x : NodeId) : (rules.gate w).get? x =
    (w.get? x).map fun n => { n with disabled := rules.gatedFlag w n } :=
  SortedMap.get?_map w.nodes _ x

/-- Gating keeps the duplicates, and finds no new ones. -/
theorem flag?_gate_eq_duplicate (rules : Rules) (w : Workspace) (x : NodeId) :
    flag? (rules.gate w) x = some .duplicateHandler ↔ flag? w x = some .duplicateHandler := by
  rw [flag?, get?_gate, flag?]
  cases w.get? x with
  | none => simp
  | some n =>
    simp only [Option.map_some, Option.bind_some, gatedFlag]
    split
    · rfl
    · next hn =>
      refine iff_of_false ?_ hn
      split <;> simp

/-- Whether a node may run does not depend on flags. -/
theorem isEnabled_reflagged (h : Reflagged w v) (rules : Rules) (x : NodeId) :
    rules.isEnabled v x = rules.isEnabled w x := by
  obtain ⟨f, hf⟩ := h.nodes
  have hup (bound : Nat) (y : NodeId) : v.ancestorsUpTo bound y = w.ancestorsUpTo bound y := by
    induction bound generalizing y with
    | zero => rfl
    | succ bound ih =>
      rw [ancestorsUpTo, h.parent?, ancestorsUpTo]
      cases w.parent? y with
      | none => rfl
      | some p => exact congrArg _ (ih p)
  have hroot : v.rootOf x = w.rootOf x := by
    rw [rootOf, ancestors, hup, h.size, rootOf, ancestors]
  rw [isEnabled, hf, isEnabled]
  cases w.get? x with
  | none => rfl
  | some n => simp only [Option.map_some, hroot, reflagged_kind? h]

theorem flag?_clearDuplicates (w : Workspace) (x : NodeId) :
    flag? (clearDuplicates w) x ≠ some .duplicateHandler := by
  have hget : (clearDuplicates w).get? x = (w.get? x).map fun n =>
      { n with disabled := if n.disabled = some .duplicateHandler then none else n.disabled } :=
    SortedMap.get?_map w.nodes _ x
  rw [flag?, hget]
  cases w.get? x with
  | none => simp
  | some n =>
    simp only [Option.map_some, Option.bind_some]
    split
    · simp
    · next hn => exact hn

/-- What the rules bring about: one root at most of some kinds, and of handlers of one thing one at
most that is no duplicate. -/
structure Settled (rules : Rules) (w : Workspace) : Prop where
  single : ∀ k ∈ rules.singletons, w.Single k
  handlers : ∀ kind field, fieldFor kind rules.uniqueHandlers = some field →
    ∀ x ∈ w.topLevelOf kind, ∀ y ∈ w.topLevelOf kind,
      discriminant w field x = discriminant w field y →
      flag? w x ≠ some .duplicateHandler → flag? w y ≠ some .duplicateHandler → x = y

end Rules

namespace Orderly

open Rules

theorem reflagged (h : Orderly w) (hv : Reflagged w v) : Orderly v where
  forest := hv.forest h.forest
  conforms := h.conforms.keeps hv.keeps (hv.forest h.forest).linked (Nat.le_of_eq hv.nextId.symm)
    (hv.slots h.conforms.slots)
  real := fun x hx => hv.keeps.isReal (h.real x (hv.roots ▸ hx))

theorem normalize (h : Orderly w) (rules : Rules) : Orderly (rules.normalize w).workspace :=
  (thinned_prune h rules.singletons).1.orderly.reflagged (rules.reflagged_normalize w)

theorem settled_normalize (h : Orderly w) (rules : Rules) :
    rules.Settled (rules.normalize w).workspace := by
  obtain ⟨hthin, hsingle⟩ := thinned_prune h rules.singletons
  have hflags := rules.reflagged_normalize w
  refine ⟨fun k hk x hx y hy hkx hky => ?_, fun kind field hfield x hx y hy hd hfx hfy => ?_⟩
  · rw [reflagged_kind? hflags] at hkx hky
    rw [hflags.roots] at hx hy
    exact hsingle k hk x hx y hy hkx hky
  · rw [normalize_workspace, ne_eq, flag?_gate_eq_duplicate] at hfx hfy
    rw [reflagged_topLevelOf hflags] at hx hy
    rw [reflagged_discriminant hflags, reflagged_discriminant hflags] at hd
    by_contra hne
    have hclear : Reflagged (prune rules.singletons w).workspace
        (clearDuplicates (prune rules.singletons w).workspace) := .map _ _
    refine (flagAll_last (w := clearDuplicates (prune rules.singletons w).workspace) hfield
      (Q := fun v => flag? v x = some .duplicateHandler ∨ flag? v y = some .duplicateHandler)
      (fun v hv => ?_) fun u v huv hu => ?_).elim hfx hfy
    · have hall := hclear.trans hv
      refine flagHandlers_duplicate ?_ ?_ hne ?_ fun z hz => ?_
      · rwa [reflagged_topLevelOf hall]
      · rwa [reflagged_topLevelOf hall]
      · rwa [reflagged_discriminant hall, reflagged_discriminant hall]
      · have hroot := (mem_topLevelOf.mp hz).1
        obtain ⟨n, hn, -⟩ := (hall.forest hthin.orderly.forest).root_there hroot
        exact ⟨n, hn⟩
    · rw [huv x (by rwa [reflagged_topLevelOf hclear]),
        huv y (by rwa [reflagged_topLevelOf hclear])]
      exact hu

/-- Where the rules have nothing to correct they delete nothing, and no node becomes a duplicate. -/
theorem normalize_of_distinct (h : Orderly w) {rules : Rules}
    (hsingle : ∀ k ∈ rules.singletons, w.Single k)
    (hinj : ∀ kind field, fieldFor kind rules.uniqueHandlers = some field →
      ∀ x ∈ w.topLevelOf kind, ∀ y ∈ w.topLevelOf kind,
        discriminant w field x = discriminant w field y → x = y) :
    Reflagged w (rules.normalize w).workspace ∧
      ∀ x, flag? (rules.normalize w).workspace x ≠ some .duplicateHandler := by
  have hprune := prune_eq hsingle h.forest.roots_nodup
  have hflags := rules.reflagged_normalize w
  rw [hprune] at hflags
  refine ⟨hflags, fun x => ?_⟩
  have hclear : Reflagged w (clearDuplicates w) := .map _ _
  rw [normalize_workspace, hprune, ne_eq, flag?_gate_eq_duplicate]
  -- a node is flagged only as a root of a kind with a rule; all others were cleared before
  cases hfield : (w.kind? x).bind fun k => fieldFor k rules.uniqueHandlers with
  | none =>
    rw [flag?_flagAll_of_not_mem]
    · exact flag?_clearDuplicates w x
    · intro rule hrule hx
      rw [reflagged_topLevelOf hclear] at hx
      rw [(mem_topLevelOf.mp hx).2, Option.bind_some] at hfield
      exact kind_ne_of_fieldFor_eq_none hfield rule hrule rfl
  | some field =>
    obtain ⟨kind, hkind, hfield⟩ := Option.bind_eq_some_iff.mp hfield
    by_cases hx : x ∈ w.roots
    · have hmem := mem_topLevelOf.mpr ⟨hx, hkind⟩
      refine flagAll_last (w := clearDuplicates w) hfield
        (Q := fun v => flag? v x ≠ some .duplicateHandler) (fun v hv => ?_) fun u v huv hu => ?_
      · have hall := hclear.trans hv
        refine flagHandlers_distinct (hall.roots ▸ h.forest.roots_nodup) ?_ fun y hy hd => ?_
        · rwa [reflagged_topLevelOf hall]
        · rw [reflagged_topLevelOf hall] at hy
          rw [reflagged_discriminant hall, reflagged_discriminant hall] at hd
          exact hinj kind field hfield y hy x hmem hd
      · rw [huv x (by rwa [reflagged_topLevelOf hclear])]
        exact hu
    · rw [flag?_flagAll_of_not_mem]
      · exact flag?_clearDuplicates w x
      · intro rule hrule hm
        rw [reflagged_topLevelOf hclear] at hm
        exact hx (mem_topLevelOf.mp hm).1

/-- A node that may run and is no duplicate is not left out. -/
theorem disabled_normalize (h : Orderly w) {rules : Rules} {n : Node}
    (hn : (rules.normalize w).workspace.get? x = some n)
    (hd : flag? (rules.normalize w).workspace x ≠ some .duplicateHandler)
    (he : rules.isEnabled (rules.normalize w).workspace x = true) : n.disabled = none := by
  have hid := ((h.normalize rules).conforms.stored x n hn).1
  rw [normalize_workspace, ne_eq, flag?_gate_eq_duplicate] at hd
  rw [normalize_workspace, isEnabled_reflagged (reflagged_gate _ _)] at he
  rw [normalize_workspace, get?_gate] at hn
  obtain ⟨m, hm, rfl⟩ := Option.map_eq_some_iff.mp hn
  have hmd : m.disabled ≠ some .duplicateHandler := by
    intro hdup
    rw [flag?, hm] at hd
    exact hd hdup
  show gatedFlag _ _ m = none
  rw [gatedFlag, if_neg hmd, show m.id = x from hid, if_pos he]

end Orderly

end BlockText

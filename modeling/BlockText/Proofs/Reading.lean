import BlockText.Proofs.History
import BlockText.Proofs.Trees

/-!
# Reading trees

The reader makes the node of a block at the end of the workspace, with its defaults, and then reads
what goes into its inputs, which stands further at the end. So a block that is being read leaves all
older nodes alone: below its id nothing changes, and what was read into its inputs shows the same
blocks from then on. From the text of a tree the reader gets a workspace in which the tree stands.
-/

namespace BlockText

open Workspace Program

/-! ## Inputs of the built-in shapes -/

theorem Kind.nodup_inputs (k : Kind) (m : Option Mutation) :
    ((k.definition.shape.inputsFor m).map InputSpec.name).Nodup := by
  have hfixed : ∀ inputs, k.definition.shape.layout = .fixed inputs →
      (inputs.map InputSpec.name).Nodup := by
    intro inputs hlayout
    cases k <;> cases hlayout <;> decide
  rw [Shape.inputsFor]
  split
  · rw [Conditional.map_name_inputs]
    exact Conditional.nodup_names _
  · next inputs hlayout => exact hfixed inputs hlayout

namespace Shape

variable {s : Shape} {m : Option Mutation} {i : String}

theorem mem_valueInputs : i ∈ s.valueInputs m ↔
    ∃ check default, .value i check default ∈ s.inputsFor m := by
  rw [valueInputs, List.mem_filterMap]
  constructor
  · rintro ⟨spec, hspec, hi⟩
    cases spec with
    | value name check default =>
      cases hi
      exact ⟨check, default, hspec⟩
    | statement name => cases hi
  · rintro ⟨check, default, hspec⟩
    exact ⟨_, hspec, rfl⟩

theorem mem_statementInputs : i ∈ s.statementInputs m ↔ .statement i ∈ s.inputsFor m := by
  rw [statementInputs, List.mem_filterMap]
  constructor
  · rintro ⟨spec, hspec, hi⟩
    cases spec with
    | value name check default => cases hi
    | statement name =>
      cases hi
      exact hspec
  · exact fun hspec => ⟨_, hspec, rfl⟩

theorem nodup_valueInputs_append (h : ((s.inputsFor m).map InputSpec.name).Nodup) :
    (s.valueInputs m ++ s.statementInputs m).Nodup := by
  have hperm (specs : List InputSpec) : (specs.filterMap InputSpec.value? ++
      specs.filterMap InputSpec.statement?).Perm (specs.map InputSpec.name) := by
    induction specs with
    | nil => exact .nil
    | cons spec specs ih =>
      cases spec with
      | value name check default => exact ih.cons name
      | statement name => exact List.perm_middle.trans (ih.cons name)
  exact (hperm _).nodup_iff.mpr h

end Shape

/-! ## Workspaces that grow -/

/-- Two nodes are the same block, with the same nodes in its inputs. -/
structure Node.SameBlock (m n : Node) : Prop where
  kind : m.kind = n.kind
  fields : m.fields = n.fields
  mutation : m.mutation = n.mutation
  inputs : m.inputs = n.inputs

/-- The nodes of `w` in a range of ids are the same blocks in `v`. -/
def Workspace.AgreeOn (lo hi : NodeId) (w v : Workspace) : Prop :=
  ∀ x n, lo ≤ x → x < hi → w.get? x = some n → ∃ m, v.get? x = some m ∧ m.SameBlock n

/-- `v` has the roots and the nodes of `w`, and more nodes after them. -/
structure Workspace.Extends (w v : Workspace) : Prop where
  roots : v.roots = w.roots
  next_le : w.nextId ≤ v.nextId
  below : ∀ x < w.nextId, v.get? x = w.get? x

theorem Node.SameBlock.refl (n : Node) : n.SameBlock n := ⟨rfl, rfl, rfl, rfl⟩

theorem Node.SameBlock.trans {k m n : Node} (h : k.SameBlock m) (h' : m.SameBlock n) :
    k.SameBlock n :=
  ⟨h.kind.trans h'.kind, h.fields.trans h'.fields, h.mutation.trans h'.mutation,
    h.inputs.trans h'.inputs⟩

theorem Workspace.AgreeOn.trans {lo hi : NodeId} {u v w : Workspace} (h : u.AgreeOn lo hi v)
    (h' : v.AgreeOn lo hi w) : u.AgreeOn lo hi w := by
  intro x n hlo hhi hn
  obtain ⟨m, hm, hsame⟩ := h x n hlo hhi hn
  obtain ⟨k, hk, hsame'⟩ := h' x m hlo hhi hm
  exact ⟨k, hk, hsame'.trans hsame⟩

namespace Workspace.Extends

variable {u v w : Workspace}

theorem refl (w : Workspace) : w.Extends w := ⟨rfl, Nat.le_refl _, fun _ _ => rfl⟩

theorem trans (h : u.Extends v) (h' : v.Extends w) : u.Extends w where
  roots := h'.roots.trans h.roots
  next_le := Nat.le_trans h.next_le h'.next_le
  below x hx := (h'.below x (Nat.lt_of_lt_of_le hx h.next_le)).trans (h.below x hx)

theorem agreeOn (h : w.Extends v) (lo : NodeId) : w.AgreeOn lo w.nextId v := by
  intro x n _ hx hn
  exact ⟨n, (h.below x hx).trans hn, .refl n⟩

end Workspace.Extends

/-! ## Trees that stand in a workspace -/

variable {w v : Workspace} {lo hi lo' hi' x : NodeId}

/-- An expression stands in a workspace at a node: the nodes of the tree are those that show in the
inputs, and all have ids in a range. -/
def Expr.Stands (w : Workspace) (lo hi : NodeId) : Expr → NodeId → Prop
  | absent, _ => False
  | block kind fields operand, x => lo ≤ x ∧ x < hi ∧ ∃ n, w.get? x = some n ∧ n.kind = kind ∧
      n.fields = fields ∧ n.mutation = none ∧ ∀ i ∈ kind.definition.shape.valueInputs none,
        ∃ y, n.valueTarget? i = some y ∧ (operand i).Stands w lo hi y

/-- A sequence of statements stands in a workspace as a sequence of nodes. -/
def Script.Stands (w : Workspace) (lo hi : NodeId) : Script → List NodeId → Prop
  | done, ids => ids = []
  | block kind fields mutation value body next, ids => ∃ x rest, ids = x :: rest ∧
      lo ≤ x ∧ x < hi ∧ (∃ n, w.get? x = some n ∧ n.kind = kind ∧ n.fields = fields ∧
        n.mutation = mutation ∧
        (∀ i ∈ kind.definition.shape.valueInputs mutation,
          ∃ y, n.valueTarget? i = some y ∧ (value i).Stands w lo hi y) ∧
        ∀ i ∈ kind.definition.shape.statementInputs mutation,
          ∃ children, n.slot? i = some (.statements children) ∧
            (body i).Stands w lo hi children) ∧
      next.Stands w lo hi rest

theorem Node.SameBlock.slot? {m n : Node} (h : m.SameBlock n) (i : String) :
    m.slot? i = n.slot? i := by
  rw [Node.slot?, Node.input?, h.inputs]
  rfl

theorem Node.SameBlock.valueTarget? {m n : Node} (h : m.SameBlock n) (i : String) :
    m.valueTarget? i = n.valueTarget? i := by
  rw [Node.valueTarget?, h.slot?]
  rfl

/-- A tree stands where the nodes in its range are the same blocks. -/
theorem Expr.Stands.mono {e : Expr} (h : e.Stands w lo hi x) (ha : w.AgreeOn lo hi v)
    (hlo : lo' ≤ lo) (hhi : hi ≤ hi') : e.Stands v lo' hi' x := by
  induction e generalizing x with
  | absent => exact h
  | block kind fields operand ih =>
    obtain ⟨hlx, hxh, n, hn, rfl, rfl, hmut, hvalues⟩ := h
    obtain ⟨m, hm, hsame⟩ := ha x n hlx hxh hn
    refine ⟨Nat.le_trans hlo hlx, Nat.lt_of_lt_of_le hxh hhi, m, hm, hsame.kind, hsame.fields,
      hsame.mutation.trans hmut, fun i hi => ?_⟩
    obtain ⟨y, hy, hstands⟩ := hvalues i hi
    exact ⟨y, (hsame.valueTarget? i).trans hy, ih i hstands⟩

theorem Script.Stands.mono {t : Script} {ids : List NodeId} (h : t.Stands w lo hi ids)
    (ha : w.AgreeOn lo hi v) (hlo : lo' ≤ lo) (hhi : hi ≤ hi') : t.Stands v lo' hi' ids := by
  induction t generalizing ids with
  | done => exact h
  | block kind fields mutation value body next ihb ih =>
    obtain ⟨x, rest, rfl, hlx, hxh, ⟨n, hn, rfl, rfl, rfl, hvalues, hbodies⟩, hnext⟩ := h
    obtain ⟨m, hm, hsame⟩ := ha x n hlx hxh hn
    refine ⟨x, rest, rfl, Nat.le_trans hlo hlx, Nat.lt_of_lt_of_le hxh hhi,
      ⟨m, hm, hsame.kind, hsame.fields, hsame.mutation, fun i hi => ?_, fun i hi => ?_⟩, ih hnext⟩
    · obtain ⟨y, hy, hstands⟩ := hvalues i hi
      exact ⟨y, (hsame.valueTarget? i).trans hy, hstands.mono ha hlo hhi⟩
    · obtain ⟨children, hc, hstands⟩ := hbodies i hi
      exact ⟨children, (hsame.slot? i).trans hc, ihb i hstands⟩

/-- A sequence stands where only flags are different. -/
theorem Script.Stands.reflagged {t : Script} {ids : List NodeId} (h : t.Stands w lo hi ids)
    (hv : Reflagged w v) : t.Stands v lo hi ids := by
  obtain ⟨f, hf⟩ := hv.nodes
  refine h.mono (fun x n _ _ hn => ?_) (Nat.le_refl _) (Nat.le_refl _)
  exact ⟨_, (hf x).trans (congrArg _ hn), rfl, rfl, rfl, rfl⟩

/-! ## Placing what was read -/

/-- A loose node was placed in a node, where another node may have gone for it; all other nodes are
as they were. -/
structure Workspace.Places (id c : NodeId) (gone : Option NodeId) (w v : Workspace) : Prop where
  roots : v.roots = w.roots
  next : v.nextId = w.nextId
  others : ∀ x, x ≠ id → x ≠ c → gone ≠ some x → v.get? x = w.get? x
  child : ∀ k, w.get? c = some k → ∃ m, v.get? c = some m ∧ m.SameBlock k

/-- Two nodes differ in one input, at most. -/
structure Node.SameBut (input : String) (m n : Node) : Prop where
  kind : m.kind = n.kind
  fields : m.fields = n.fields
  mutation : m.mutation = n.mutation
  shadow : m.shadow = n.shadow
  slot? : ∀ i, i ≠ input → m.slot? i = n.slot? i

theorem Node.sameBut_withSlot (n : Node) (input : String) (f : Slot → Slot) :
    (n.withSlot input f).SameBut input n :=
  ⟨rfl, rfl, rfl, rfl, fun i hi => by rw [slot?_withSlot, if_neg hi]⟩

theorem Node.SameBut.trans {k m n : Node} {input : String} (h : k.SameBut input m)
    (h' : m.SameBut input n) : k.SameBut input n :=
  ⟨h.kind.trans h'.kind, h.fields.trans h'.fields, h.mutation.trans h'.mutation,
    h.shadow.trans h'.shadow, fun i hi => (h.slot? i hi).trans (h'.slot? i hi)⟩

namespace Workspace.Places

variable {id c : NodeId} {gone : Option NodeId}

theorem below (h : w.Places id c gone v) (hc : id < c) (hg : ∀ s ∈ gone, id < s) :
    ∀ y < id, v.get? y = w.get? y := by
  intro y hy
  refine h.others y (Nat.ne_of_lt hy) (Nat.ne_of_lt (Nat.lt_trans hy hc)) fun hgone => ?_
  exact Nat.lt_irrefl _ (Nat.lt_trans hy (hg y hgone))

theorem agreeOn (h : w.Places id c gone v) (hid : id < lo) (hg : ∀ s ∈ gone, s < lo) :
    w.AgreeOn lo hi v := by
  intro y n hy _ hn
  by_cases hyc : y = c
  · subst hyc
    exact h.child n hn
  · refine ⟨n, ?_, .refl n⟩
    rw [h.others y (Nat.ne_of_gt (Nat.lt_of_lt_of_le hid hy)) hyc fun hgone => ?_, hn]
    exact Nat.lt_irrefl _ (Nat.lt_of_lt_of_le (hg y hgone) hy)

end Workspace.Places

section Attach

variable {id c : NodeId} {n k : Node} {input : String} {shadow : Option NodeId}
  {loose : List NodeId}

/-- The change of a slot, with the node that goes into it. -/
theorem Workspace.places_update {f : Slot → Slot} {g : Node → Node} (hc : c ≠ id)
    (hg : ∀ m, (g m).SameBlock m) :
    w.Places id c none ((w.update id fun n => n.withSlot input f).update c g) where
  roots := rfl
  next := rfl
  others x hx hxc _ := by rw [get?_update_of_ne _ hxc, get?_update_of_ne _ hx]
  child k hk := ⟨g k, by rw [get?_update_self, get?_update_of_ne _ hc, hk]; rfl, hg k⟩

/-- A loose node may be flagged as a default. -/
theorem Tidy.flag (h : Tidy .builtin w loose) (hc : c ∈ loose) :
    Tidy .builtin (w.update c fun n => { n with shadow := true }) loose := by
  have hget (x : NodeId) (m : Node)
      (hm : (w.update c fun n => { n with shadow := true }).get? x = some m) :
      ∃ n, w.get? x = some n ∧ m.SameBlock n ∧ m.id = n.id := by
    rw [get?_update] at hm
    split at hm
    · next hx =>
      obtain ⟨n, hn, rfl⟩ := Option.map_eq_some_iff.mp hm
      exact ⟨n, hx ▸ hn, ⟨rfl, rfl, rfl, rfl⟩, rfl⟩
    · exact ⟨m, hm, .refl m, rfl⟩
  have hslots {P : InputSpec → Slot → Prop} (hP : w.Slots .builtin P) :
      (w.update c fun n => { n with shadow := true }).Slots .builtin P :=
    hP.update c fun _ => ⟨rfl, rfl, rfl⟩
  have hrole (x : NodeId) : (w.update c fun n => { n with shadow := true }).role? .builtin x =
      w.role? .builtin x := by
    rw [role?, get?_update]
    split
    · next hx =>
      rw [hx, role?]
      cases w.get? c <;> rfl
    · rfl
  have htag {x : NodeId} (hx : x ≠ c) :
      (w.update c fun n => { n with shadow := true }).tag? x = w.tag? x := by
    rw [tag?, get?_update_of_ne _ hx, tag?]
  -- only the defaults read the flag, and a loose node is in no slot
  refine ⟨h.forest.update (f := fun n => { n with shadow := true }) (fun _ => rfl) c,
    ⟨?_, ?_, ?_⟩, ⟨?_, ?_⟩⟩
  · intro x m hm
    obtain ⟨n, hn, -, hid⟩ := hget x m hm
    exact hid ▸ h.conforms.stored x n hn
  · intro x m hm
    obtain ⟨n, hn, hsame, -⟩ := hget x m hm
    rw [hsame.kind, hsame.mutation, hsame.fields]
    exact h.conforms.described x n hn
  · refine (hslots h.conforms.slots).mono fun x m _ i _ spec hfits => hfits.congr fun y _ => ?_
    exact hrole y
  · refine (hslots h.furnished.slots).mono fun x m hm i hi spec hf => hf.congr fun y hy => htag ?_
    rintro rfl
    obtain ⟨n, hn, hsame, -⟩ := hget x m hm
    rw [hsame.inputs] at hi
    have hp := (mem_owned_iff h.forest.linked hn).mp (List.mem_flatMap.mpr ⟨i, hi, hy⟩)
    rw [h.forest.parent?_of_loose hc] at hp
    cases hp
  · intro x hx
    rw [htag]
    · exact h.furnished.roots x hx
    · rintro rfl
      exact h.forest.apart x hc hx

/-- A default in the place of another one. -/
theorem Workspace.places_swapDefault {o : NodeId} (hci : c ≠ id) (hco : c ≠ o)
    (hor : o ∉ w.roots) : w.Places id c (some o) (w.swapDefault id input o c) where
  roots := roots_swapDefault hor
  next := rfl
  others x hx hxc hxo := get?_swapDefault_of_ne hx hxc fun he => hxo (congrArg some he.symm)
  child k hk := ⟨{ k with parent := some id, shadow := true },
    by rw [get?_swapDefault_node hci hco, hk]; rfl, ⟨rfl, rfl, rfl, rfl⟩⟩

/-- A node that becomes a default may be flagged as one before. -/
theorem Workspace.swapDefault_flag {o : NodeId} (hci : c ≠ id) (hco : c ≠ o) :
    (w.update c fun n => { n with shadow := true }).swapDefault id input o c =
      w.swapDefault id input o c := by
  refine eq_of_get? (fun x => ?_) rfl rfl
  by_cases hx : x = c
  · subst hx
    rw [get?_swapDefault_node hci hco, get?_swapDefault_node hci hco, get?_update_self,
      Option.map_map]
    rfl
  · simp [swapDefault, get?_update, get?_remove, hx, hci.symm]

/-- A default gives way to a loose literal of its kind. -/
theorem Tidy.setShadow {o : NodeId} (h : Tidy .builtin w (c :: loose)) (hcl : c ∉ loose)
    (hn : w.get? id = some n) (hs : n.slot? input = some (.value none (some o)))
    (hid : w.parent? id = none) (hci : c ≠ id) (hc : w.get? c = some k)
    (hrole : k.kind.definition.shape.role.isValue = true) (hkind : w.kind? o = some k.kind) :
    Tidy .builtin (w.setShadow id input c) loose ∧
      w.Places id c (some o) (w.setShadow id input c) ∧
      (w.setShadow id input c).get? id = some (n.withSlot input (shadowInSlot c)) := by
  obtain ⟨l, ho, hleaf, -⟩ := h.leaf_of_default Registry.sound_builtin hn hs
  have hop : w.parent? o = some id :=
    (mem_owned_iff h.forest.linked hn).mp (Node.owned_of_slot? hs (by simp [Slot.owned]))
  have hoid : o ≠ id := by
    rintro rfl
    rw [hid] at hop
    cases hop
  have hco : c ≠ o := by
    rintro rfl
    rw [h.forest.parent?_of_loose List.mem_cons_self] at hop
    cases hop
  rw [setShadow_eq hn hs ⟨l, ho, hleaf⟩ hoid]
  refine ⟨?_, places_swapDefault hci hco (h.forest.not_root_of_parent hop), ?_⟩
  · -- flagged first, the node is a default like the one before
    have h1 := h.flag (c := c) List.mem_cons_self
    have hn1 : (w.update c fun n => { n with shadow := true }).get? id = some n := by
      rw [get?_update_of_ne _ hci.symm, hn]
    have hc1 : (w.update c fun n => { n with shadow := true }).get? c =
        some { k with shadow := true } := by rw [get?_update_self, hc]; rfl
    have hid1 : (w.update c fun n => { n with shadow := true }).parent? id = none := by
      rw [parent?, hn1]
      rw [parent?, hn] at hid
      exact hid
    rw [← swapDefault_flag hci hco]
    refine h1.swap Registry.sound_builtin hcl hn1 hs hci
      (by rw [ancestors_of_top hid1]; exact List.not_mem_nil) ?_ ?_
    · rw [role?, hc1, Option.bind_some, Registry.find?_builtin]
      exact hrole
    · intro d hd name check default hspec hname
      rw [Registry.find?_builtin, Option.some.injEq] at hd
      subst hd hname
      obtain ⟨s, hs', hf⟩ := (h.furnished.slots id n _ hn (Registry.find?_builtin _)).slot?
        (Kind.nodup_inputs _ _) hspec
      obtain rfl : s = .value none (some o) := Option.some.inj (hs'.symm.trans hs)
      have hlk : l.kind = k.kind := by simpa [kind?, ho] using hkind
      cases default with
      | none => cases hf.2
      | some s =>
        have htag : w.tag? o = some ⟨s.kind, true⟩ := Option.some.inj hf.2
        have hls : l.kind = s.kind := by simpa [tag?, ho] using congrArg (·.map Tag.kind) htag
        simp [tag?, hc1, ← hls, hlk]
  · rw [get?_swapDefault_self hci.symm hoid.symm, hn]
    rfl

/-- A value that was read is attached: as the default if it is one, as the child otherwise. -/
theorem attach_ok (h : Tidy .builtin w (c :: id :: loose)) (hcl : c ∉ id :: loose)
    (hn : w.get? id = some n) (hs : n.slot? input = some (.value none shadow))
    (hc : w.get? c = some k) (hrole : k.kind.definition.shape.role.isValue = true)
    (hreal : w.IsReal c) (line : Nat) (source : List Char) :
    ∃ v gone, attach w line id input source c = .ok v ∧ Tidy .builtin v (id :: loose) ∧
      w.Places id c gone v ∧ (∀ s ∈ gone, s ∈ shadow) ∧
      ∃ m, v.get? id = some m ∧ m.SameBut input n ∧ m.valueTarget? input = some c := by
  have hci : c ≠ id := List.ne_of_not_mem_cons hcl
  have hid : w.parent? id = none := h.forest.parent?_of_loose (by simp)
  cases hd : isDefault w id input c with
  | true =>
    have hshadow : w.shadow? id input = shadow := by simp [shadow?, hn, hs]
    have hliteral := hd
    simp only [isDefault, hc, hshadow, Bool.and_eq_true, beq_iff_eq, Option.bind_eq_some_iff]
      at hliteral
    obtain ⟨-, o, rfl, hkind⟩ := hliteral
    obtain ⟨htidy, hplaces, hid⟩ := h.setShadow hcl hn hs hid hci hc hrole hkind
    refine ⟨w.setShadow id input c, some o, ?_, htidy, hplaces, fun s hs => hs, ?_⟩
    · obtain ⟨k', hk', -⟩ := hplaces.child k hc
      simp [attach, hd, linkShadow_eq hn hs hk']
    · refine ⟨_, hid, n.sameBut_withSlot _ _, ?_⟩
      rw [Node.valueTarget?, Node.slot?_withSlot, if_pos rfl, hs]
      rfl
  | false =>
    refine ⟨w.setChild id input c, none, ?_, ?_, ?_, by simp, ?_⟩
    · simp [attach, hd, linkValue_eq hn hs hc]
    · refine h.setChild hcl hn hs hci (by rw [ancestors_of_top hid]; exact List.not_mem_nil)
        hreal ?_
      rw [role?, hc, Option.bind_some, Registry.find?_builtin]
      exact hrole
    · exact places_update hci fun _ => ⟨rfl, rfl, rfl, rfl⟩
    · refine ⟨n.withSlot input (childInSlot c), ?_, n.sameBut_withSlot _ _, ?_⟩
      · rw [Workspace.setChild, get?_update_of_ne _ hci.symm, get?_update_self, hn]
        rfl
      · rw [Node.valueTarget?, Node.slot?_withSlot, if_pos rfl, hs]
        rfl

/-- Statements that were read are attached at the end of a sequence. -/
theorem attachBody_ok {children before : List NodeId} (hi : NodeId)
    (h : Tidy .builtin w (children ++ id :: loose)) (hnd : children.Nodup)
    (hcl : ∀ c ∈ children, c ∉ loose)
    (hn : w.get? id = some n) (hs : n.slot? input = some (.statements before))
    (hreal : ∀ c ∈ children, w.IsReal c)
    (hrole : ∀ c ∈ children, w.role? .builtin c = some .statement) (hid : id < lo)
    (hlo : ∀ c ∈ children, lo ≤ c) (line : Nat) (text : List Char) :
    ∃ v, attachBody line text id input children w = .ok v ∧ Tidy .builtin v (id :: loose) ∧
      v.roots = w.roots ∧ v.nextId = w.nextId ∧ (∀ y < id, v.get? y = w.get? y) ∧
      w.AgreeOn lo hi v ∧ ∃ m, v.get? id = some m ∧ m.SameBut input n ∧
        m.slot? input = some (.statements (before ++ children)) := by
  induction children generalizing w n before with
  | nil =>
    refine ⟨w, rfl, h, rfl, rfl, fun _ _ => rfl, fun y k _ _ hk => ⟨k, hk, .refl k⟩, n, hn,
      ⟨rfl, rfl, rfl, rfl, fun _ _ => rfl⟩, ?_⟩
    rw [List.append_nil]
    exact hs
  | cons c children ih =>
    rw [List.nodup_cons] at hnd
    rw [List.forall_mem_cons] at hreal hrole hlo hcl
    have hci : c ≠ id := Nat.ne_of_gt (Nat.lt_of_lt_of_le hid hlo.1)
    have hfree : c ∉ children ++ id :: loose := by simp [hnd.1, hci, hcl.1]
    have hroot : w.parent? id = none := h.forest.parent?_of_loose (by simp)
    obtain ⟨k, hk, -⟩ := h.forest.loose_there (x := c) List.mem_cons_self
    have hlink := linkStatement_eq hn hs hk
    have htidy : Tidy .builtin (w.appendStatement id input c) (children ++ id :: loose) :=
      h.setStatement hfree hn hs hci (by rw [ancestors_of_top hroot]; exact List.not_mem_nil) _
        hreal.1 hrole.1
    have hplaces : w.Places id c none (w.appendStatement id input c) :=
      places_update hci fun _ => ⟨rfl, rfl, rfl, rfl⟩
    have hkeeps : Keeps w (w.appendStatement id input c) := .place id c input _
    have hn1 : (w.appendStatement id input c).get? id =
        some (n.withSlot input (statementInSlot before.length c)) := by
      rw [appendStatement, Workspace.setStatement, get?_update_of_ne _ hci.symm, get?_update_self,
        hn, Option.map_some, Option.elim_some, Node.statements, hs]
    have hs1 : (n.withSlot input (statementInSlot before.length c)).slot? input =
        some (.statements (before ++ [c])) := by
      rw [Node.slot?_withSlot, if_pos rfl, hs]
      simp [statementInSlot]
    -- what is still loose is as before, so the rest is attached in the same way
    have hrole1 : ∀ x ∈ children,
        (w.appendStatement id input c).role? .builtin x = some .statement := by
      intro x hx
      obtain ⟨k, hk, -⟩ := htidy.forest.loose_there (List.mem_append_left _ hx)
      rw [hkeeps.role? hk]
      exact hrole.2 x hx
    obtain ⟨v, hv, ht, hroots, hnext, hbelow, hagree, m, hm, hsame, hslot⟩ := ih htidy hnd.2 hcl.2
      hn1 hs1 (fun x hx => hkeeps.isReal (hreal.2 x hx)) hrole1 hlo.2
    refine ⟨v, ?_, ht, hroots, hnext, fun y hy => ?_, ?_, m, hm,
      hsame.trans (n.sameBut_withSlot _ _), ?_⟩
    · rw [attachBody, hlink]
      exact hv
    · rw [hbelow y hy, hplaces.below (Nat.lt_of_lt_of_le hid hlo.1) (by simp) y hy]
    · exact (hplaces.agreeOn hid (by simp)).trans hagree
    · rw [hslot, List.append_assoc]
      rfl

end Attach

/-! ## A block that is being read -/

/-- A block that is to be read, with what is to stand in its inputs. -/
structure Draft where
  kind : Kind
  fields : SortedMap String FieldValue
  mutation : Option Mutation
  value : String → Expr
  body : String → Script

namespace Draft

/-- The value inputs of a draft. -/
def values (b : Draft) : List String := b.kind.definition.shape.valueInputs b.mutation

/-- The statement inputs of a draft. -/
def bodies (b : Draft) : List String := b.kind.definition.shape.statementInputs b.mutation

/-- An input holds nothing, or a default with an id in a range. -/
structure Blank (b : Draft) (lo hi : NodeId) (n : Node) (i : String) : Prop where
  value : i ∈ b.values → ∃ shadow, n.slot? i = some (.value none shadow) ∧
    ∀ s ∈ shadow, lo < s ∧ s < hi
  body : i ∈ b.bodies → n.slot? i = some (.statements [])

/-- An input holds what is to stand there. -/
structure Filled (b : Draft) (w : Workspace) (lo hi : NodeId) (n : Node) (i : String) : Prop where
  value : i ∈ b.values → ∃ y, n.valueTarget? i = some y ∧ (b.value i).Stands w lo hi y
  body : i ∈ b.bodies → ∃ children, n.slot? i = some (.statements children) ∧
    (b.body i).Stands w lo hi children

end Draft

/-- A block is being read into the next id of `w`: the inputs that are not pending are filled, with
nodes from `lo` on, and what was there before is as it was. -/
structure Growing (b : Draft) (w : Workspace) (loose : List NodeId) (lo : NodeId)
    (pending : List String) (v : Workspace) : Prop where
  grown : w.Extends v
  tidy : Tidy .builtin v (w.nextId :: loose)
  start : w.nextId < lo
  lo_le : lo ≤ v.nextId
  node : ∃ n, v.get? w.nextId = some n ∧ n.kind = b.kind ∧ n.fields = b.fields ∧
    n.mutation = b.mutation ∧ n.shadow = false ∧ (∀ i ∈ pending, b.Blank w.nextId lo n i) ∧
    ∀ i, i ∉ pending → b.Filled v lo v.nextId n i

namespace Growing

variable {b : Draft} {loose : List NodeId} {pending : List String} {input : String} {n m : Node}
  {u : Workspace}

/-- One more input is filled. -/
theorem fill (h : Growing b w loose lo (input :: pending) v) (hinput : input ∉ pending)
    (ht : Tidy .builtin u (w.nextId :: loose)) (hroots : u.roots = v.roots)
    (hnext : v.nextId ≤ u.nextId) (hbelow : ∀ x < w.nextId, u.get? x = v.get? x)
    (hagree : v.AgreeOn lo v.nextId u) (hn : v.get? w.nextId = some n)
    (hm : u.get? w.nextId = some m) (hsame : m.SameBut input n)
    (hfilled : b.Filled u lo u.nextId m input) : Growing b w loose lo pending u where
  grown := ⟨hroots.trans h.grown.roots, Nat.le_trans h.grown.next_le hnext,
    fun x hx => (hbelow x hx).trans (h.grown.below x hx)⟩
  tidy := ht
  start := h.start
  lo_le := Nat.le_trans h.lo_le hnext
  node := by
    obtain ⟨n', hn', hkind, hfields, hmutation, hshadow, hblank, hold⟩ := h.node
    obtain rfl : n' = n := Option.some.inj (hn'.symm.trans hn)
    refine ⟨m, hm, hsame.kind.trans hkind, hsame.fields.trans hfields,
      hsame.mutation.trans hmutation, hsame.shadow.trans hshadow, fun i hi => ?_, fun i hi => ?_⟩
    · have hne : i ≠ input := fun he => hinput (he ▸ hi)
      have hi' := hblank i (List.mem_cons_of_mem _ hi)
      exact ⟨fun hv => by rw [hsame.slot? i hne]; exact hi'.value hv,
        fun hb => by rw [hsame.slot? i hne]; exact hi'.body hb⟩
    · by_cases hne : i = input
      · subst hne
        exact hfilled
      · have hi' := hold i fun hm => (List.mem_cons.mp hm).elim hne hi
        refine ⟨fun hv => ?_, fun hb => ?_⟩
        · obtain ⟨y, hy, hstands⟩ := hi'.value hv
          refine ⟨y, ?_, hstands.mono hagree (Nat.le_refl _) hnext⟩
          rw [Node.valueTarget?, hsame.slot? i hne]
          exact hy
        · obtain ⟨children, hc, hstands⟩ := hi'.body hb
          exact ⟨children, (hsame.slot? i hne).trans hc,
            hstands.mono hagree (Nat.le_refl _) hnext⟩

end Growing

/-- The inputs of a node that was just made are blank. -/
theorem Draft.blank_of_fresh (b : Draft) {n : Node} {first : NodeId}
    (hn : n.inputs = freshInputs (b.kind.definition.shape.inputsFor b.mutation) (first + 1))
    (i : String) : b.Blank first (first + 1 + (defaultNodes .builtin first
      (b.kind.definition.shape.inputsFor b.mutation) (first + 1)).length) n i := by
  have hlaid : Laid (fun spec s => (∀ name check default, spec = .value name check default →
      ∃ shadow, s = .value none shadow ∧ ∀ x ∈ shadow, first < x ∧
        x < first + 1 + (defaultNodes .builtin first
          (b.kind.definition.shape.inputsFor b.mutation) (first + 1)).length) ∧
      ∀ name, spec = .statement name → s = .statements [])
      (b.kind.definition.shape.inputsFor b.mutation) n.inputs := by
    rw [hn]
    refine forall₂_freshInputs .builtin first (fun name check s x _ hx => ?_) ?_ ?_
    · refine ⟨fun _ _ _ _ => ⟨some x, rfl, fun y hy => ?_⟩, nofun⟩
      obtain rfl : x = y := Option.some.inj hy
      have hids : x ∈ (defaultNodes .builtin first _ (first + 1)).map (·.id) :=
        List.mem_map_of_mem hx
      rw [map_id_defaultNodes, List.mem_range'_1] at hids
      exact hids
    · exact fun name check => ⟨fun _ _ _ _ => ⟨none, rfl, nofun⟩, nofun⟩
    · intro name
      refine ⟨fun _ _ _ hspec => ?_, fun _ _ => rfl⟩
      cases hspec
  refine ⟨fun hv => ?_, fun hb => ?_⟩
  · obtain ⟨check, default, hspec⟩ := Shape.mem_valueInputs.mp hv
    obtain ⟨s, hs, hfresh, -⟩ := hlaid.slot? (Kind.nodup_inputs _ _) hspec
    obtain ⟨shadow, rfl, hshadow⟩ := hfresh _ _ _ rfl
    exact ⟨shadow, hs, hshadow⟩
  · obtain ⟨s, hs, -, hfresh⟩ :=
      hlaid.slot? (Kind.nodup_inputs _ _) (Shape.mem_statementInputs.mp hb)
    rw [← hfresh _ rfl]
    exact hs

/-- The node of a block is made, with all inputs still to be filled. -/
theorem growing_make {b : Draft} {loose : List NodeId} {fields : List (String × FieldValue)}
    (h : Tidy .builtin w loose)
    (hf : fillFields b.kind.definition.shape w.nextId fields
      (defaultFields b.kind.definition.shape) = .ok b.fields)
    (hm : b.mutation.isSome = b.kind.definition.shape.isBranching) :
    ∃ v, w.make .builtin ⟨b.kind, fields, b.mutation⟩ = (v, .ok w.nextId) ∧
      Growing b w loose v.nextId (b.values ++ b.bodies) v := by
  have hmutation : b.mutation = if b.kind.definition.shape.isBranching then
      some (b.mutation.getD {}) else none := by
    rw [← hm]
    cases b.mutation <;> rfl
  have hmake := make_eq (b := ⟨b.kind, fields, b.mutation⟩) Registry.sound_builtin w
    (Registry.find?_builtin b.kind) hf hmutation
  obtain ⟨htidy, -⟩ := h.make_ok Registry.sound_builtin hmake
  have hid := w.get?_add ⟨w.nextId, b.kind, b.fields, [], none, false, none, b.mutation⟩ w.nextId
  rw [if_pos rfl] at hid
  -- the defaults get ids above that of the node, so nothing stored before changes
  have hbelow : (w.add ⟨w.nextId, b.kind, b.fields, [], none, false, none, b.mutation⟩).Below := by
    intro x n hx
    rw [get?_add] at hx
    split at hx
    · next he => exact he ▸ Nat.lt_succ_self _
    · exact Nat.lt_succ_of_lt (h.conforms.stored x n hx).2
  have hget := get?_furnish .builtin (b.kind.definition.shape.inputsFor b.mutation) id hbelow hid
  have hlast : w.nextId + 1 ≤ ((w.add ⟨w.nextId, b.kind, b.fields, [], none, false, none,
      b.mutation⟩).furnish .builtin w.nextId (b.kind.definition.shape.inputsFor b.mutation)
        id).nextId := by
    rw [nextId_furnish]
    exact Nat.le_add_right _ _
  refine ⟨_, hmake, ⟨?_, ?_, ?_⟩, htidy, ?_, Nat.le_refl _, ?_⟩
  · exact roots_addAll _ _
  · exact Nat.le_of_succ_le hlast
  · intro x hx
    refine Option.ext fun m => ?_
    rw [hget, get?_add, if_neg (Nat.ne_of_lt hx)]
    constructor
    · rintro (⟨rfl, -⟩ | ⟨hm, rfl⟩ | ⟨-, hm⟩)
      · exact absurd hx (Nat.lt_irrefl _)
      · have := (mem_ids_defaultNodes (List.mem_map_of_mem hm)).1
        exact absurd hx (Nat.not_lt.mpr (Nat.le_of_succ_le this))
      · exact hm
    · exact fun hm => .inr (.inr ⟨Nat.ne_of_lt hx, hm⟩)
  · exact hlast
  · refine ⟨_, (hget w.nextId _).mpr (.inl ⟨rfl, rfl⟩), rfl, rfl, rfl, rfl, fun i _ => ?_,
      fun i hi => ?_⟩
    · rw [nextId_furnish, nextId_add]
      exact b.blank_of_fresh rfl i
    · rw [List.mem_append, not_or] at hi
      exact ⟨fun hv => absurd hv hi.1, fun hb => absurd hb hi.2⟩

theorem Tidy.nextId_not_mem {loose : List NodeId} (h : Tidy .builtin w loose) :
    w.nextId ∉ loose := by
  intro hm
  obtain ⟨n, hn, -⟩ := h.forest.loose_there hm
  exact Nat.lt_irrefl _ (h.conforms.stored _ n hn).2

/-! ## Reading expressions -/

/-- An expression was read into the next id, as one more loose node. -/
structure Expr.Reads (e : Expr) (w : Workspace) (loose : List NodeId) (v : Workspace) : Prop where
  grown : w.Extends v
  tidy : Tidy .builtin v (w.nextId :: loose)
  real : v.IsReal w.nextId
  stands : e.Stands v w.nextId v.nextId w.nextId

/-- An expression whose block is a value stands at one. -/
theorem Expr.Stands.value {e : Expr} (h : e.Stands w lo hi x) (hp : e.Valued) :
    lo ≤ x ∧ x < hi ∧ ∃ k, w.get? x = some k ∧ k.kind.definition.shape.role.isValue = true := by
  cases e with
  | absent => exact h.elim
  | block kind fields operand =>
    obtain ⟨hlo, hhi, n, hn, rfl, -⟩ := h
    exact ⟨hlo, hhi, n, hn, hp⟩

namespace Growing

variable {b : Draft} {loose : List NodeId} {pending : List String} {input : String}

theorem nodup_inputs (b : Draft) : (b.values ++ b.bodies).Nodup :=
  Shape.nodup_valueInputs_append (Kind.nodup_inputs _ _)

/-- What was read for a value input is attached to it. -/
theorem attach (h : Growing b w loose lo (input :: pending) v) (hinput : input ∉ pending)
    (hvalue : input ∈ b.values) (hvalued : (b.value input).Valued) {u : Workspace}
    (hread : (b.value input).Reads v (w.nextId :: loose) u) (line : Nat) (source : List Char) :
    ∃ u', Program.attach u line w.nextId input source v.nextId = .ok u' ∧
      Growing b w loose lo pending u' := by
  obtain ⟨n, hn, -, -, -, -, hblank, -⟩ := h.node
  obtain ⟨shadow, hslot, hshadow⟩ := (hblank input List.mem_cons_self).value hvalue
  have hid : w.nextId < v.nextId := Nat.lt_of_lt_of_le h.start h.lo_le
  have hn' : u.get? w.nextId = some n := (hread.grown.below _ hid).trans hn
  obtain ⟨-, -, k, hk, hrole⟩ := hread.stands.value hvalued
  obtain ⟨u', gone, hattach, htidy, hplaces, hgone, m, hm, hsame, htarget⟩ :=
    attach_ok hread.tidy h.tidy.nextId_not_mem hn' hslot hk hrole hread.real line source
  have hnext : v.nextId ≤ u'.nextId :=
    Nat.le_trans hread.grown.next_le (Nat.le_of_eq hplaces.next.symm)
  refine ⟨u', hattach, h.fill hinput htidy (hplaces.roots.trans hread.grown.roots) hnext
    (fun x hx => ?_) ?_ hn hm hsame ⟨fun _ => ?_, fun hb => ?_⟩⟩
  · rw [hplaces.below hid (fun s hs => (hshadow s (hgone s hs)).1) x hx,
      hread.grown.below x (Nat.lt_trans hx hid)]
  · exact (hread.grown.agreeOn lo).trans
      (hplaces.agreeOn h.start fun s hs => (hshadow s (hgone s hs)).2)
  · refine ⟨v.nextId, htarget, hread.stands.mono (hplaces.agreeOn hid fun s hs => ?_) h.lo_le
      (Nat.le_of_eq hplaces.next.symm)⟩
    exact Nat.lt_of_lt_of_le (hshadow s (hgone s hs)).2 h.lo_le
  · exact absurd hb ((List.nodup_append'.mp (nodup_inputs b)).2.2 hvalue)

/-- All value inputs are read and attached. -/
theorem attachAll (read : Nat → List Char → Workspace → Except Failure (Workspace × NodeId))
    {inputs : List String} (h : Growing b w loose lo (inputs ++ pending) v)
    (hnd : (inputs ++ pending).Nodup) (hvalues : ∀ i ∈ inputs, i ∈ b.values)
    (hvalued : ∀ i ∈ inputs, (b.value i).Valued)
    (hread : ∀ i ∈ inputs, ∀ line u ls, Tidy .builtin u ls →
      ∃ u', read line (b.value i).text u = .ok (u', u.nextId) ∧ (b.value i).Reads u ls u')
    (lineOf : List Char → Nat) :
    ∃ u, Program.attachAll read lineOf w.nextId (inputs.map fun i => (i, (b.value i).text)) v =
      .ok u ∧ Growing b w loose lo pending u := by
  induction inputs generalizing v with
  | nil => exact ⟨v, rfl, h⟩
  | cons input inputs ih =>
    rw [List.cons_append, List.nodup_cons] at hnd
    rw [List.forall_mem_cons] at hvalues hvalued hread
    obtain ⟨u, hu, hreads⟩ :=
      hread.1 (lineOf (b.value input).text) v (w.nextId :: loose) h.tidy
    obtain ⟨u', hu', hgrowing⟩ := h.attach hnd.1 hvalues.1 hvalued.1 hreads
      (lineOf (b.value input).text) (b.value input).text
    obtain ⟨u'', hu'', hdone⟩ := ih hgrowing hnd.2 hvalues.2 hvalued.2 hread.2
    refine ⟨u'', ?_, hdone⟩
    rw [List.map_cons, Program.attachAll]
    simp only [hu, hu', bind, Except.bind]
    exact hu''

end Growing

/-- A value has no statement inputs. -/
theorem Kind.statementInputs_value {kind : Kind} (h : kind.definition.shape.role.isValue = true) :
    kind.definition.shape.statementInputs none = [] := by
  cases kind with
  | mathNumber | text | logicBoolean | logicCompare | logicOperation | logicNegate
  | mathArithmetic | mathRandom | buttonIsPressed | temperature | acceleration | variablesGet => rfl
  | _ => cases h

/-- The shape of a value is the same for every block. -/
theorem Kind.isBranching_value {kind : Kind} (h : kind.definition.shape.role.isValue = true) :
    kind.definition.shape.isBranching = false := by
  cases kind with
  | ifElse => cases h
  | _ => rfl

/-- A value with all its operands was read. -/
theorem Growing.reads {kind : Kind} {fields : SortedMap String FieldValue}
    {operand : String → Expr} {loose : List NodeId}
    (h : Growing ⟨kind, fields, none, operand, fun _ => .done⟩ w loose lo [] v) :
    (Expr.block kind fields operand).Reads w loose v := by
  obtain ⟨n, hn, hkind, hfields, hmutation, hshadow, -, hfilled⟩ := h.node
  refine ⟨h.grown, h.tidy, isReal_of_get? hn hshadow, Nat.le_refl _,
    Nat.lt_of_lt_of_le h.start h.lo_le, n, hn, hkind, hfields, hmutation, fun i hi => ?_⟩
  obtain ⟨y, hy, hstands⟩ := (hfilled i List.not_mem_nil).value hi
  exact ⟨y, hy, hstands.mono (fun x m _ _ hm => ⟨m, hm, .refl m⟩) (Nat.le_of_lt h.start)
    (Nat.le_refl _)⟩

/-- An expression is read back from its text. -/
theorem Expr.read_ok {e : Expr} (h : e.Proper) {depth : Nat} (hdepth : e.text.length < depth)
    {loose : List NodeId} (ht : Tidy .builtin w loose) (line : Nat) :
    ∃ v, readExpressionUpTo .builtin depth line e.text w = .ok (v, w.nextId) ∧
      e.Reads w loose v := by
  induction e generalizing depth w loose line with
  | absent => exact h.elim
  | block kind fields operand ih =>
    have htrim := h.term.trimmed.trim
    obtain ⟨hrole, hadmits, hplain, hoperands⟩ := h
    have hphrase := phrase kind hrole (p := shownParts kind fields none
      (fun i => (operand i).text) fun _ => []) rfl hadmits hplain
      fun i hi => (hoperands i hi).term
    obtain ⟨e, hfound, hgives⟩ := hphrase.found
    obtain ⟨depth, rfl⟩ : ∃ d, depth = d + 1 := ⟨depth - 1, by omega⟩
    let b : Draft := ⟨kind, fields, none, operand, fun _ => .done⟩
    -- the depth is a bound on the length of the text, and an operand is shorter than its block
    have hshorter : ∀ i ∈ b.values, (b.value i).text.length < depth := by
      intro i hi
      have hlt : (operand i).text.length < (block kind fields operand).text.length :=
        length_value_lt (p := shownParts kind fields none (fun i => (operand i).text) fun _ => [])
          kind hrole hi
      exact Nat.lt_of_lt_of_le hlt (Nat.le_of_lt_succ hdepth)
    obtain ⟨v, hmake, hgrowing⟩ := growing_make (b := b) ht (hgives.fields _)
      (by rw [kind.isBranching_value hrole]; rfl)
    replace hmake : w.make .builtin ⟨kind, e.fields, none⟩ = (v, .ok w.nextId) := hmake
    have hpending : b.values ++ b.bodies = b.values ++ [] :=
      congrArg (b.values ++ ·) (kind.statementInputs_value hrole)
    have hnd := Growing.nodup_inputs b
    rw [hpending] at hgrowing hnd
    obtain ⟨u, hattach, hdone⟩ := hgrowing.attachAll (readExpressionUpTo .builtin depth) hnd
      (fun _ hi => hi) (fun i hi => (hoperands i hi).valued)
      (fun i hi line u ls hu => ih i (hoperands i hi) (hshorter i hi) hu line) fun _ => line
    refine ⟨u, ?_, hdone.reads⟩
    have hmutation : e.mutation = none := hgives.mutation
    have hvalues : e.values = b.values.map fun i => (i, (b.value i).text) := hgives.values
    rw [readExpressionUpTo]
    simp only [htrim]
    rw [text, hfound]
    simp only [hmutation, hmake, hvalues, Kind.kind_definition]
    rw [hattach]
    rfl

end BlockText

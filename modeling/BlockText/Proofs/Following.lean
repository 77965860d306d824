import BlockText.Proofs.History

/-!
# Following a workspace by its events

An observer that is told the events of the edits and nothing else can keep a picture of the tree:
the roots in their order, and the parent of every node that is no default. Each edit keeps the
picture true, so it is true after every history of edits. The slots in which the nodes stand, and
the defaults, are not in the picture: no event names them.
-/

namespace BlockText

/-! ## What an observer keeps -/

/-- The roots in order, and the parents of the nodes that were told of. -/
structure Sight where
  roots : List NodeId := []
  parents : SortedMap NodeId (Option NodeId) := .empty

namespace Sight

/-- Some nodes come after the other roots and have no parent. -/
def addRoots (s : Sight) (ids : List NodeId) : Sight :=
  ⟨s.roots ++ ids, ids.foldl (fun m id => m.insert id none) s.parents⟩

/-- A node is no root and has a parent. -/
def hang (s : Sight) (id parent : NodeId) : Sight :=
  ⟨s.roots.filter (· ≠ id), s.parents.insert id (some parent)⟩

/-- Some nodes are gone. -/
def forget (s : Sight) (ids : List NodeId) : Sight :=
  ⟨s.roots.filter fun id => !ids.contains id, ids.foldl (fun m id => m.erase id) s.parents⟩

/-- What an observer makes of an event. -/
def hear (s : Sight) : Event → Sight
  | .created id _ => s.addRoots [id]
  | .reconnected id none => s.addRoots [id]
  | .reconnected id (some (parent, _)) => s.hang id parent
  | .deleted ids => s.forget ids
  | .shapeChanged _ _ _ detached => s.addRoots detached
  | .fieldChanged _ _ | .replaced _ => s

end Sight

namespace Workspace

/-- The parent of a node that is no default, as far as it has one. -/
def seen? (w : Workspace) (x : NodeId) : Option (Option NodeId) :=
  ((w.get? x).filter fun n => !n.shadow).map (·.parent)

end Workspace

/-- The picture is true of a workspace: it has the roots in their order, it knows the nodes that are
no defaults, and it knows their parents. -/
structure Sight.Shows (s : Sight) (w : Workspace) : Prop where
  roots : s.roots = w.roots
  parents : ∀ x, s.parents.get? x = w.seen? x

namespace Sight.Shows

variable {s : Sight} {w v : Workspace} {id parent : NodeId} {ids : List NodeId}

theorem get?_foldl_insert (ids : List NodeId) (m : SortedMap NodeId (Option NodeId)) (x : NodeId) :
    (ids.foldl (fun m id => m.insert id none) m).get? x =
      if x ∈ ids then some none else m.get? x := by
  induction ids generalizing m with
  | nil => simp
  | cons id ids ih =>
    rw [List.foldl_cons, ih, SortedMap.get?_insert]
    by_cases hx : x = id
    · simp [hx]
    · simp [hx]

theorem addRoots (h : s.Shows w) (hr : v.roots = w.roots ++ ids)
    (hp : ∀ x, v.seen? x = if x ∈ ids then some none else w.seen? x) :
    (s.addRoots ids).Shows v where
  roots := by rw [Sight.addRoots, h.roots, hr]
  parents := by
    intro x
    rw [Sight.addRoots, get?_foldl_insert, h.parents, hp]

theorem hang (h : s.Shows w) (hr : v.roots = w.roots.filter (· ≠ id))
    (hp : ∀ x, v.seen? x = if x = id then some (some parent) else w.seen? x) :
    (s.hang id parent).Shows v where
  roots := by rw [Sight.hang, h.roots, hr]
  parents := by
    intro x
    rw [Sight.hang, SortedMap.get?_insert, h.parents, hp]

theorem forget (h : s.Shows w) (hr : v.roots = w.roots.filter fun id => !ids.contains id)
    (hp : ∀ x, v.seen? x = if x ∈ ids then none else w.seen? x) : (s.forget ids).Shows v where
  roots := by rw [Sight.forget, h.roots, hr]
  parents := by
    intro x
    rw [Sight.forget, SortedMap.get?_foldl_erase, h.parents, hp]

theorem congr (h : s.Shows w) (hr : v.roots = w.roots) (hp : ∀ x, v.seen? x = w.seen? x) :
    s.Shows v :=
  ⟨h.roots.trans hr.symm, fun x => (h.parents x).trans (hp x).symm⟩

end Sight.Shows

/-! ## How single changes are seen -/

namespace Workspace

variable {w v : Workspace} {c p x : NodeId} {n : Node}

theorem seen?_of_get? (h : w.get? x = some n) :
    w.seen? x = if n.shadow then none else some n.parent := by
  rw [seen?, h]
  cases hs : n.shadow <;> simp [Option.filter, hs]

theorem seen?_of_none (h : w.get? x = none) : w.seen? x = none := by
  rw [seen?, h]
  rfl

theorem seen?_congr (h : v.get? x = w.get? x) : v.seen? x = w.seen? x := by
  rw [seen?, seen?, h]

/-- A change of a node that keeps its parent and whether it is a default. -/
theorem seen?_update {f : Node → Node} (c : NodeId)
    (hf : ∀ n, (f n).parent = n.parent ∧ (f n).shadow = n.shadow) (x : NodeId) :
    (w.update c f).seen? x = w.seen? x := by
  by_cases hx : x = c
  · subst hx
    cases hn : w.get? x with
    | none => rw [seen?, seen?, get?_update_self, hn, Option.map_none]
    | some n =>
      have hget : (w.update x f).get? x = some (f n) := by rw [get?_update_self, hn, Option.map_some]
      rw [seen?_of_get? hget, seen?_of_get? hn, (hf n).1, (hf n).2]
  · exact seen?_congr (get?_update_of_ne w hx f)

/-- A node that is given another parent, or none. -/
theorem seen?_reparent (c : NodeId) (p : Option NodeId) (x : NodeId) :
    (w.update c fun n => { n with parent := p }).seen? x =
      if x = c then (w.seen? c).map fun _ => p else w.seen? x := by
  by_cases hx : x = c
  · subst hx
    rw [if_pos rfl]
    cases hn : w.get? x with
    | none => rw [seen?, seen?, get?_update_self, hn, Option.map_none]; rfl
    | some n =>
      have hget : (w.update x fun n => { n with parent := p }).get? x =
          some { n with parent := p } := by
        rw [get?_update_self, hn, Option.map_some]
      rw [seen?_of_get? hget, seen?_of_get? hn]
      cases n.shadow <;> rfl
  · rw [if_neg hx]
    exact seen?_congr (get?_update_of_ne w hx _)

theorem seen?_setChild (p : NodeId) (input : String) (c x : NodeId) :
    (w.setChild p input c).seen? x =
      if x = c then (w.seen? c).map fun _ => some p else w.seen? x := by
  have hslot := fun x => seen?_update (w := w) (f := fun n => n.withSlot input (childInSlot c)) p
    (fun _ => ⟨rfl, rfl⟩) x
  rw [setChild, seen?_reparent, hslot, hslot]

theorem seen?_setStatement (p : NodeId) (input : String) (place : Nat) (c x : NodeId) :
    (w.setStatement p input place c).seen? x =
      if x = c then (w.seen? c).map fun _ => some p else w.seen? x := by
  have hslot := fun x => seen?_update (w := w)
    (f := fun n => n.withSlot input (statementInSlot place c)) p (fun _ => ⟨rfl, rfl⟩) x
  rw [setStatement, seen?_reparent, hslot, hslot]

theorem seen?_unlink (h : w.wiring.Linked) (c x : NodeId) :
    (w.unlink c).seen? x = if x = c then (w.seen? c).map fun _ => none else w.seen? x := by
  have hget := get?_unlink h c x
  cases hn : w.get? x with
  | none =>
    rw [hn, Option.map_none] at hget
    rw [seen?_of_none hget]
    split
    · next hx => rw [← hx, seen?_of_none hn]; rfl
    · rw [seen?_of_none hn]
  | some n =>
    rw [hn, Option.map_some] at hget
    rw [seen?_of_get? hget]
    have hshadow : (dropFromNode c n).shadow = n.shadow := rfl
    by_cases hx : x = c
    · subst hx
      rw [if_pos rfl, if_pos rfl, seen?_of_get? hn, hshadow]
      cases n.shadow <;> rfl
    · rw [if_neg hx, if_neg hx, seen?_of_get? hn, hshadow]

theorem seen?_remove (ids : List NodeId) (x : NodeId) :
    (w.remove ids).seen? x = if x ∈ ids then none else w.seen? x := by
  split
  · next hx => exact seen?_of_none (by rw [get?_remove, if_pos hx])
  · next hx => exact seen?_congr (by rw [get?_remove, if_neg hx])

/-- No default is seen, so one may take the place of another. -/
theorem seen?_setShadow {id c o : NodeId} {n j k : Node} {input : String}
    (hn : w.get? id = some n) (hs : n.slot? input = some (.value none (some o)))
    (hleaf : w.IsLeaf o) (hoi : o ≠ id) (hj : w.get? o = some j) (hjs : j.shadow = true)
    (hk : w.get? c = some k) (hks : k.shadow = true) (hci : c ≠ id) (hco : c ≠ o) (x : NodeId) :
    (w.setShadow id input c).seen? x = w.seen? x := by
  rw [setShadow_eq hn hs hleaf hoi]
  by_cases hxc : x = c
  · subst hxc
    have hget : (w.swapDefault id input o x).get? x =
        some { k with parent := some id, shadow := true } := by
      rw [get?_swapDefault_node hci hco, hk]
      rfl
    rw [seen?_of_get? hk, hks, seen?_of_get? hget]
    rfl
  · rw [swapDefault, seen?_congr (get?_update_of_ne _ hxc _), seen?_remove]
    by_cases hxo : x = o
    · subst hxo
      rw [if_pos List.mem_cons_self, seen?_of_get? hj, hjs]
      rfl
    · rw [if_neg (by simpa using hxo)]
      exact seen?_update (f := fun n => n.withSlot input (shadowInSlot c)) id
        (fun _ => ⟨rfl, rfl⟩) x

theorem seen?_moveToTop (h : w.wiring.Linked) (c x : NodeId) :
    (w.moveToTop c).seen? x = if x = c then (w.seen? c).map fun _ => none else w.seen? x :=
  seen?_unlink h c x

/-- Defaults are not seen, so fresh inputs are not. -/
theorem seen?_furnish (r : Registry) (specs : List InputSpec) {f : Node → Node} (hlt : w.Below)
    (hn : w.get? c = some n) (hf : ∀ n, (f n).parent = n.parent ∧ (f n).shadow = n.shadow)
    (x : NodeId) : (w.furnish r c specs f).seen? x = w.seen? x := by
  have hget := get?_furnish r specs f hlt hn x
  by_cases hx : x = c
  · subst hx
    rw [seen?_of_get? ((hget _).mpr (.inl ⟨rfl, rfl⟩)), seen?_of_get? hn]
    show (if (f n).shadow then none else some (f n).parent) = _
    rw [(hf n).1, (hf n).2]
  · cases hm : w.get? x with
    | some m => exact (seen?_congr ((hget m).mpr (.inr (.inr ⟨hx, hm⟩)) |>.trans hm.symm))
    | none =>
      rw [seen?_of_none hm]
      cases hk : (w.furnish r c specs f).get? x with
      | none => exact seen?_of_none hk
      | some k =>
        rcases (hget k).mp hk with ⟨he, -⟩ | ⟨hk', -⟩ | ⟨-, hk'⟩
        · exact absurd he hx
        · obtain ⟨name, check, s, -, y, rfl⟩ := mem_defaultNodes hk'
          rw [seen?_of_get? hk]
          rfl
        · rw [hm] at hk'
          cases hk'

end Workspace

/-! ## Edits -/

open Workspace

/-- An edit whose events keep a picture true. -/
def Follows {α : Type} (w : Workspace) (e : Edited α) : Prop :=
  ∀ s : Sight, s.Shows w → (e.events.foldl Sight.hear s).Shows e.workspace

namespace Follows

variable {α β : Type} {w v : Workspace}

theorem map {e : Edited α} (h : Follows w e) (f : α → β) : Follows w (e.map f) := h

/-- An edit that changes neither the roots nor what is seen, and fires nothing that matters. -/
theorem of_same {e : Edited α} (hr : e.workspace.roots = w.roots)
    (hp : ∀ x, e.workspace.seen? x = w.seen? x)
    (he : ∀ s : Sight, e.events.foldl Sight.hear s = s) : Follows w e := by
  intro s hs
  rw [he]
  exact hs.congr hr hp

theorem refused (w : Workspace) (err : EditError) : Follows w (.refused w err : Edited α) :=
  of_same rfl (fun _ => rfl) fun _ => rfl

end Follows

namespace Tidy

variable {r : Registry} {w : Workspace} {id parent child : NodeId} {input : String}

theorem follows_create (hr : r.Sound) (h : Tidy r w) (b : Blueprint) :
    Follows w (w.create r b) := by
  rcases make_cases hr w b with ⟨e, he⟩ | ⟨e, he⟩ | ⟨d, fields, m, -, -, -, -, he⟩
  · rw [Workspace.create, he]
    exact .refused w e
  · rw [Workspace.create, he]
    exact .of_same rfl (fun _ => rfl) fun _ => rfl
  · -- the node is seen, the defaults that are made right after it are not
    generalize hn : (⟨w.nextId, b.kind, fields, [], none, false, none, m⟩ : Node) = n at he
    have hid : n.id = w.nextId := hn ▸ rfl
    have hadd := w.get?_add n
    rw [hid] at hadd
    have hself := hadd w.nextId
    rw [if_pos rfl] at hself
    have hlt : (w.add n).Below := by
      intro y k hk
      rw [hadd] at hk
      split at hk
      · next hy => exact hy ▸ Nat.lt_succ_self w.nextId
      · exact Nat.lt_succ_of_lt (h.below y k hk)
    rw [Workspace.create, he]
    intro s hs
    show (s.addRoots [w.nextId]).Shows _
    refine hs.addRoots ?_ fun x => ?_
    · exact congrArg (· ++ [w.nextId]) (roots_addAll (w.add n) _)
    · show ((w.add n).furnish r w.nextId _ id).seen? x = _
      rw [seen?_furnish (f := id) r _ hlt hself fun _ => ⟨rfl, rfl⟩]
      by_cases hx : x = w.nextId
      · subst hx
        rw [if_pos List.mem_cons_self, seen?_of_get? hself, ← hn]
        rfl
      · rw [if_neg (by simpa using hx)]
        exact seen?_congr (by rw [hadd, if_neg hx])

theorem follows_createNamed (hr : r.Sound) (h : Tidy r w) (name : String)
    (fields : List (String × FieldValue)) (mutation : Option Mutation) :
    Follows w (Edit.createNamed w r name fields mutation) := by
  unfold Edit.createNamed
  split
  · exact .refused w _
  · exact h.follows_create hr _

theorem follows_delete (h : Tidy r w) (id : NodeId) : Follows w (w.delete id) := by
  cases hnode : w.node id with
  | error e =>
    rw [Workspace.delete, hnode]
    exact .refused w e
  | ok n =>
    have hn := node_ok hnode
    by_cases hshadow : n.shadow = true
    · have : w.delete id = .refused w (.shadowEdit id) := by
        simp only [Workspace.delete, hnode, if_pos hshadow]
      exact this ▸ .refused w _
    · have : w.delete id = ⟨(w.unlink id).remove ((w.unlink id).descendants id),
          .ok ((w.unlink id).descendants id), [.deleted ((w.unlink id).descendants id)]⟩ := by
        simp only [Workspace.delete, hnode, if_neg hshadow]
      rw [this]
      intro s hs
      have hself : id ∈ (w.unlink id).descendants id := by
        obtain ⟨k, hk, -⟩ := unlink_there h.forest.linked (c := id) hn
        rw [mem_descendants (h.forest.unlink hn List.not_mem_nil).linked, hk]
        exact ⟨⟨k, rfl⟩, .inl rfl⟩
      -- the event lists the node itself, so forgetting what is listed also unlinks it
      refine hs.forget ?_ fun x => ?_
      · show (w.unlink id).roots.filter _ = _
        rw [h.forest.roots_unlink, List.filter_filter]
        refine List.filter_congr fun x _ => ?_
        by_cases hx : x = id
        · subst hx
          simp [hself]
        · simp [hx]
      · show ((w.unlink id).remove _).seen? x = _
        rw [seen?_remove]
        split
        · rfl
        · next hx =>
          have hxi : x ≠ id := fun he => hx (he ▸ hself)
          rw [seen?_unlink h.forest.linked, if_neg hxi]

/-- A node that passed the check of a move is seen. -/
theorem seen?_of_checkMove {takes : Role → Bool} {s : Slot}
    (hcheck : w.checkMove r takes parent input child = .ok s) : ∃ p, w.seen? child = some p := by
  obtain ⟨m, -, -, hm, -, hreal, -⟩ := checkMove_ok hcheck
  exact ⟨m.parent, by rw [seen?_of_get? hm, hreal]; rfl⟩

/-- A node that was in a slot moves to the end of the roots. -/
theorem shows_moveToTop (h : Tidy r w) {n : Node} (hn : w.get? id = some n)
    (hreal : n.shadow = false) (hroot : id ∉ w.roots) {s : Sight} (hs : s.Shows w) :
    (s.hear (.reconnected id none)).Shows (w.moveToTop id) := by
  have hstay : w.roots.filter (· ≠ id) = w.roots := by
    refine List.filter_eq_self.mpr fun x hx => ?_
    have hxi : x ≠ id := fun he => hroot (he ▸ hx)
    simpa using hxi
  refine hs.addRoots ?_ fun x => ?_
  · show (w.unlink id).roots ++ _ = _
    rw [h.forest.roots_unlink, hstay]
  · rw [seen?_moveToTop h.forest.linked, seen?_of_get? hn, hreal]
    by_cases hx : x = id
    · simp [hx]
    · simp [hx]

theorem follows_connectValue (h : Tidy r w) (hne : w.child? parent input ≠ some child) :
    Follows w (w.connectValue r parent input child) := by
  have hl := h.forest.linked
  cases hcheck : w.checkMove r Role.isValue parent input child with
  | error e =>
    rw [Workspace.connectValue, hcheck]
    exact .refused w e
  | ok slot =>
    obtain ⟨p, hp⟩ := seen?_of_checkMove hcheck
    cases slot with
    | statements children =>
      rw [Workspace.connectValue, hcheck]
      exact .refused w _
    | value occupant shadow =>
      cases occupant with
      | none =>
        rw [connectValue_of_vacant hl hcheck]
        intro s hs
        refine hs.hang (h.forest.roots_unlink child) fun x => ?_
        rw [seen?_setChild, seen?_unlink hl, seen?_unlink hl, if_pos rfl, hp]
        split <;> rfl
      | some displaced =>
        rw [connectValue_of_occupied hl hcheck]
        obtain ⟨-, n, -, -, hn, -, -, -, -, -, hslot⟩ := checkMove_ok hcheck
        have hdc : displaced ≠ child := by
          rintro rfl
          exact hne (child?_eq hn hslot)
        have hown : displaced ∈ n.owned := Node.owned_of_slot? hslot (by simp [Slot.owned])
        have hdp := (mem_owned_iff hl hn).mp hown
        have hdr : displaced ∉ w.roots := h.forest.not_root_of_parent hdp
        obtain ⟨k, hk, hreal⟩ := h.real_of_child hn hslot
        obtain ⟨m, -, -, hm, -⟩ := checkMove_ok hcheck
        have h1 := h.forest.unlink hm List.not_mem_nil
        intro s hs
        -- the displaced node is heard of first, so it comes after the roots in either order
        have hfirst : (s.hear (.reconnected displaced none)).Shows (w.moveToTop displaced) :=
          h.shows_moveToTop hk hreal hdr hs
        refine hfirst.hang ?_ fun x => ?_
        · show ((w.unlink child).unlink displaced).roots ++ _ =
            ((w.unlink displaced).roots ++ _).filter _
          rw [h1.roots_unlink, h.forest.roots_unlink, h.forest.roots_unlink, List.filter_append]
          congr 1
          · rw [List.filter_filter, List.filter_filter]
            refine List.filter_congr fun x _ => Bool.and_comm _ _
          · simp [hdc]
        · rw [seen?_setChild, seen?_moveToTop h1.linked, seen?_moveToTop h1.linked,
            seen?_moveToTop hl, seen?_unlink hl, seen?_unlink hl, seen?_unlink hl, if_pos rfl,
            if_neg hdc, if_neg hdc.symm, hp]
          by_cases hx : x = child
          · simp [hx]
          · simp [hx]

theorem follows_insertStatement (h : Tidy r w) (place : Nat) :
    Follows w (w.insertStatement r parent input place child) := by
  have hl := h.forest.linked
  cases hcheck : w.checkMove r (· = .statement) parent input child with
  | error e =>
    rw [Workspace.insertStatement, hcheck]
    exact .refused w e
  | ok slot =>
    obtain ⟨p, hp⟩ := seen?_of_checkMove hcheck
    cases slot with
    | value occupant shadow =>
      rw [Workspace.insertStatement, hcheck]
      exact .refused w _
    | statements children =>
      rw [insertStatement_of_statements hl hcheck]
      intro s hs
      refine hs.hang (h.forest.roots_unlink child) fun x => ?_
      rw [seen?_setStatement, seen?_unlink hl, seen?_unlink hl, if_pos rfl, hp]
      split <;> rfl

theorem follows_pushStatement (h : Tidy r w) :
    Follows w (w.pushStatement r parent input child) := by
  unfold Workspace.pushStatement
  split
  · exact .refused w _
  · exact h.follows_insertStatement _

theorem follows_detach (h : Tidy r w) (id : NodeId) : Follows w (w.detach id) := by
  unfold Workspace.detach
  split
  · exact .refused w _
  · next n hnode =>
    have hn := node_ok hnode
    split
    · exact .refused w _
    · next hreal =>
      split
      · exact .of_same rfl (fun _ => rfl) fun _ => rfl
      · next hparent =>
        intro s hs
        have hir : id ∉ w.roots := by
          intro hm
          obtain ⟨k, hk, hkp⟩ := h.forest.root_there hm
          rw [hn, Option.some.injEq] at hk
          exact hparent (hk ▸ hkp)
        exact h.shows_moveToTop hn (by simpa using hreal) hir hs

theorem follows_setField {field : String} {value : FieldValue} :
    Follows w (w.setField r id field value) := by
  unfold Workspace.setField
  split
  · exact .refused w _
  · split
    · exact .refused w _
    · split
      · exact .refused w _
      · split
        · split
          · exact .of_same rfl (fun _ => rfl) fun _ => rfl
          · exact .of_same rfl (seen?_update id fun _ => ⟨rfl, rfl⟩) fun _ => rfl
        · exact .refused w _

end Tidy

/-! ## Edits of a conditional -/

namespace Moving

variable {r : Registry} {tag? : NodeId → Option Tag} {w : Workspace} {id c : NodeId}
  {m : Mutation} {mv : Move} {ms : List Move} {rest : List NodeId}

/-- A default that waits is a leaf. -/
theorem leaf_of_tag (hr : r.Sound) (h : Moving r tag? w id m ms rest) (hc : c ∈ waiting ms rest)
    (htag : tag? c = some ⟨.logicBoolean, true⟩) :
    ∃ k, w.get? c = some k ∧ k.inputs = [] ∧ k.shadow = true := by
  obtain ⟨k, hk⟩ := h.shifting.get?_of_mem hc
  have hkt : (⟨k.kind, k.shadow⟩ : Tag) = ⟨.logicBoolean, true⟩ := by
    have := (h.tags c hc).trans htag
    rw [Workspace.tag?, hk, Option.map_some] at this
    exact Option.some.inj this
  have hget : (w.loosen (waiting ms rest)).get? c = some { k with parent := none } := by
    rw [get?_loosen, hk, Option.map_some, if_pos hc]
  obtain ⟨l, hl, -⟩ := h.tidy.conforms.described c _ hget
  obtain ⟨n, d, -, hd, hlayout, -⟩ := h.layout
  have hkind : k.kind = .logicBoolean := congrArg Tag.kind hkt
  obtain ⟨hfixed, -⟩ := hr.plainConditions n.kind d l hd hlayout (hkind ▸ hl)
  have hlaid := h.tidy.conforms.slots c _ l hget hl
  simp only [Shape.inputsFor, hfixed] at hlaid
  exact ⟨k, hk, List.forall₂_nil_left_iff.mp hlaid, congrArg Tag.shadow hkt⟩

/-- A node that waits already names the conditional, so hanging it there is not seen. -/
theorem seen?_named (h : Moving r tag? w id m ms rest) (hc : c ∈ waiting ms rest) :
    ((w.seen? c).map fun _ => some id) = w.seen? c := by
  obtain ⟨k, hk, hkp⟩ := Option.bind_eq_some_iff.mp (h.shifting.named c hc)
  rw [seen?_of_get? hk, hkp]
  cases k.shadow <;> rfl

/-- Of the moves only a release is seen. -/
theorem seen?_carry (hr : r.Sound) (h : Moving r tag? w id m (mv :: ms) rest) (x : NodeId) :
    (w.carry id mv).seen? x = if mv.released? = some x then some none else w.seen? x := by
  have hmv := h.ready mv List.mem_cons_self
  have hc : mv.node ∈ waiting (mv :: ms) rest := List.mem_cons_self
  cases mv with
  | shadow input c =>
    obtain ⟨-, htag, -⟩ := hmv
    obtain ⟨k, hk, -, hks⟩ := h.leaf_of_tag hr hc htag
    obtain ⟨n, s, hn, hslot, o, rfl, hleaf⟩ := h.shifting.slot_of_move rfl
    have hoo : o ∈ n.owned := Node.owned_of_slot? hslot (by simp [Slot.owned])
    obtain ⟨j, hget, -, hjs⟩ :=
      h.tidy.leaf_of_default hr (h.shifting.get?_loosen_self hn) hslot
    rw [get?_loosen] at hget
    obtain ⟨j, hj, rfl⟩ := Option.map_eq_some_iff.mp hget
    rw [if_neg (h.shifting.owned_not_mem hn hoo)] at hjs
    simp only [Move.node] at hk
    exact seen?_setShadow hn hslot hleaf (h.shifting.owned_ne_self hn hoo) hj hjs hk hks
      h.shifting.node_ne_self (fun he => h.shifting.owned_not_mem hn hoo (he ▸ hc)) x
  | value input c =>
    show (w.setChild id input c).seen? x = w.seen? x
    rw [seen?_setChild]
    split
    · next hx =>
      rw [hx]
      exact h.seen?_named hc
    · rfl
  | statement input c =>
    show (w.appendStatement id input c).seen? x = w.seen? x
    rw [appendStatement, seen?_setStatement]
    split
    · next hx =>
      rw [hx]
      exact h.seen?_named hc
    · rfl
  | release c =>
    -- no default is released, so the node was seen before
    obtain ⟨k, hk⟩ := h.shifting.get?_of_mem hc
    have hreal : k.shadow = false := by
      have hmv : (tag? c).any (fun t => t.shadow) = false := hmv
      rw [← h.tags c hc, Workspace.tag?, show w.get? c = some k from hk] at hmv
      simpa using hmv
    show (w.pushRoot c).seen? x = _
    rw [pushRoot, show w.get? c = some k from hk]
    show (w.update c fun n => { n with parent := none }).seen? x = _
    rw [seen?_reparent, seen?_of_get? (show w.get? c = some k from hk), hreal]
    by_cases hx : x = c
    · simp [hx, Move.released?]
    · simp [hx, Ne.symm hx, Move.released?]
  | discard c =>
    -- only a default is discarded, and it owns nothing
    obtain ⟨k, hk, hki, hks⟩ := h.leaf_of_tag hr hc hmv
    simp only [Move.node] at hk
    have hdesc : w.descendants c = [c] := by
      simp [descendants, descendantsUpTo, hk, Node.owned, hki]
    show (w.remove (w.descendants c)).seen? x = w.seen? x
    rw [hdesc, seen?_remove]
    split
    · next hx =>
      rw [List.mem_singleton.mp hx, seen?_of_get? hk, hks]
      rfl
    · rfl

theorem seen?_run (hr : r.Sound) (h : Moving r tag? w id m ms rest) (x : NodeId) :
    (ms.foldl (Workspace.carry id) w).seen? x =
      if x ∈ ms.filterMap Move.released? then some none else w.seen? x := by
  induction ms generalizing w with
  | nil => rfl
  | cons mv ms ih =>
    rw [List.foldl_cons, ih (h.carry hr), h.seen?_carry hr, List.filterMap_cons]
    cases hmv : mv.released? with
    | none => simp
    | some y =>
      by_cases hx : x = y
      · simp [hx]
      · simp [hx, Ne.symm hx]

end Moving

namespace Tidy

variable {r : Registry} {w : Workspace} {id : NodeId}

/-- What an edit of a conditional releases is heard of in the order of the new roots. -/
theorem follows_reshaping (hr : r.Sound) (h : Tidy r w) {e : Edited (List NodeId)}
    (he : Reshaping r w id e) : Follows w e := by
  cases he with
  | refused err => exact .refused w err
  | same => exact .of_same rfl (fun _ => rfl) fun _ => rfl
  | @changed n old target ms _ he =>
    rw [he.outcome]
    intro s hs
    refine hs.addRoots (he.shifting.roots_run.trans ?_) fun x => ?_
    · exact congrArg (· ++ _) (roots_addAll w _)
    · rw [(h.moving hr he).seen?_run hr]
      have hfresh := seen?_furnish (f := fun n => { n with mutation := some target }) r
        (Conditional.inputs target) h.below he.node (fun _ => ⟨rfl, rfl⟩) x
      rw [refurnish, hfresh]

/-! ## The rules -/

theorem follows_deleteAll (h : Tidy r w) (ids : List NodeId) :
    Follows w (Rules.deleteAll ids w) := by
  induction ids generalizing w with
  | nil => exact .of_same rfl (fun _ => rfl) fun _ => rfl
  | cons id ids ih =>
    intro s hs
    show ((w.delete id).events ++ _ |>.foldl Sight.hear s).Shows _
    rw [List.foldl_append]
    exact ih (h.delete id) _ (h.follows_delete id s hs)

theorem shows_pruneKind {p : Rules.Pruned} {s : Sight} (h : Tidy r p.workspace)
    (hs : (p.events.foldl Sight.hear s).Shows p.workspace) (kind : Kind) :
    ((Rules.pruneKind p kind).events.foldl Sight.hear s).Shows (Rules.pruneKind p kind).workspace := by
  unfold Rules.pruneKind
  split
  · show (p.events ++ _ |>.foldl Sight.hear s).Shows _
    rw [List.foldl_append]
    exact h.follows_deleteAll _ _ hs
  · exact hs

theorem follows_normalize (h : Tidy r w) (rules : Rules) : Follows w (rules.normalize w) := by
  intro s hs
  have hrun : ∀ (kinds : List Kind) (p : Rules.Pruned), Tidy r p.workspace →
      (p.events.foldl Sight.hear s).Shows p.workspace →
      ((kinds.foldl Rules.pruneKind p).events.foldl Sight.hear s).Shows
        (kinds.foldl Rules.pruneKind p).workspace := by
    intro kinds
    induction kinds with
    | nil => exact fun p _ hp => hp
    | cons kind kinds ih =>
      intro p ht hp
      have hkept := Rules.pruneKind_keeps (I := Tidy r) (fun _ id hw => hw.delete id) ht kind
      exact ih _ hkept (shows_pruneKind ht hp kind)
  have hpruned := hrun (Kind.ordered rules.singletons) ⟨w, [], [], []⟩ h hs
  -- the rest of the rules sets flags, which no picture shows
  have hflags := rules.reflagged_normalize w
  obtain ⟨flag, hflag⟩ := hflags.nodes
  refine hpruned.congr hflags.roots fun x => ?_
  rw [seen?, hflag]
  show _ = ((Rules.prune rules.singletons w).workspace).seen? x
  rw [seen?]
  cases (Rules.prune rules.singletons w).workspace.get? x with
  | none => rfl
  | some n => cases hn : n.shadow <;> simp [Option.filter, hn]

end Tidy

/-! ## Histories -/

/-- The events of a change. -/
def Change.events (r : Registry) (w : Workspace) : Change → List Event
  | edit e => (e.run r w).events
  | normalize rules => (rules.normalize w).events

/-- The workspaces that regular changes make of the empty one, with all events on the way. -/
inductive Watched (r : Registry) : Workspace → List Event → Prop
  | start : Watched r {} []
  | step {w v : Workspace} {events : List Event} (c : Change) : Watched r w events →
      c.Regular w → c.run? r w = some v → Watched r v (events ++ c.events r w)

theorem Watched.change {r : Registry} {w : Workspace} {events : List Event} (c : Change)
    (h : Watched r w events) (hc : c.Regular w)
    (hcounts : (c.run? r w).isSome = true := by decide +kernel) :
    Watched r (c.run r w) (events ++ c.events r w) := by
  obtain ⟨v, hv⟩ := Option.isSome_iff_exists.mp hcounts
  rw [Change.run_of_run? hv]
  exact .step c h hc hv

theorem Watched.history {r : Registry} {w : Workspace} {events : List Event}
    (h : Watched r w events) : History r w := by
  induction h with
  | start => exact .start
  | step c _ hc hrun ih => exact .step c ih hc hrun

/-- One regular change keeps a picture true. -/
theorem Sight.Shows.change {r : Registry} {w : Workspace} (hr : r.Sound) (h : Tidy r w) {s : Sight}
    (hs : s.Shows w) (c : Change) (hc : c.Regular w) :
    ((c.events r w).foldl Sight.hear s).Shows (c.run r w) := by
  have hplain := hr.plainConditions
  cases c with
  | normalize rules => exact h.follows_normalize rules s hs
  | edit e =>
    cases e with
    | create kind fields mutation => exact h.follows_createNamed hr kind fields mutation s hs
    | connectValue parent input child => exact h.follows_connectValue hc s hs
    | pushStatement parent input child => exact h.follows_pushStatement s hs
    | insertStatement parent input place child => exact h.follows_insertStatement place s hs
    | detach node => exact h.follows_detach node s hs
    | delete node => exact h.follows_delete node s hs
    | setField node field value => exact Tidy.follows_setField s hs
    | addBranch node => exact h.follows_reshaping hr (.addBranch hplain h.forest h.below) s hs
    | removeBranch node index =>
      exact h.follows_reshaping hr (.removeBranch hplain h.forest h.below index) s hs
    | addElse node => exact h.follows_reshaping hr (.addElse hplain h.forest h.below) s hs
    | removeElse node => exact h.follows_reshaping hr (.removeElse hplain h.forest h.below) s hs
    | reshape node target =>
      exact h.follows_reshaping hr (.reshape hplain h.forest h.below target) s hs
    | load document => exact hc.elim

theorem Watched.shows {r : Registry} (hr : r.Sound) {w : Workspace} {events : List Event}
    (h : Watched r w events) : (events.foldl Sight.hear {}).Shows w := by
  induction h with
  | start => exact ⟨rfl, fun _ => rfl⟩
  | step c hw hc hrun ih =>
    rw [List.foldl_append, ← Change.run_of_run? hrun]
    exact ih.change hr (hw.history.tidy hr) c hc

theorem Workspace.seen?_eq_some {w : Workspace} {x : NodeId} {p : Option NodeId} :
    w.seen? x = some p ↔ ∃ n, w.get? x = some n ∧ n.shadow = false ∧ n.parent = p := by
  simp [seen?, Option.filter_eq_some_iff, and_assoc]

/-- With the built-in catalogue, whatever regular changes were made, as long as ids and counts last:
an observer that is told the events and nothing else holds the roots in their order, the nodes that
are no defaults, and the parent of each of them. -/
theorem events_show_workspace {w : Workspace} {events : List Event}
    (h : Watched .builtin w events) :
    (events.foldl Sight.hear {}).roots = w.roots ∧
      ∀ x p, (events.foldl Sight.hear {}).parents.get? x = some p ↔
        ∃ n, w.get? x = some n ∧ n.shadow = false ∧ n.parent = p := by
  have hs := h.shows Registry.sound_builtin
  refine ⟨hs.roots, fun x p => ?_⟩
  rw [hs.parents, seen?_eq_some]

/-- A condition is displaced by another, which moves to the top level when its branch goes; the
first one is deleted. -/
theorem events_show_branch_removed :
    ∃ w events, Watched .builtin w events ∧ w.roots = [0, 6] ∧
      (events.foldl Sight.hear {}).roots = w.roots ∧
      ∀ x p, (events.foldl Sight.hear {}).parents.get? x = some p ↔
        ∃ n, w.get? x = some n ∧ n.shadow = false ∧ n.parent = p := by
  have h1 : Watched .builtin _ _ :=
    .change (.edit (.create "if_else" [] (some ⟨1, false⟩))) .start trivial
  have h2 := h1.change (.edit (.create "logic_compare" [] none)) trivial
  have h3 := h2.change (.edit (.connectValue 0 "IF1" 3))
    (show Workspace.child? _ 0 "IF1" ≠ some 3 by decide +kernel)
  have h4 := h3.change (.edit (.create "logic_compare" [] none)) trivial
  have h5 := h4.change (.edit (.connectValue 0 "IF1" 6))
    (show Workspace.child? _ 0 "IF1" ≠ some 6 by decide +kernel)
  have h6 := h5.change (.edit (.removeBranch 0 1)) trivial
  have h7 := h6.change (.edit (.delete 3)) trivial
  exact ⟨_, _, h7, by decide +kernel, events_show_workspace h7⟩

end BlockText

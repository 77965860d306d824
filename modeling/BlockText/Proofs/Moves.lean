import BlockText.Proofs.Inputs
import BlockText.Workspace.Branch

/-!
# The moves of a conditional

A change of mutation gives a conditional fresh inputs at once. From then on what hung on the old
branches still names the conditional as its parent, but stands in none of its slots. It waits: it
moves into a new slot, to the top level or out of the workspace, one node after the other. In
between the workspace is a forest if the nodes that wait are read as loose ones. So no move is
refused, and a node that was moved into a slot stands there to the end.
-/

namespace BlockText

open Wiring

/-! ## Changes of a workspace with nodes that wait -/

namespace Workspace

variable {w v : Workspace} {c : NodeId} {ids : List NodeId}

theorem eq_of_get? (h : ∀ x, v.get? x = w.get? x) (hr : v.roots = w.roots)
    (hn : v.nextId = w.nextId) : v = w := by
  cases v with
  | mk nodes roots nextId =>
    cases w with
    | mk nodes' roots' nextId' =>
      cases hr
      cases hn
      rw [SortedMap.ext (m := nodes) (n := nodes') h]

/-- A change of a node that is not pending. -/
theorem loosen_update {f : Node → Node} (hc : c ∉ ids) :
    (w.update c f).loosen ids = (w.loosen ids).update c f := by
  refine eq_of_get? (fun x => ?_) rfl rfl
  rw [get?_loosen, get?_update, get?_update, get?_loosen, get?_loosen]
  by_cases hx : x = c
  · subst hx
    cases w.get? x <;> simp [hc]
  · simp [hx]

/-- A change that gives a pending node a parent. -/
theorem loosen_update_cons {f : Node → Node} (hc : c ∉ ids)
    (hf : ∀ n, f { n with parent := none } = f n) :
    (w.update c f).loosen ids = (w.loosen (c :: ids)).update c f := by
  refine eq_of_get? (fun x => ?_) rfl rfl
  rw [get?_loosen, get?_update, get?_update, get?_loosen, get?_loosen]
  by_cases hx : x = c
  · subst hx
    cases w.get? x <;> simp [hc, hf]
  · simp [hx]

/-- Nodes that go may as well have been pending. -/
theorem loosen_remove {xs ids' : List NodeId} (hids : ∀ x ∉ xs, (x ∈ ids ↔ x ∈ ids')) :
    (w.remove xs).loosen ids = (w.loosen ids').remove xs := by
  refine eq_of_get? (fun x => ?_) rfl rfl
  rw [get?_loosen, get?_remove, get?_remove, get?_loosen]
  by_cases hx : x ∈ xs
  · simp [hx]
  · simp [hx, hids x hx]

/-- A node that waits becomes a root. -/
theorem loosen_pushRoot {k : Node} (hk : w.get? c = some k) (hc : c ∉ ids) :
    (w.pushRoot c).loosen ids = { w.loosen (c :: ids) with roots := w.roots ++ [c] } := by
  have hpush : w.pushRoot c =
      { w.update c fun n => { n with parent := none } with roots := w.roots ++ [c] } := by
    simp [pushRoot, hk]
  refine eq_of_get? (fun x => ?_) (by rw [hpush]; rfl) (by rw [hpush]; rfl)
  show _ = (w.loosen (c :: ids)).get? x
  rw [get?_loosen, get?_loosen, hpush]
  show (((w.update c _).get? x).map _) = _
  rw [get?_update]
  by_cases hx : x = c
  · subst hx
    simp [hk, hc]
  · simp [hx]

theorem descendantsUpTo_loosen (ids : List NodeId) (bound : Nat) (x : NodeId) :
    (w.loosen ids).descendantsUpTo bound x = w.descendantsUpTo bound x := by
  induction bound generalizing x with
  | zero => rfl
  | succ bound ih =>
    rw [descendantsUpTo, descendantsUpTo, get?_loosen]
    cases w.get? x with
    | none => rfl
    | some n =>
      have howned : (if x ∈ ids then { n with parent := none } else n).owned = n.owned := by
        split <;> rfl
      simp only [Option.map_some, howned]
      rw [show (w.loosen ids).descendantsUpTo bound = w.descendantsUpTo bound from funext ih]

theorem descendants_loosen (ids : List NodeId) (x : NodeId) :
    (w.loosen ids).descendants x = w.descendants x := by
  have hsize : (w.loosen ids).size = w.size := by
    simp [size, SortedMap.size, loosen, SortedMap.map]
  rw [descendants, descendants, hsize, descendantsUpTo_loosen]

theorem tag?_loosen (ids : List NodeId) (x : NodeId) : (w.loosen ids).tag? x = w.tag? x := by
  rw [tag?, tag?, get?_loosen]
  cases w.get? x with
  | none => rfl
  | some n =>
    simp only [Option.map_some]
    split <;> rfl

/-! ## A default in the place of another -/

/-- A default in the place of another, which goes. -/
def swapDefault (w : Workspace) (id : NodeId) (input : String) (o c : NodeId) : Workspace :=
  ((w.update id fun n => n.withSlot input (shadowInSlot c)).remove [o]).update c
    fun n => { n with parent := some id, shadow := true }

section SwapDefault

variable {id o x : NodeId} {input : String}

theorem get?_swapDefault_of_ne (hx : x ≠ id) (hc : x ≠ c) (ho : x ≠ o) :
    (w.swapDefault id input o c).get? x = w.get? x := by
  rw [swapDefault, get?_update_of_ne _ hc, get?_remove, if_neg (by simpa using ho),
    get?_update_of_ne _ hx]

theorem get?_swapDefault_self (hc : id ≠ c) (ho : id ≠ o) :
    (w.swapDefault id input o c).get? id =
      (w.get? id).map fun n => n.withSlot input (shadowInSlot c) := by
  rw [swapDefault, get?_update_of_ne _ hc, get?_remove, if_neg (by simpa using ho),
    get?_update_self]

theorem get?_swapDefault_node (hc : c ≠ id) (ho : c ≠ o) :
    (w.swapDefault id input o c).get? c =
      (w.get? c).map fun n => { n with parent := some id, shadow := true } := by
  rw [swapDefault, get?_update_self, get?_remove, if_neg (by simpa using ho),
    get?_update_of_ne _ hc]

theorem roots_swapDefault (ho : o ∉ w.roots) : (w.swapDefault id input o c).roots = w.roots := by
  refine List.filter_eq_self.mpr fun x hx => ?_
  have hxo : x ≠ o := fun he => ho (he ▸ hx)
  simpa using hxo

theorem loosen_swapDefault (hc : c ∉ ids) (hid : id ∉ c :: ids) :
    (w.swapDefault id input o c).loosen ids = (w.loosen (c :: ids)).swapDefault id input o c := by
  rw [swapDefault, loosen_update_cons hc fun _ => rfl, loosen_remove fun _ _ => Iff.rfl,
    loosen_update hid, swapDefault]

end SwapDefault

end Workspace

section Swap

open Workspace

variable {w : Workspace} {id c o : NodeId} {n : Node} {input : String} {loose : List NodeId}

/-- Out of a slot goes what the next step replaces. -/
theorem Node.updateSlot_map_drop : ∀ {is : List Input}, (is.flatMap fun i => i.slot.owned).Nodup →
    (is.find? fun i => i.name == input).map (·.slot) = some (.value none (some o)) →
    updateSlot input (shadowInSlot c) (is.map fun i => { i with slot := dropFromSlot o i.slot }) =
      updateSlot input (shadowInSlot c) is
  | [], _, hs => by cases hs
  | i :: is, hnd, hs => by
    rw [List.flatMap_cons, List.nodup_append'] at hnd
    obtain ⟨-, hnd, hdisj⟩ := hnd
    rw [List.map_cons, updateSlot, updateSlot]
    by_cases hi : (i.name == input) = true
    · have hslot : i.slot = .value none (some o) := by
        rw [List.find?_cons, hi] at hs
        exact Option.some.inj hs
      have hstay : is.map (fun i => { i with slot := dropFromSlot o i.slot }) = is := by
        conv_rhs => rw [← List.map_id is]
        refine List.map_congr_left fun k hk => ?_
        have hok : o ∉ k.slot.owned := fun ho =>
          hdisj (by simp [hslot, Slot.owned]) (List.mem_flatMap.mpr ⟨k, hk, ho⟩)
        rw [dropFromSlot_of_not_mem hok]
        rfl
      rw [if_pos hi, if_pos hi, hstay, hslot]
      simp [dropFromSlot, shadowInSlot]
    · rw [List.find?_cons, Bool.eq_false_iff.mpr hi] at hs
      have hoi : o ∉ i.slot.owned := by
        intro ho
        obtain ⟨k, hk, hks⟩ := Option.map_eq_some_iff.mp hs
        exact hdisj ho (List.mem_flatMap.mpr
          ⟨k, List.mem_of_find?_eq_some hk, by simp [hks, Slot.owned]⟩)
      rw [if_neg hi, if_neg hi, dropFromSlot_of_not_mem hoi, updateSlot_map_drop hnd hs]

/-- The other nodes once a node is taken out of its slot and removed. -/
theorem Workspace.get?_unlink_remove (hl : w.wiring.Linked) {x : NodeId} (hx : x ≠ o) :
    ((w.unlink o).remove [o]).get? x =
      (w.get? x).map fun m => { dropFromNode o m with parent := m.parent } := by
  rw [get?_remove, if_neg (by simpa using hx), get?_unlink hl o]
  simp [hx]

/-- The node that owned it has the same ancestors. -/
theorem Workspace.ancestors_unlink_remove (hl : w.wiring.Linked) (hn : w.get? id = some n)
    (hop : w.parent? o = some id) : ((w.unlink o).remove [o]).ancestors id = w.ancestors id := by
  have hchain := chain_ancestors hl hn
  obtain ⟨l, hlo, hlp⟩ := parent?_eq_some.mp ((parent?_wiring (w := w) o).trans hop)
  have hoas : o ∉ id :: w.ancestors id := (Chain.up hlo hlp hchain).not_mem
  refine ancestors_eq (hchain.congr fun a ha l hla => ?_)
  obtain ⟨m, hm, rfl⟩ := get?_of_wiring hla
  have hao : a ≠ o := fun he => hoas (he ▸ ha)
  have hget := get?_unlink_remove hl hao
  rw [hm, Option.map_some] at hget
  exact ⟨_, wiring_of_get? hget, rfl⟩

/-- A default in the place of another: the old one may leave its slot before the new one comes or
after that. -/
theorem Workspace.get?_shadowInSlot_remove (hl : w.wiring.Linked) (hn : w.get? id = some n)
    (hs : n.slot? input = some (.value none (some o))) (hoid : o ≠ id) (x : NodeId) :
    ((w.update id fun n => n.withSlot input (shadowInSlot c)).remove [o]).get? x =
      (((w.unlink o).remove [o]).update id fun n => n.withSlot input (shadowInSlot c)).get? x := by
  have ho : o ∈ n.owned := Node.owned_of_slot? hs (by simp [Slot.owned])
  by_cases hxo : x = o
  · subst hxo
    simp [get?_remove, get?_update, hoid]
  · rw [get?_remove, if_neg (by simpa using hxo), get?_update, get?_update]
    by_cases hxi : x = id
    · subst hxi
      have hin := Node.updateSlot_map_drop (c := c) (hl.owned_nodup (wiring_of_get? hn)) hs
      rw [if_pos rfl, if_pos rfl, get?_unlink_remove hl hxo, hn, Option.map_some, Option.map_some,
        Option.map_some]
      simp only [Node.withSlot, dropFromNode, hin]
    · rw [if_neg hxi, if_neg hxi, get?_unlink_remove hl hxo]
      cases hx : w.get? x with
      | none => rfl
      | some m =>
        -- no other node owns what the slot held
        have hom : o ∉ m.owned := fun hm => hxi
          (hl.owner_unique (wiring_of_get? hx) (wiring_of_get? hn) hm ho)
        rw [Option.map_some, dropFromNode_of_not_mem hom]

/-- A leaf in a value slot gives way to a loose node: the forest is the same but for the two. -/
theorem Forest.swap {k : Node} (h : Forest w (c :: loose)) (hcl : c ∉ loose)
    (hn : w.get? id = some n) (hs : n.slot? input = some (.value none (some o)))
    (hk : w.get? o = some k) (hleaf : k.inputs = []) (hci : c ≠ id) (hca : c ∉ w.ancestors id) :
    Forest (w.swapDefault id input o c) loose := by
  have hl := h.linked
  have ho : o ∈ n.owned := Node.owned_of_slot? hs (by simp [Slot.owned])
  have hop : w.parent? o = some id := (mem_owned_iff hl hn).mp ho
  have hoc : o ∉ c :: loose := by
    intro hm
    rw [h.parent?_of_loose hm] at hop
    cases hop
  have hor : o ∉ w.roots := h.not_root_of_parent hop
  have hoid : o ≠ id := (hl.parent_ne (by rw [parent?_wiring]; exact hop)).symm
  -- the leaf is taken out of the slot and removed, then the loose node is hung there
  have hdesc : (w.unlink o).descendants o = [o] := by
    have hget : (w.unlink o).get? o = some { dropFromNode o k with parent := none } := by
      rw [get?_unlink hl o, hk, Option.map_some, if_pos rfl]
    simp [descendants, descendantsUpTo, hget, Node.owned, dropFromNode, hleaf]
  have hremoved := (h.unlink hk hoc).remove hoc
  rw [hdesc] at hremoved
  have hself := get?_unlink_remove hl hoid.symm
  rw [hn, Option.map_some] at hself
  have hvacant : ({ dropFromNode o n with parent := n.parent } : Node).slot? input =
      some (.value none none) := by
    show (dropFromNode o n).slot? input = _
    rw [slot?_dropFromNode, hs]
    simp [dropFromSlot]
  have hplaced := hremoved.place hcl hself hvacant (f := shadowInSlot c)
    (g := fun n => { n with parent := some id, shadow := true })
    (by simp [shadowInSlot, Slot.owned]) hci (by rwa [ancestors_unlink_remove hl hn hop])
    fun _ => rfl
  refine hplaced.congr ?_ ?_
  · funext x
    rw [wiring, wiring, swapDefault, get?_update _ c, get?_update _ c, get?_shadowInSlot_remove hl hn hs hoid,
      get?_shadowInSlot_remove hl hn hs hoid]
  · show _ = ((w.unlink o).remove [o]).roots
    rw [roots_swapDefault hor, Workspace.roots_remove, h.roots_unlink, List.filter_filter]
    refine (List.filter_eq_self.mpr fun x hx => ?_).symm
    have hxo : x ≠ o := fun he => hor (he ▸ hx)
    simp [hxo]

end Swap

/-! ## What a move needs -/

namespace Move

/-- The input that a move fills. -/
def input? : Move → Option String
  | shadow input _ | value input _ | statement input _ => some input
  | release _ | discard _ => none

/-- What a move makes of the slot it fills. -/
def fill (n : Node) : Move → Slot → Slot
  | shadow _ c => Workspace.shadowInSlot c
  | value _ c => Workspace.childInSlot c
  | statement input c => Workspace.statementInSlot (n.statements input).length c
  | release _ | discard _ => fun s => s

/-- What a move makes of the conditional. -/
def refit (mv : Move) (n : Node) : Node := mv.input?.elim n fun input => n.withSlot input (mv.fill n)

/-- What the slot of a move has to be like: a default takes the place of a leaf, and no child is
there yet. -/
def Takes (leaf : NodeId → Prop) : Move → Slot → Prop
  | shadow _ _, s => ∃ o, s = .value none (some o) ∧ leaf o
  | value _ _, s => ∃ o, s = .value none o
  | statement _ _, s => ∃ cs, s = .statements cs
  | release _, _ | discard _, _ => True

/-- A move leaves the slot that a later one needs: no slot takes two defaults or two children, and
the default comes before the child. -/
def Before : Move → Move → Prop
  | shadow i _, shadow j _ | value i _, shadow j _ | value i _, value j _ => i ≠ j
  | _, _ => True

variable {leaf leaf' leaf'' : NodeId → Prop} {mv mv' : Move} {s : Slot} {n : Node} {input : String}

theorem slot?_refit (mv : Move) (n : Node) (input : String) :
    (mv.refit n).slot? input =
      if mv.input? = some input then (n.slot? input).map (mv.fill n) else n.slot? input := by
  rw [refit]
  cases hi : mv.input? with
  | none => rfl
  | some j =>
    rw [Option.elim_some, Node.slot?_withSlot]
    by_cases hj : input = j
    · rw [if_pos hj, if_pos (congrArg some hj.symm), hj]
    · rw [if_neg hj, if_neg fun he => hj (Option.some.inj he).symm]

theorem parent_refit (mv : Move) (n : Node) : (mv.refit n).parent = n.parent := by
  rw [refit]
  cases mv.input? <;> rfl

theorem kind_refit (mv : Move) (n : Node) : (mv.refit n).kind = n.kind := by
  rw [refit]
  cases mv.input? <;> rfl

theorem mutation_refit (mv : Move) (n : Node) : (mv.refit n).mutation = n.mutation := by
  rw [refit]
  cases mv.input? <;> rfl

theorem Takes.mono (h : mv.Takes leaf s) (hl : ∀ o ∈ s.owned, leaf o → leaf' o) :
    mv.Takes leaf' s := by
  cases mv with
  | shadow input c =>
    obtain ⟨o, rfl, ho⟩ := h
    exact ⟨o, rfl, hl o (by simp [Slot.owned]) ho⟩
  | value input c => exact h
  | statement input c => exact h
  | release c => trivial
  | discard c => trivial

/-- The slot of a move after an earlier move has filled it. -/
theorem Takes.fill (h : mv'.Takes leaf s) (hmv : mv.Takes leaf' s) (hb : mv.Before mv')
    (hi : mv.input? = some input) (hi' : mv'.input? = some input) :
    mv'.Takes leaf'' (mv.fill n s) := by
  cases mv with
  | shadow input c =>
    obtain ⟨o, rfl, -⟩ := hmv
    cases mv' with
    | shadow input' c' => exact absurd (Option.some.inj (hi.trans hi'.symm)) hb
    | value input' c' => exact ⟨some c, rfl⟩
    | statement input' c' =>
      obtain ⟨cs, hcs⟩ := h
      cases hcs
    | release c' => trivial
    | discard c' => trivial
  | value input c =>
    obtain ⟨o, rfl⟩ := hmv
    cases mv' with
    | shadow input' c' => exact absurd (Option.some.inj (hi.trans hi'.symm)) hb
    | value input' c' => exact absurd (Option.some.inj (hi.trans hi'.symm)) hb
    | statement input' c' =>
      obtain ⟨cs, hcs⟩ := h
      cases hcs
    | release c' => trivial
    | discard c' => trivial
  | statement input c =>
    obtain ⟨cs, rfl⟩ := hmv
    cases mv' with
    | shadow input' c' =>
      obtain ⟨o, ho, -⟩ := h
      cases ho
    | value input' c' =>
      obtain ⟨o, ho⟩ := h
      cases ho
    | statement input' c' => exact ⟨_, rfl⟩
    | release c' => trivial
    | discard c' => trivial
  | release c => cases hi
  | discard c => cases hi

/-- A move keeps the real nodes in the slot it fills. -/
theorem Takes.real_fill (h : mv.Takes leaf s) {x : NodeId} (hx : x ∈ s.real) :
    x ∈ (mv.fill n s).real := by
  cases mv with
  | shadow input c =>
    obtain ⟨o, rfl, -⟩ := h
    cases hx
  | value input c =>
    obtain ⟨o, rfl⟩ := h
    cases hx
  | statement input c =>
    obtain ⟨cs, rfl⟩ := h
    exact (List.mem_insertIdx (Nat.min_le_right _ _)).mpr (.inr hx)
  | release c => exact hx
  | discard c => exact hx

/-- A real node that stays is in the slot after its move. -/
theorem Takes.survivor_mem (h : mv.Takes leaf s) {x : NodeId} (hx : mv.survivor? = some (x, input)) :
    x = mv.node ∧ x ∈ (mv.fill n s).real := by
  cases mv with
  | shadow input c => cases hx
  | value input c =>
    obtain ⟨o, rfl⟩ := h
    cases hx
    exact ⟨rfl, List.mem_singleton_self _⟩
  | statement input c =>
    obtain ⟨cs, rfl⟩ := h
    cases hx
    exact ⟨rfl, (List.mem_insertIdx (Nat.min_le_right _ _)).mpr (.inl rfl)⟩
  | release c => cases hx
  | discard c => cases hx

end Move

namespace Workspace

/-- A node without inputs. -/
def IsLeaf (w : Workspace) (o : NodeId) : Prop := ∃ k, w.get? o = some k ∧ k.inputs = []

/-- A move finds the slot that it needs. -/
def Open (w : Workspace) (id : NodeId) (mv : Move) : Prop :=
  ∀ input ∈ mv.input?, ∃ n s, w.get? id = some n ∧ n.slot? input = some s ∧ mv.Takes w.IsLeaf s

/-- The workspace after a move that is not refused. -/
def carry (id : NodeId) (w : Workspace) : Move → Workspace
  | .shadow input c => w.setShadow id input c
  | .value input c => w.setChild id input c
  | .statement input c => w.appendStatement id input c
  | .release c => w.pushRoot c
  | .discard c => w.remove (w.descendants c)

/-- A node stands in an input, and not as its default. -/
def Arrived (w : Workspace) (id c : NodeId) (input : String) : Prop :=
  w.parent? c = some id ∧ ∃ n s, w.get? id = some n ∧ n.slot? input = some s ∧ c ∈ s.real

theorem Arrived.stands {w : Workspace} {id c : NodeId} {input : String}
    (h : w.Arrived id c input) : w.stands id c input = true := by
  obtain ⟨hp, n, s, hn, hs, hc⟩ := h
  simp [Workspace.stands, hp, hn, hs, Slot.real_subset hc]

/-- A leaf is removed alone when another default takes its place. -/
theorem setShadow_eq {w : Workspace} {id c o : NodeId} {n : Node} {input : String}
    (hn : w.get? id = some n) (hs : n.slot? input = some (.value none (some o)))
    (ho : w.IsLeaf o) (hoi : o ≠ id) :
    w.setShadow id input c = w.swapDefault id input o c := by
  obtain ⟨k, hk, hleaf⟩ := ho
  have hold : w.shadow? id input = some o := by simp [shadow?, hn, hs]
  have hdesc : (w.update id fun n => n.withSlot input (shadowInSlot c)).descendants o = [o] := by
    simp [descendants, descendantsUpTo, get?_update_of_ne _ hoi, hk, Node.owned, hleaf]
  simp only [setShadow, hold, hdesc, swapDefault]

end Workspace

/-! ## Moves one after the other -/

open Workspace

/-- The nodes that wait: those still to be moved, and those that no move takes. -/
def waiting (ms : List Move) (rest : List NodeId) : List NodeId := ms.map Move.node ++ rest

theorem mem_waiting_cons {x : NodeId} {mv : Move} {ms : List Move} {rest : List NodeId}
    (h : x ∈ waiting ms rest) : x ∈ waiting (mv :: ms) rest := List.mem_cons_of_mem _ h

/-- A conditional on its way to other inputs. If the nodes that wait are read as loose, the workspace
is a forest; they are distinct, they name the conditional, which is not below any of them, and each
move finds its slot. -/
structure Shifting (w : Workspace) (id : NodeId) (ms : List Move) (rest : List NodeId) : Prop where
  forest : Forest (w.loosen (waiting ms rest)) (waiting ms rest)
  nodup : (waiting ms rest).Nodup
  named : ∀ c ∈ waiting ms rest, w.parent? c = some id
  clear : ∀ c ∈ waiting ms rest, c ∉ id :: (w.loosen (waiting ms rest)).ancestors id
  there : ∃ n, w.get? id = some n
  opens : ∀ mv ∈ ms, w.Open id mv
  ordered : ms.Pairwise Move.Before

namespace Shifting

variable {w v : Workspace} {id c o x : NodeId} {mv : Move} {ms : List Move} {rest : List NodeId}
  {n : Node} {input : String}

theorem ne_self (h : Shifting w id ms rest) (hc : c ∈ waiting ms rest) : c ≠ id := fun he =>
  h.clear c hc (he ▸ List.mem_cons_self)

theorem self_not_mem (h : Shifting w id ms rest) : id ∉ waiting ms rest := fun hm =>
  h.ne_self hm rfl

theorem get?_of_mem (h : Shifting w id ms rest) (hc : c ∈ waiting ms rest) :
    ∃ k, w.get? c = some k := by
  obtain ⟨k, hk, -⟩ := Option.bind_eq_some_iff.mp (h.named c hc)
  exact ⟨k, hk⟩

/-- The conditional as the forest sees it. -/
theorem get?_loosen_self (h : Shifting w id ms rest) (hn : w.get? id = some n) :
    (w.loosen (waiting ms rest)).get? id = some n := by
  simp [get?_loosen, hn, h.self_not_mem]

theorem owned_nodup (h : Shifting w id ms rest) (hn : w.get? id = some n) : n.owned.Nodup :=
  h.forest.linked.owned_nodup (wiring_of_get? (h.get?_loosen_self hn))

theorem parent?_of_owned (h : Shifting w id ms rest) (hn : w.get? id = some n) (hx : x ∈ n.owned) :
    (w.loosen (waiting ms rest)).parent? x = some id :=
  (mem_owned_iff h.forest.linked (h.get?_loosen_self hn)).mp hx

/-- What stands in a slot of the conditional does not wait. -/
theorem owned_not_mem (h : Shifting w id ms rest) (hn : w.get? id = some n) (hx : x ∈ n.owned) :
    x ∉ waiting ms rest := by
  intro hm
  have hp := h.parent?_of_owned hn hx
  rw [h.forest.parent?_of_loose hm] at hp
  cases hp

theorem owned_ne_self (h : Shifting w id ms rest) (hn : w.get? id = some n) (hx : x ∈ n.owned) :
    x ≠ id :=
  (h.forest.linked.parent_ne ((parent?_wiring x).trans (h.parent?_of_owned hn hx))).symm

theorem ancestors_of_owned (h : Shifting w id ms rest) (hn : w.get? id = some n)
    (hx : x ∈ n.owned) : (w.loosen (waiting ms rest)).ancestors x =
      id :: (w.loosen (waiting ms rest)).ancestors id :=
  ancestors_of_parent h.forest.linked (h.parent?_of_owned hn hx)

section Cons

variable (h : Shifting w id (mv :: ms) rest)

include h

theorem node_not_mem : mv.node ∉ waiting ms rest := (List.nodup_cons.mp h.nodup).1

theorem node_clear : mv.node ∉ id :: (w.loosen (waiting (mv :: ms) rest)).ancestors id :=
  h.clear mv.node List.mem_cons_self

theorem node_ne_self : mv.node ≠ id := h.ne_self List.mem_cons_self

/-- The move leaves alone what waits after it, and what is above the conditional. -/
theorem ne_node_of_stays (hx : x ∈ waiting ms rest ∨
    x ∈ id :: (w.loosen (waiting (mv :: ms) rest)).ancestors id) : x ≠ mv.node := by
  rintro rfl
  rcases hx with hx | hx
  · exact h.node_not_mem hx
  · exact h.node_clear hx

/-- Only what is below the node goes with it. -/
theorem not_mem_descendants (hx : x ≠ mv.node)
    (ha : mv.node ∉ (w.loosen (waiting (mv :: ms) rest)).ancestors x) :
    x ∉ w.descendants mv.node := by
  rw [← descendants_loosen (waiting (mv :: ms) rest), mem_descendants h.forest.linked]
  rintro ⟨-, he | hm⟩
  · exact hx he.symm
  · exact ha hm

theorem not_below_of_stays (hx : x ∈ waiting ms rest ∨
    x ∈ id :: (w.loosen (waiting (mv :: ms) rest)).ancestors id) :
    x ∉ w.descendants mv.node := by
  refine h.not_mem_descendants (h.ne_node_of_stays hx) fun hm => ?_
  rcases hx with hx | hx
  · -- read as loose, a node that waits has nothing above it
    rw [ancestors_of_top (h.forest.parent?_of_loose (mem_waiting_cons hx))] at hm
    cases hm
  · obtain ⟨n, hn⟩ := h.there
    have hchain := chain_ancestors h.forest.linked (h.get?_loosen_self hn)
    rcases List.mem_cons.mp hx with rfl | hx
    · exact h.node_clear (List.mem_cons_of_mem _ hm)
    · obtain ⟨below, above, he, hxa⟩ := hchain.split hx
      rw [ancestors_eq hxa] at hm
      refine h.node_clear (List.mem_cons_of_mem _ ?_)
      rw [he]
      simp [hm]

theorem not_below_of_owned (hn : w.get? id = some n) (hx : x ∈ n.owned) :
    x ∉ w.descendants mv.node := by
  refine h.not_mem_descendants (fun he => ?_) ?_
  · exact h.owned_not_mem hn hx (he ▸ List.mem_cons_self)
  · rw [h.ancestors_of_owned hn hx]
    exact h.node_clear

/-- A slot of the conditional holds none of these. -/
theorem ne_owned_of_stays (hn : w.get? id = some n) (ho : o ∈ n.owned)
    (hx : x ∈ waiting ms rest ∨
      x ∈ id :: (w.loosen (waiting (mv :: ms) rest)).ancestors id) : x ≠ o := by
  rintro rfl
  rcases hx with hx | hx
  · exact h.owned_not_mem hn ho (mem_waiting_cons hx)
  · have hchain := chain_ancestors h.forest.linked (h.get?_loosen_self hn)
    obtain ⟨l, hl, hp⟩ := parent?_eq_some.mp ((parent?_wiring x).trans (h.parent?_of_owned hn ho))
    exact (Chain.up hl hp hchain).not_mem hx

/-- What a move has to show: its outcome is a forest, it leaves the parents of what waits after it
and of what is above the conditional, and later moves find their slots. -/
theorem step (hf : Forest (v.loosen (waiting ms rest)) (waiting ms rest))
    (hkeep : ∀ x k, w.get? x = some k → x ∈ waiting ms rest ∨
      x ∈ id :: (w.loosen (waiting (mv :: ms) rest)).ancestors id →
      ∃ k', v.get? x = some k' ∧ k'.parent = k.parent)
    (hopen : ∀ mv' ∈ ms, mv.Before mv' → w.Open id mv' → v.Open id mv') :
    Shifting v id ms rest := by
  obtain ⟨n, hn⟩ := h.there
  obtain ⟨hbefore, hordered⟩ := List.pairwise_cons.mp h.ordered
  -- what is above the conditional keeps its parents, so the walk up is the same
  have hchain : Chain (v.loosen (waiting ms rest)).wiring id
      ((w.loosen (waiting (mv :: ms) rest)).ancestors id) := by
    refine (chain_ancestors h.forest.linked (h.get?_loosen_self hn)).congr fun a ha l hl => ?_
    have hstays (x : NodeId) (hx : x ∈ waiting (mv :: ms) rest) : a ≠ x := fun he =>
      h.clear x hx (he ▸ ha)
    obtain ⟨j, hj, rfl⟩ := get?_of_wiring hl
    rw [get?_loosen] at hj
    obtain ⟨k, hk, rfl⟩ := Option.map_eq_some_iff.mp hj
    rw [if_neg fun hm => hstays a hm rfl]
    obtain ⟨k', hk', hp⟩ := hkeep a k hk (.inr ha)
    refine ⟨k'.link, wiring_of_get? ?_, hp⟩
    have haw : a ∉ waiting ms rest := fun hm => hstays a (mem_waiting_cons hm) rfl
    rw [get?_loosen, hk', Option.map_some, if_neg haw]
  obtain ⟨n', hn', -⟩ := hkeep id n hn (.inr List.mem_cons_self)
  refine ⟨hf, (List.nodup_cons.mp h.nodup).2, fun c hc => ?_, fun c hc => ?_, ⟨n', hn'⟩, ?_, hordered⟩
  · obtain ⟨k, hk, hp⟩ := Option.bind_eq_some_iff.mp (h.named c (mem_waiting_cons hc))
    obtain ⟨k', hk', hp'⟩ := hkeep c k hk (.inl hc)
    rw [Workspace.parent?, hk', Option.bind_some, hp', hp]
  · rw [ancestors_eq hchain]
    exact h.clear c (mem_waiting_cons hc)
  · intro mv' hmv'
    exact hopen mv' hmv' (hbefore mv' hmv') (h.opens mv' (List.mem_cons_of_mem _ hmv'))

end Cons

/-! ## One move -/

section Carry

variable (h : Shifting w id (mv :: ms) rest)

include h

/-- The slot of a move that fills one. -/
theorem slot_of_move (hi : mv.input? = some input) :
    ∃ n s, w.get? id = some n ∧ n.slot? input = some s ∧ mv.Takes w.IsLeaf s :=
  h.opens mv List.mem_cons_self input hi

/-- A move changes the conditional, its own node, what is below a node that goes, and the default
that it replaces. It leaves the rest alone. -/
theorem get?_carry (hn : w.get? id = some n) (hx : x ≠ id) (hc : x ≠ mv.node)
    (hd : ∀ c, mv = .discard c → x ∉ w.descendants c)
    (ho : ∀ input c, mv = .shadow input c → x ∉ n.ownedIn input) :
    (w.carry id mv).get? x = w.get? x := by
  cases mv with
  | shadow input c =>
    simp only [Move.node] at hc
    obtain ⟨n', s, hn', hs, o, rfl, hleaf⟩ := h.slot_of_move rfl
    obtain rfl : n' = n := Option.some.inj (hn'.symm.trans hn)
    have hoo : o ∈ n'.ownedIn input := Node.mem_ownedIn.mpr ⟨_, hs, by simp [Slot.owned]⟩
    have hxo : x ≠ o := fun he => ho input c rfl (he ▸ hoo)
    have hoi := h.owned_ne_self hn (Node.owned_of_ownedIn hoo)
    show (w.setShadow id input c).get? x = _
    rw [setShadow_eq hn hs hleaf hoi, get?_swapDefault_of_ne hx hc hxo]
  | value input c =>
    simp only [Move.node] at hc
    show (w.setChild id input c).get? x = _
    rw [setChild, get?_update_of_ne _ hc, get?_update_of_ne _ hx]
  | statement input c =>
    simp only [Move.node] at hc
    show (w.appendStatement id input c).get? x = _
    rw [appendStatement, setStatement, get?_update_of_ne _ hc, get?_update_of_ne _ hx]
  | release c =>
    simp only [Move.node] at hc
    obtain ⟨k, hk⟩ := h.get?_of_mem (c := c) List.mem_cons_self
    show (w.pushRoot c).get? x = _
    rw [pushRoot, hk]
    exact w.get?_update_of_ne hc _
  | discard c =>
    show (w.remove (w.descendants c)).get? x = _
    rw [get?_remove, if_neg (hd c rfl)]

/-- The conditional after a move. -/
theorem get?_carry_self (hn : w.get? id = some n) :
    (w.carry id mv).get? id = some (mv.refit n) := by
  have hci : id ≠ mv.node := h.node_ne_self.symm
  cases mv with
  | shadow input c =>
    simp only [Move.node] at hci
    obtain ⟨n', s, hn', hs, o, rfl, hleaf⟩ := h.slot_of_move rfl
    obtain rfl : n' = n := Option.some.inj (hn'.symm.trans hn)
    have hoi := h.owned_ne_self hn (Node.owned_of_slot? hs (c := o) (by simp [Slot.owned]))
    show (w.setShadow id input c).get? id = _
    rw [setShadow_eq hn hs hleaf hoi, get?_swapDefault_self hci hoi.symm, hn]
    rfl
  | value input c =>
    simp only [Move.node] at hci
    show (w.setChild id input c).get? id = _
    rw [setChild, get?_update_of_ne _ hci, get?_update_self, hn]
    rfl
  | statement input c =>
    simp only [Move.node] at hci
    show (w.appendStatement id input c).get? id = _
    rw [appendStatement, setStatement, get?_update_of_ne _ hci, get?_update_self, hn]
    rfl
  | release c =>
    simp only [Move.node] at hci
    obtain ⟨k, hk⟩ := h.get?_of_mem (c := c) List.mem_cons_self
    show (w.pushRoot c).get? id = _
    rw [pushRoot, hk]
    exact (w.get?_update_of_ne hci _).trans hn
  | discard c =>
    have hid : id ∉ w.descendants c := h.not_below_of_stays (.inr List.mem_cons_self)
    show (w.remove (w.descendants c)).get? id = _
    rw [get?_remove, if_neg hid, hn]
    rfl

/-- What stands in a slot stays as it is, unless it is the default that gives way. -/
theorem get?_carry_owned (hn : w.get? id = some n) (hx : x ∈ n.owned)
    (ho : ∀ input c, mv = .shadow input c → x ∉ n.ownedIn input) :
    (w.carry id mv).get? x = w.get? x :=
  h.get?_carry hn (h.owned_ne_self hn hx)
    (fun he => h.owned_not_mem hn hx (he ▸ List.mem_cons_self))
    (fun c hmv => by
      subst hmv
      exact h.not_below_of_owned hn hx) ho

/-- What waits after a move, and what is above the conditional, stays as it is. -/
theorem get?_carry_of_stays (hx : x ∈ waiting ms rest ∨
      x ∈ id :: (w.loosen (waiting (mv :: ms) rest)).ancestors id) (hxi : x ≠ id) :
    (w.carry id mv).get? x = w.get? x := by
  obtain ⟨n, hn⟩ := h.there
  refine h.get?_carry hn hxi (h.ne_node_of_stays hx) (fun c hmv => ?_) fun input c _ hm => ?_
  · subst hmv
    exact h.not_below_of_stays hx
  · exact h.ne_owned_of_stays hn (Node.owned_of_ownedIn hm) hx rfl

theorem parent_carry {k : Node} (hk : w.get? x = some k) (hx : x ∈ waiting ms rest ∨
      x ∈ id :: (w.loosen (waiting (mv :: ms) rest)).ancestors id) :
    ∃ k', (w.carry id mv).get? x = some k' ∧ k'.parent = k.parent := by
  obtain ⟨n, hn⟩ := h.there
  by_cases hxi : x = id
  · subst hxi
    rw [hn, Option.some.injEq] at hk
    subst hk
    exact ⟨mv.refit n, h.get?_carry_self hn, mv.parent_refit n⟩
  · exact ⟨k, (h.get?_carry_of_stays hx hxi).trans hk, rfl⟩

/-- A later move finds its slot. -/
theorem open_carry {mv' : Move} (hb : mv.Before mv') (ho : w.Open id mv') :
    (w.carry id mv).Open id mv' := by
  intro input hi'
  obtain ⟨n, s, hn, hs, ht⟩ := ho input hi'
  by_cases hi : mv.input? = some input
  · obtain ⟨n1, s1, hn1, hs1, ht1⟩ := h.slot_of_move hi
    obtain rfl : n1 = n := Option.some.inj (hn1.symm.trans hn)
    obtain rfl : s1 = s := Option.some.inj (hs1.symm.trans hs)
    refine ⟨mv.refit n1, mv.fill n1 s1, h.get?_carry_self hn, ?_, ht.fill ht1 hb hi hi'⟩
    rw [Move.slot?_refit, if_pos hi, hs, Option.map_some]
  · refine ⟨mv.refit n, s, h.get?_carry_self hn, ?_, ht.mono fun o hos hleaf => ?_⟩
    · rw [Move.slot?_refit, if_neg hi, hs]
    · obtain ⟨k, hk, hki⟩ := hleaf
      refine ⟨k, ?_, hki⟩
      rw [h.get?_carry_owned hn (Node.owned_of_slot? hs hos), hk]
      rintro input' c rfl hm
      have hin : o ∈ n.ownedIn input := Node.mem_ownedIn.mpr ⟨s, hs, hos⟩
      exact hi (congrArg some (Node.ownedIn_inj (h.owned_nodup hn) hm hin))

/-- A node that goes may as well wait. -/
theorem loosen_discard : (w.remove (w.descendants mv.node)).loosen (waiting ms rest) =
    (w.loosen (waiting (mv :: ms) rest)).remove
      ((w.loosen (waiting (mv :: ms) rest)).descendants mv.node) := by
  obtain ⟨k, hk⟩ := h.get?_of_mem (c := mv.node) List.mem_cons_self
  have hself : mv.node ∈ w.descendants mv.node := by
    rw [← descendants_loosen (waiting (mv :: ms) rest), mem_descendants h.forest.linked,
      get?_loosen, hk]
    exact ⟨⟨_, rfl⟩, .inl rfl⟩
  rw [descendants_loosen]
  refine loosen_remove fun x hx => ?_
  have hxc : x ≠ mv.node := fun he => hx (he ▸ hself)
  show _ ↔ x ∈ mv.node :: waiting ms rest
  simp [hxc]

/-- After a move the workspace is a forest with one node less that waits. -/
theorem forest_carry :
    Forest ((w.carry id mv).loosen (waiting ms rest)) (waiting ms rest) := by
  have hcw := h.node_not_mem
  have hidw : id ∉ mv.node :: waiting ms rest := h.self_not_mem
  have hci := h.node_ne_self
  have hca : mv.node ∉ (w.loosen (waiting (mv :: ms) rest)).ancestors id := fun hm =>
    h.node_clear (List.mem_cons_of_mem _ hm)
  cases mv with
  | shadow input c =>
    simp only [Move.node] at hcw hidw hci hca
    obtain ⟨n, s, hn, hs, o, rfl, k, hk, hleaf⟩ := h.slot_of_move rfl
    have hoo : o ∈ n.owned := Node.owned_of_slot? hs (by simp [Slot.owned])
    have how : o ∉ c :: waiting ms rest := h.owned_not_mem hn hoo
    show Forest ((w.setShadow id input c).loosen _) _
    rw [setShadow_eq hn hs ⟨k, hk, hleaf⟩ (h.owned_ne_self hn hoo), loosen_swapDefault hcw hidw]
    refine h.forest.swap hcw (h.get?_loosen_self hn) hs (k := k) ?_ hleaf hci hca
    rw [get?_loosen, hk, Option.map_some, if_neg how]
  | value input c =>
    simp only [Move.node] at hcw hidw hci hca
    obtain ⟨n, s, hn, hs, o, rfl⟩ := h.slot_of_move rfl
    show Forest ((w.setChild id input c).loosen _) _
    rw [setChild, loosen_update_cons hcw fun _ => rfl, loosen_update hidw]
    exact h.forest.setChild hcw (h.get?_loosen_self hn) hs hci hca
  | statement input c =>
    simp only [Move.node] at hcw hidw hci hca
    obtain ⟨n, s, hn, hs, cs, rfl⟩ := h.slot_of_move rfl
    show Forest ((w.appendStatement id input c).loosen _) _
    rw [appendStatement, setStatement, loosen_update_cons hcw fun _ => rfl, loosen_update hidw]
    exact h.forest.setStatement hcw (h.get?_loosen_self hn) hs hci hca _
  | release c =>
    simp only [Move.node] at hcw
    obtain ⟨k, hk⟩ := h.get?_of_mem (c := c) List.mem_cons_self
    show Forest ((w.pushRoot c).loosen _) _
    rw [loosen_pushRoot hk hcw]
    exact h.forest.addRoot hcw
  | discard c =>
    simp only [Move.node] at hcw
    show Forest ((w.remove (w.descendants (Move.discard c).node)).loosen _) _
    rw [h.loosen_discard]
    exact h.forest.remove hcw

theorem carry : Shifting (w.carry id mv) id ms rest :=
  h.step h.forest_carry (fun _ _ hk hx => h.parent_carry hk hx) fun _ _ hb ho => h.open_carry hb ho

/-- No move is refused. -/
theorem move_eq : w.move id mv = (w.carry id mv, .ok ()) := by
  obtain ⟨k, hk⟩ := h.get?_of_mem (c := mv.node) List.mem_cons_self
  cases mv with
  | shadow input c =>
    simp only [Move.node] at hk
    obtain ⟨n, s, hn, hs, o, rfl, hleaf⟩ := h.slot_of_move rfl
    have hoo : o ∈ n.owned := Node.owned_of_slot? hs (by simp [Slot.owned])
    have hci : c ≠ id := h.node_ne_self
    have hco : c ≠ o := fun he => h.owned_not_mem hn hoo (he ▸ List.mem_cons_self)
    refine linkShadow_eq hn hs (k := { k with parent := some id, shadow := true }) ?_
    rw [setShadow_eq hn hs hleaf (h.owned_ne_self hn hoo), get?_swapDefault_node hci hco, hk]
    rfl
  | value input c =>
    simp only [Move.node] at hk
    obtain ⟨n, s, hn, hs, o, rfl⟩ := h.slot_of_move rfl
    exact linkValue_eq hn hs hk
  | statement input c =>
    simp only [Move.node] at hk
    obtain ⟨n, s, hn, hs, cs, rfl⟩ := h.slot_of_move rfl
    exact linkStatement_eq hn hs hk
  | release c => rfl
  | discard c => rfl

/-- A node that was moved into a slot stays there. -/
theorem arrived_carry (hx : w.Arrived id x input) : (w.carry id mv).Arrived id x input := by
  obtain ⟨hp, n, s, hn, hs, hx⟩ := hx
  have hxs := Slot.real_subset hx
  refine ⟨?_, mv.refit n, if mv.input? = some input then mv.fill n s else s,
    h.get?_carry_self hn, ?_, ?_⟩
  · rw [Workspace.parent?, h.get?_carry_owned hn (Node.owned_of_slot? hs hxs)]
    · exact hp
    · -- a default only gives way in a slot without a child
      rintro input' c rfl hm
      obtain rfl : input' = input :=
        Node.ownedIn_inj (h.owned_nodup hn) hm (Node.mem_ownedIn.mpr ⟨s, hs, hxs⟩)
      obtain ⟨n1, s1, hn1, hs1, o, rfl, -⟩ := h.slot_of_move rfl
      obtain rfl : n1 = n := Option.some.inj (hn1.symm.trans hn)
      obtain rfl : s = .value none (some o) := Option.some.inj (hs.symm.trans hs1)
      cases hx
  · rw [Move.slot?_refit, hs, Option.map_some]
    split <;> rfl
  · split
    · next hi =>
      obtain ⟨n1, s1, hn1, hs1, ht⟩ := h.slot_of_move hi
      obtain rfl : n1 = n := Option.some.inj (hn1.symm.trans hn)
      obtain rfl : s1 = s := Option.some.inj (hs1.symm.trans hs)
      exact ht.real_fill hx
    · exact hx

/-- A real node that stays arrives by its move. -/
theorem arrived_survivor (hx : mv.survivor? = some (x, input)) :
    (w.carry id mv).Arrived id x input := by
  have hi : mv.input? = some input := by
    cases mv <;> cases hx <;> rfl
  obtain ⟨n, s, hn, hs, ht⟩ := h.slot_of_move hi
  obtain ⟨rfl, hmem⟩ := ht.survivor_mem (n := n) hx
  refine ⟨?_, mv.refit n, mv.fill n s, h.get?_carry_self hn, ?_, hmem⟩
  · obtain ⟨k, hk⟩ := h.get?_of_mem (c := mv.node) List.mem_cons_self
    have hci := h.node_ne_self
    cases mv with
    | shadow input c => cases hx
    | value input c => exact parent?_setChild hci hk
    | statement input c =>
      show (w.appendStatement id input c).parent? c = _
      have hci : c ≠ id := hci
      simp [Workspace.parent?, appendStatement, setStatement, get?_update, hci,
        show w.get? c = some k from hk]
    | release c => cases hx
    | discard c => cases hx
  · rw [Move.slot?_refit, if_pos hi, hs, Option.map_some]

/-- A move adds to the roots the node that it releases. -/
theorem roots_carry : (w.carry id mv).roots = w.roots ++ mv.released?.toList := by
  cases mv with
  | shadow input c =>
    obtain ⟨n, s, hn, hs, o, rfl, hleaf⟩ := h.slot_of_move rfl
    have hoo : o ∈ n.owned := Node.owned_of_slot? hs (by simp [Slot.owned])
    have hor : o ∉ w.roots := h.forest.not_root_of_parent (h.parent?_of_owned hn hoo)
    show (w.setShadow id input c).roots = w.roots ++ []
    rw [setShadow_eq hn hs hleaf (h.owned_ne_self hn hoo), List.append_nil, roots_swapDefault hor]
  | value input c => exact (List.append_nil w.roots).symm
  | statement input c => exact (List.append_nil w.roots).symm
  | release c =>
    obtain ⟨k, hk⟩ := h.get?_of_mem (c := c) List.mem_cons_self
    show (w.pushRoot c).roots = w.roots ++ [c]
    rw [pushRoot, hk]
  | discard c =>
    have hroots := h.forest.roots_remove
    show (w.remove (w.descendants c)).roots = w.roots ++ []
    rw [List.append_nil, ← descendants_loosen (waiting (.discard c :: ms) rest)]
    exact hroots

end Carry

/-! ## All moves -/

/-- No move of a run is refused, and the workspace is a forest after the last but for what no move
takes. -/
theorem run (h : Shifting w id ms rest) :
    moveAll id ms w = (ms.foldl (Workspace.carry id) w, .ok ()) ∧
      Shifting (ms.foldl (Workspace.carry id) w) id [] rest := by
  induction ms generalizing w with
  | nil => exact ⟨rfl, h⟩
  | cons mv ms ih =>
    obtain ⟨hall, hend⟩ := ih h.carry
    refine ⟨?_, hend⟩
    rw [moveAll, h.move_eq]
    exact hall

theorem arrived_run (h : Shifting w id ms rest) (hx : w.Arrived id x input) :
    (ms.foldl (Workspace.carry id) w).Arrived id x input := by
  induction ms generalizing w with
  | nil => exact hx
  | cons mv ms ih => exact ih h.carry (h.arrived_carry hx)

/-- At the end every real node that stays stands in its new slot. -/
theorem survivors_arrived (h : Shifting w id ms rest) :
    ∀ c ∈ ms.filterMap Move.survivor?,
      (ms.foldl (Workspace.carry id) w).Arrived id c.1 c.2 := by
  induction ms generalizing w with
  | nil =>
    intro c hc
    cases hc
  | cons mv ms ih =>
    intro c hc
    obtain ⟨mv', hmv', hc'⟩ := List.mem_filterMap.mp hc
    rcases List.mem_cons.mp hmv' with rfl | hmv'
    · exact h.carry.arrived_run (h.arrived_survivor hc')
    · exact ih h.carry c (List.mem_filterMap.mpr ⟨mv', hmv', hc'⟩)

theorem roots_run (h : Shifting w id ms rest) :
    (ms.foldl (Workspace.carry id) w).roots = w.roots ++ ms.filterMap Move.released? := by
  induction ms generalizing w with
  | nil => exact (List.append_nil w.roots).symm
  | cons mv ms ih =>
    rw [List.foldl_cons, ih h.carry, h.roots_carry, List.append_assoc]
    cases hmv : mv.released? <;> simp [hmv]

end Shifting

end BlockText

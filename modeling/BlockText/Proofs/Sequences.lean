import BlockText.Proofs.Walks

/-!
# Moving a statement

A statement is moved into a sequence: it is taken out of its place, which may be in that sequence,
and put in at a place that was counted before it was taken out. Two things make the outcome exact.
The place is cut down to the length of the sequence without the statement, so a statement that is
sent past the end becomes the last one, whatever sequence it came from. And a statement stands in no
value slot of a workspace that conforms to its shapes, so none of them changes when the statement is
taken out.
-/

namespace BlockText

open Workspace Wiring

variable {w : Workspace} {r : Registry} {x parent child : NodeId} {input : String} {n : Node}

/-! ## Inputs by position -/

namespace Workspace

/-- The input of a node at a position. -/
def inputAt? (w : Workspace) (x : NodeId) (i : Nat) : Option Input :=
  (w.get? x).bind fun n => n.inputs[i]?

/-- The position of the first input of a node with a name. -/
def position? (w : Workspace) (x : NodeId) (name : String) : Option Nat :=
  (w.get? x).bind fun n => n.inputs.findIdx? fun i => i.name == name

theorem mem_of_inputAt? {j : Nat} {i : Input} (h : w.inputAt? x j = some i) :
    ∃ n, w.get? x = some n ∧ i ∈ n.inputs := by
  obtain ⟨n, hn, hi⟩ := Option.bind_eq_some_iff.mp h
  exact ⟨n, hn, List.mem_of_getElem? hi⟩

end Workspace

theorem Node.getElem?_updateSlot (name : String) (f : Slot → Slot) (is : List Input) (j : Nat) :
    (updateSlot name f is)[j]? = is[j]?.map fun i =>
      if is.findIdx? (fun i => i.name == name) = some j then { i with slot := f i.slot }
      else i := by
  induction is generalizing j with
  | nil => rfl
  | cons i is ih =>
    rw [updateSlot, List.findIdx?_cons]
    by_cases hname : (i.name == name) = true
    · rw [if_pos hname, if_pos hname]
      cases j with
      | zero => simp
      | succ j => simp
    · rw [if_neg hname, if_neg hname]
      cases j with
      | zero => simp
      | succ j => simp [ih]

theorem Node.position_of_slot? {s : Slot} (h : n.slot? input = some s) :
    ∃ i, n.inputs.findIdx? (fun i => i.name == input) = some i ∧
      n.inputs[i]? = some ⟨input, s⟩ := by
  obtain ⟨found, hfound, rfl⟩ := Option.map_eq_some_iff.mp h
  obtain ⟨hname, i, hi, hget, hbefore⟩ := List.find?_eq_some_iff_getElem.mp hfound
  refine ⟨i, List.findIdx?_eq_some_iff_getElem.mpr ⟨hi, hget ▸ hname, fun j hj => ?_⟩, ?_⟩
  · simpa using hbefore j hj
  · rw [List.getElem?_eq_getElem hi, hget, ← eq_of_beq hname]

/-! ## What a move changes -/

/-- `v` is `w` after a statement was moved to the `i`-th input of a node; `put` says how the
sequence there takes it. -/
structure Rearranged (w v : Workspace) (parent : NodeId) (i : Nat) (child : NodeId)
    (put : List NodeId → List NodeId) : Prop where
  target : ∃ name cs, w.inputAt? parent i = some ⟨name, .statements cs⟩ ∧
    v.inputAt? parent i = some ⟨name, .statements (put (cs.erase child))⟩
  /-- Every other sequence is the old one without the statement. -/
  sequences : ∀ x j name cs, (x, j) ≠ (parent, i) →
    w.inputAt? x j = some ⟨name, .statements cs⟩ →
      v.inputAt? x j = some ⟨name, .statements (cs.erase child)⟩
  /-- Every value slot is as it was. -/
  values : ∀ x j name value shadow, w.inputAt? x j = some ⟨name, .value value shadow⟩ →
    v.inputAt? x j = some ⟨name, .value value shadow⟩
  /-- No node has inputs that it did not have. -/
  inputs : ∀ x j, w.inputAt? x j = none → v.inputAt? x j = none
  roots : v.roots = w.roots.erase child
  /-- Of the other nodes nothing changes but their inputs. -/
  others : ∀ x n, w.get? x = some n → x ≠ child →
    ∃ m, v.get? x = some m ∧ m = { n with inputs := m.inputs }
  /-- The statement has another parent, and nothing else of it changes. -/
  moved : ∃ n, w.get? child = some n ∧ v.get? child = some { n with parent := some parent }
  absent : ∀ x, w.get? x = none → v.get? x = none
  nextId : v.nextId = w.nextId

/-- `v` is `w` after a node was taken out of the slot that held it and made the last root. -/
structure Detached (w v : Workspace) (id : NodeId) : Prop where
  owner : ∀ p k, w.parent? id = some p → w.get? p = some k → ∃ m, v.get? p = some m ∧ k.Loses id m
  moved : ∃ n, w.get? id = some n ∧ v.get? id = some { n with parent := none }
  others : ∀ x, x ≠ id → w.parent? id ≠ some x → v.get? x = w.get? x
  roots : v.roots = w.roots ++ [id]
  nextId : v.nextId = w.nextId

/-! ## The slots of a workspace that conforms -/

/-- A statement stands in no value slot. -/
theorem Conforms.not_mem_value (h : Conforms r w) (hrole : w.role? r child = some .statement)
    (hx : w.get? x = some n) {name : String} {value shadow : Option NodeId}
    (hi : ⟨name, .value value shadow⟩ ∈ n.inputs) : child ∉ (Slot.value value shadow).owned := by
  intro hmem
  obtain ⟨d, hd, -⟩ := h.described x n hx
  obtain ⟨spec, -, -, hfits⟩ := h.slots.of_mem hx hd hi
  cases spec with
  | value _ _ _ => simpa [hrole, Role.isValue] using hfits child hmem
  | statement _ => exact hfits

/-- A node stands in a sequence once at most. -/
theorem Forest.nodup_statements (h : Forest w) (hx : w.get? x = some n) {name : String}
    {cs : List NodeId} (hi : ⟨name, .statements cs⟩ ∈ n.inputs) : cs.Nodup := by
  have hnd : n.owned.Nodup := h.linked.owned_nodup (wiring_of_get? hx)
  rw [Node.owned, List.nodup_flatMap] at hnd
  exact hnd.1 _ hi

/-! ## The moves -/

namespace Workspace

/-- An insertion that is made has found a sequence. -/
theorem insertStatement_ok {place : Nat}
    (h : (w.insertStatement r parent input place child).answer = .ok ()) :
    ∃ cs, w.checkMove r (· = .statement) parent input child = .ok (.statements cs) := by
  cases hcheck : w.checkMove r (· = .statement) parent input child with
  | error e =>
    rw [insertStatement, hcheck] at h
    cases h
  | ok s =>
    cases s with
    | value value shadow =>
      rw [insertStatement, hcheck] at h
      cases h
    | statements cs => exact ⟨cs, rfl⟩

/-- Every node after a statement was moved. -/
theorem get?_moveStatement (h : w.wiring.Linked) (hne : child ≠ parent) (place : Nat) :
    ((w.unlink child).setStatement parent input place child).get? x = (w.get? x).map fun n =>
      { n with
        inputs :=
          if x = parent then Node.updateSlot input (statementInSlot place child)
            (dropFromNode child n).inputs
          else (dropFromNode child n).inputs
        parent := if x = child then some parent else n.parent } := by
  rw [setStatement, get?_update, get?_update, get?_update]
  by_cases hx : x = child
  · subst hx
    simp only [if_pos, if_neg hne, get?_unlink h, Option.map_map]
    rfl
  · by_cases hp : x = parent
    · subst hp
      simp only [if_neg hx, if_pos, get?_unlink h, Option.map_map]
      rfl
    · simp only [if_neg hx, if_neg hp, get?_unlink h]
      rfl

/-- Every input after a statement was moved. -/
theorem inputAt?_moveStatement (h : w.wiring.Linked) (hne : child ≠ parent) (place j : Nat) :
    ((w.unlink child).setStatement parent input place child).inputAt? x j =
      (w.inputAt? x j).map fun i =>
        { i with
          slot :=
            if x = parent ∧ w.position? parent input = some j then
              statementInSlot place child (dropFromSlot child i.slot)
            else dropFromSlot child i.slot } := by
  cases hx : w.get? x with
  | none => simp [inputAt?, get?_moveStatement h hne, hx]
  | some n =>
    by_cases hp : x = parent
    · subst hp
      simp only [inputAt?, position?, get?_moveStatement h hne, hx, Option.map_some,
        Option.bind_some, if_pos, true_and, Node.getElem?_updateSlot, dropFromNode,
        List.findIdx?_map, List.getElem?_map, Option.map_map]
      congr 1
      funext i
      simp only [Function.comp_apply, Function.comp_def]
      split <;> rfl
    · simp [inputAt?, get?_moveStatement h hne, hx, hp, dropFromNode]

end Workspace

namespace Forest

/-- What a move that passed its check changes. -/
theorem rearranged (h : Forest w) (hc : Conforms r w) {children : List NodeId}
    (hcheck : w.checkMove r (· = .statement) parent input child = .ok (.statements children))
    {place : Nat} {put : List NodeId → List NodeId}
    (hput : put (children.erase child) =
      (children.erase child).insertIdx (min place (children.erase child).length) child) :
    ∃ i, w.position? parent input = some i ∧
      Rearranged w ((w.unlink child).setStatement parent input place child) parent i child put := by
  obtain ⟨m, n, d, hm, hn, -, hne, -, hd, hrole, hs⟩ := checkMove_ok hcheck
  have hl := h.linked
  have hstatement : w.role? r child = some .statement := by
    have hdecided : d.shape.role = .statement := of_decide_eq_true hrole
    simp [role?, hm, Tidy.find?_of_lookup hd, hdecided]
  obtain ⟨i, hfound, hi⟩ := Node.position_of_slot? hs
  have hposition : w.position? parent input = some i := by
    rw [position?, hn, Option.bind_some, hfound]
  have hat : w.inputAt? parent i = some ⟨input, .statements children⟩ := by
    rw [inputAt?, hn, Option.bind_some, hi]
  have hnd : children.Nodup := h.nodup_statements hn (List.mem_of_getElem? hi)
  refine ⟨i, hposition, ?_, ?_, ?_, ?_, ?_, ?_, ?_, ?_, ?_⟩
  · refine ⟨input, children, hat, ?_⟩
    rw [inputAt?_moveStatement hl hne, hat, Option.map_some, if_pos ⟨rfl, hposition⟩, hput,
      erase_eq_filter hnd]
    rfl
  · intro x j name cs hother hx
    obtain ⟨k, hk, hmem⟩ := mem_of_inputAt? hx
    have hnot : ¬ (x = parent ∧ w.position? parent input = some j) := by
      rintro ⟨rfl, hj⟩
      rw [hposition, Option.some.injEq] at hj
      exact hother (by rw [hj])
    rw [inputAt?_moveStatement hl hne, hx, Option.map_some, if_neg hnot,
      erase_eq_filter (h.nodup_statements hk hmem)]
    rfl
  · intro x j name value shadow hx
    obtain ⟨k, hk, hmem⟩ := mem_of_inputAt? hx
    rw [inputAt?_moveStatement hl hne, hx, Option.map_some,
      dropFromSlot_of_not_mem (hc.not_mem_value hstatement hk hmem)]
    split <;> rfl
  · intro x j hx
    rw [inputAt?_moveStatement hl hne, hx, Option.map_none]
  · rw [erase_eq_filter h.roots_nodup, ← h.roots_unlink]
    rfl
  · intro x k hk hx
    refine ⟨_, by rw [get?_moveStatement hl hne, hk, Option.map_some], ?_⟩
    rw [if_neg hx]
  · have hself : w.parent? child ≠ some child := by
      rw [← parent?_wiring]
      exact fun hp => h.linked.parent_ne hp rfl
    refine ⟨m, hm, ?_⟩
    rw [get?_moveStatement hl hne, hm, Option.map_some, if_neg hne, if_pos rfl,
      dropFromNode_of_ne hl hm hself]
  · intro x hx
    rw [get?_moveStatement hl hne, hx, Option.map_none]
  · exact nextId_unlink w child

/-- A node that is detached leaves its slot and becomes the last root. -/
theorem detached (h : Forest w) (hx : w.get? x = some n) (hp : w.parent? x ≠ none) :
    Detached w (w.moveToTop x) x where
  owner p k hparent hk := by
    have hne : p ≠ x := h.linked.parent_ne (by rw [parent?_wiring]; exact hparent)
    refine ⟨dropFromNode x k, ?_, loses_of_parent h.linked hk hparent⟩
    show (w.unlink x).get? p = _
    rw [get?_unlink h.linked, hk, Option.map_some, if_neg hne]
    rfl
  moved := by
    have hself : w.parent? x ≠ some x := by
      rw [← parent?_wiring]
      exact fun hp => h.linked.parent_ne hp rfl
    refine ⟨n, hx, ?_⟩
    show (w.unlink x).get? x = _
    rw [get?_unlink h.linked, hx, Option.map_some, if_pos rfl, dropFromNode_of_ne h.linked hx hself]
  others y hne hparent := by
    show (w.unlink x).get? y = _
    rw [get?_unlink h.linked]
    cases hy : w.get? y with
    | none => rfl
    | some k => rw [Option.map_some, if_neg hne, dropFromNode_of_ne h.linked hy hparent]
  roots := by
    obtain ⟨p, hparent⟩ := Option.ne_none_iff_exists'.mp hp
    have hout : x ∉ w.roots := h.not_root_of_parent hparent
    show (w.unlink x).roots ++ [x] = _
    rw [h.roots_unlink, ← erase_eq_filter h.roots_nodup, List.erase_of_not_mem hout]
  nextId := nextId_unlink w x

end Forest

/-- In a forest that conforms to its shapes a statement that is moved stands where it was sent,
counted without itself, one that is pushed stands last, and a node that is detached is the last
root. Nothing else changes. -/
theorem Forest.move_exact (h : Forest w) (hc : Conforms r w) :
    (∀ parent input place child, (w.insertStatement r parent input place child).answer = .ok () →
      ∃ i, w.position? parent input = some i ∧
        Rearranged w (w.insertStatement r parent input place child).workspace parent i child
          fun cs => cs.insertIdx (min place cs.length) child) ∧
    (∀ parent input child, (w.pushStatement r parent input child).answer = .ok () →
      ∃ i, w.position? parent input = some i ∧
        Rearranged w (w.pushStatement r parent input child).workspace parent i child
          fun cs => cs ++ [child]) ∧
    ∀ x n, w.get? x = some n → n.shadow = false → n.parent.isSome →
      (w.detach x).answer = .ok () ∧ Detached w (w.detach x).workspace x := by
  refine ⟨fun parent input place child hok => ?_, fun parent input child hok => ?_,
    fun x n hx hreal hp => ?_⟩
  · obtain ⟨cs, hcheck⟩ := insertStatement_ok hok
    rw [insertStatement_of_statements h.linked hcheck]
    exact h.rearranged hc hcheck rfl
  · cases hs : w.slot parent input with
    | error e =>
      rw [pushStatement, hs] at hok
      cases hok
    | ok slot =>
      simp only [pushStatement, hs] at hok ⊢
      obtain ⟨cs, hcheck⟩ := insertStatement_ok hok
      rw [insertStatement_of_statements h.linked hcheck]
      refine h.rearranged hc hcheck ?_
      -- the length was taken with the child still in the sequence, so it is not too small
      obtain ⟨-, k, -, -, hk, -, -, -, -, -, hks⟩ := checkMove_ok hcheck
      obtain rfl : slot = .statements cs := Except.ok.inj (hs.symm.trans (slot_eq hk hks))
      have hlen : (cs.erase child).length ≤ (Slot.statements cs).owned.length :=
        List.erase_sublist.length_le
      rw [Nat.min_eq_right hlen, List.insertIdx_length_self]
  · have hparent : n.parent ≠ none := Option.isSome_iff_ne_none.mp hp
    have heq : w.detach x = ⟨w.moveToTop x, .ok (), [.reconnected x none]⟩ := by
      simp [detach, node, hx, hreal, hparent]
    rw [heq]
    refine ⟨rfl, h.detached hx ?_⟩
    rwa [Workspace.parent?, hx, Option.bind_some]

/-- The first of three statements is moved behind the second, which is a loop; or the loop is moved
to the end of its own sequence, or detached. -/
theorem Forest.move_exact_within :
    ∃ w, Forest w ∧ Conforms .builtin w ∧
      w.inputAt? 0 0 = some ⟨"DO", .statements [1, 2, 4]⟩ ∧
      (∃ i, Rearranged w (w.insertStatement .builtin 0 "DO" 1 1).workspace 0 i 1
        fun cs => cs.insertIdx (min 1 cs.length) 1) ∧
      (w.insertStatement .builtin 0 "DO" 1 1).workspace.inputAt? 0 0 =
        some ⟨"DO", .statements [2, 1, 4]⟩ ∧
      (w.pushStatement .builtin 0 "DO" 2).workspace.inputAt? 0 0 =
        some ⟨"DO", .statements [1, 4, 2]⟩ ∧
      Detached w (w.detach 2).workspace 2 := by
  have h1 : History .builtin _ := .change (.edit (.create "on_start" [] none)) .start trivial
  have h2 := h1.change (.edit (.create "clear_screen" [] none)) trivial
  have h3 := h2.change (.edit (.pushStatement 0 "DO" 1)) trivial
  have h4 := h3.change (.edit (.create "while_loop" [] none)) trivial
  have h5 := h4.change (.edit (.pushStatement 0 "DO" 2)) trivial
  have h6 := h5.change (.edit (.create "clear_screen" [] none)) trivial
  have h7 := h6.change (.edit (.pushStatement 0 "DO" 4)) trivial
  obtain ⟨w, hw, hat, hposition, hinsert, hpush, hreal⟩ : ∃ w, Tidy .builtin w ∧
      w.inputAt? 0 0 = some ⟨"DO", .statements [1, 2, 4]⟩ ∧ w.position? 0 "DO" = some 0 ∧
      (w.insertStatement .builtin 0 "DO" 1 1).answer = .ok () ∧
      (w.pushStatement .builtin 0 "DO" 2).answer = .ok () ∧
      (w.get? 2).map (fun n => (n.shadow, n.parent.isSome)) = some (false, true) :=
    ⟨_, h7.tidy Registry.sound_builtin, by decide +kernel, by decide +kernel, by decide +kernel,
      by decide +kernel, by decide +kernel⟩
  obtain ⟨k, hk, hpair⟩ := Option.map_eq_some_iff.mp hreal
  obtain ⟨hreal, hparent⟩ := Prod.mk.inj hpair
  obtain ⟨hinserts, hpushes, hdetaches⟩ := hw.forest.move_exact hw.conforms
  obtain ⟨i, hi, hmoved⟩ := hinserts 0 "DO" 1 1 hinsert
  obtain ⟨j, hj, hpushed⟩ := hpushes 0 "DO" 2 hpush
  obtain rfl : i = 0 := Option.some.inj (hi.symm.trans hposition)
  obtain rfl : j = 0 := Option.some.inj (hj.symm.trans hposition)
  obtain ⟨name, cs, hcs, htarget⟩ := hmoved.target
  obtain ⟨name', cs', hcs', hlast⟩ := hpushed.target
  obtain ⟨rfl, hseq⟩ := Input.mk.inj (Option.some.inj (hcs.symm.trans hat))
  obtain ⟨rfl, hseq'⟩ := Input.mk.inj (Option.some.inj (hcs'.symm.trans hat))
  obtain rfl := Slot.statements.inj hseq
  obtain rfl := Slot.statements.inj hseq'
  exact ⟨w, hw.forest, hw.conforms, hat, ⟨0, hmoved⟩, htarget, hlast,
    (hdetaches 2 k hk hreal hparent).2⟩

end BlockText

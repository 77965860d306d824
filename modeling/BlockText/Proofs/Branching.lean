import BlockText.Proofs.Reshaping

/-!
# Changing a conditional

In a tidy workspace everything that hangs on a conditional is taken by a move, and each node is what
its new place asks for: a literal in place of a default, a value as a condition, statements in a
body. So the workspace is tidy after each move, if the nodes that wait are read as loose ones, and
tidy after the last.
-/

namespace BlockText

open Wiring

namespace Node

variable {n : Node}

/-- If the names of the inputs differ, each is found by its name. -/
theorem slot?_of_mem (hnd : (n.inputs.map (·.name)).Nodup) {i : Input} (hi : i ∈ n.inputs) :
    n.slot? i.name = some i.slot := by
  have key : ∀ {is : List Input}, (is.map (·.name)).Nodup → i ∈ is →
      is.find? (fun k => k.name == i.name) = some i := by
    intro is
    induction is with
    | nil => intro _ hi; cases hi
    | cons k is ih =>
      intro hnd hi
      rw [List.map_cons, List.nodup_cons] at hnd
      rcases List.mem_cons.mp hi with rfl | hi
      · simp
      · have hne : (k.name == i.name) = false := by
          rw [beq_eq_false_iff_ne]
          intro he
          exact hnd.1 (he ▸ List.mem_map.mpr ⟨i, hi, rfl⟩)
        rw [List.find?_cons, hne]
        exact ih hnd.2 hi
  simp [slot?, input?, key hnd hi]

/-- If the names of the inputs differ, a node owns what stands in the inputs with these names. -/
theorem owned_eq_flatMap (hnd : (n.inputs.map (·.name)).Nodup) :
    n.owned = (n.inputs.map (·.name)).flatMap n.ownedIn := by
  rw [owned, List.flatMap_map]
  refine List.flatMap_congr fun i hi => ?_
  simp [ownedIn, slot?_of_mem hnd hi]

/-- A conditional with the inputs of its mutation owns nothing else than what hangs on its branches
and the body of its `else`. -/
theorem strays_eq_nil {role? : NodeId → Option Role} {m : Mutation}
    (h : Laid (Slot.Fits role?) (Conditional.inputs m) n.inputs) : n.strays m = [] := by
  have hnames : n.inputs.map (·.name) = Conditional.names m :=
    h.map_name.trans (Conditional.map_name_inputs m)
  rw [strays, List.filter_eq_nil_iff]
  intro x hx
  rw [owned_eq_flatMap (hnames ▸ Conditional.nodup_names m), hnames, Conditional.names,
    List.flatMap_append, List.mem_append] at hx
  have hpending : x ∈ n.pending m := by
    refine List.mem_append.mpr (hx.imp (fun hx => ?_) fun hx => ?_)
    · rw [List.flatMap_assoc] at hx
      obtain ⟨i, hi, hx⟩ := List.mem_flatMap.mp hx
      refine List.mem_flatMap.mpr ⟨i, hi, ?_⟩
      obtain ⟨sc, hsc, hfc⟩ := slot?_condition h (List.mem_range.mp hi)
      obtain ⟨sb, hsb, hfb⟩ := slot?_body h (List.mem_range.mp hi)
      cases sc with
      | statements _ => exact hfc.elim
      | value child shadow =>
        cases sb with
        | value _ _ => exact hfb.elim
        | statements children =>
          simp only [List.flatMap_cons, List.flatMap_nil, List.append_nil, ownedIn, hsc, hsb,
            Option.elim_some, Slot.owned, List.mem_append] at hx
          simp only [branch, hsc, Branch.pending, statements, hsb, List.mem_append]
          tauto
    · cases hm : m.hasElse with
      | false => simp [hm] at hx
      | true =>
        obtain ⟨s, hs, hf⟩ := slot?_otherwise h hm
        cases s with
        | value _ _ => exact hf.elim
        | statements children => simpa [hm, ownedIn, statements, hs, Slot.owned] using hx
  simpa using hpending

end Node

namespace Workspace

variable {w : Workspace}

/-- The role of a node follows from its tag. -/
theorem role?_eq_tag? (r : Registry) (x : NodeId) :
    w.role? r x = (w.tag? x).bind fun t => (r.find? t.kind).map (·.shape.role) := by
  rw [role?, tag?]
  cases w.get? x <;> rfl

end Workspace

/-! ## A default in place of another -/

section Swap

open Workspace

variable {r : Registry} {w : Workspace} {id c o : NodeId} {n : Node} {input : String}
  {loose : List NodeId}

/-- A default is a leaf, and flagged. -/
theorem Tidy.leaf_of_input {child : Option NodeId} (hr : r.Sound) (h : Tidy r w loose)
    (hn : w.get? id = some n) (hi : ⟨input, .value child (some o)⟩ ∈ n.inputs) :
    ∃ k, w.get? o = some k ∧ k.inputs = [] ∧ k.shadow = true := by
  obtain ⟨d, hd, -⟩ := h.conforms.described id n hn
  obtain ⟨spec, hspec, -, hf⟩ := h.furnished.slots.of_mem hn hd hi
  cases spec with
  | statement name => exact hf.elim
  | value name check default =>
    cases default with
    | none => cases hf.2
    | some s =>
      have htag : w.tag? o = some ⟨s.kind, true⟩ := Option.some.inj hf.2
      obtain ⟨k, hk, hkt⟩ := Option.map_eq_some_iff.mp htag
      have hkind : k.kind = s.kind := congrArg Tag.kind hkt
      obtain ⟨l, hl, -, hlayout, -⟩ := hr.literal hd _ name check s hspec
      have hlaid := h.conforms.slots o k l hk (hkind ▸ hl)
      simp only [Shape.inputsFor, hlayout] at hlaid
      exact ⟨k, hk, List.forall₂_nil_left_iff.mp hlaid, congrArg Tag.shadow hkt⟩

theorem Tidy.leaf_of_default (hr : r.Sound) (h : Tidy r w loose) (hn : w.get? id = some n)
    (hs : n.slot? input = some (.value none (some o))) :
    ∃ k, w.get? o = some k ∧ k.inputs = [] ∧ k.shadow = true := by
  obtain ⟨⟨name, slot⟩, hi, rfl, rfl⟩ := Node.slot?_mem hs
  exact h.leaf_of_input hr hn hi

/-- A loose node that may take the place of a default is flagged as one already. -/
theorem Tidy.flag_of_declared {m : Node} (h : Tidy r w loose) (hn : w.get? id = some n)
    (hs : n.slot? input = some (.value none (some o))) (hm : w.get? c = some m)
    (hkind : ∀ d, r.find? n.kind = some d → ∀ name check default,
      .value name check default ∈ d.shape.inputsFor n.mutation → name = input →
      some (w.tag? c) = default.map fun s => some ⟨s.kind, true⟩) : m.shadow = true := by
  obtain ⟨d, hd, -⟩ := h.conforms.described id n hn
  obtain ⟨spec, hspec, hname, hf⟩ := h.conforms.slots.of_slot? hn hd hs
  cases spec with
  | statement name => exact hf.elim
  | value name check default =>
    have htag := hkind d hd name check default hspec hname
    cases default with
    | none => cases htag
    | some s =>
      rw [Workspace.tag?, hm, Option.map_some, Option.map_some, Option.some.injEq,
        Option.some.injEq] at htag
      exact congrArg Tag.shadow htag

theorem Keeps.swapDefault (hflag : ∀ m, w.get? c = some m → m.shadow = true) :
    Keeps w (w.swapDefault id input o c) := by
  have hslot : Keeps w (w.update id fun n => n.withSlot input (shadowInSlot c)) :=
    .update (f := fun n => n.withSlot input (shadowInSlot c)) (fun _ => ⟨rfl, rfl, rfl, rfl, rfl⟩) id
  have hremoved := hslot.trans (.remove [o])
  intro x m hx
  rw [Workspace.swapDefault, get?_update] at hx
  by_cases hxc : x = c
  · subst hxc
    rw [if_pos rfl] at hx
    obtain ⟨m', hm', rfl⟩ := Option.map_eq_some_iff.mp hx
    obtain ⟨n, hn, ha⟩ := hremoved x m' hm'
    exact ⟨n, hn, ha.id, ha.kind, ha.fields, ha.mutation, (hflag n hn).symm⟩
  · rw [if_neg hxc] at hx
    exact hremoved x m hx

theorem Workspace.Slots.swapDefault {P : InputSpec → Slot → Prop} (hP : w.Slots r P)
    (hn : w.get? id = some n)
    (hnew : ∀ d, r.find? n.kind = some d → ∀ spec ∈ d.shape.inputsFor n.mutation,
      spec.name = input → ∀ s, P spec s → P spec (shadowInSlot c s)) :
    (w.swapDefault id input o c).Slots r P := by
  refine ((hP.withSlot id fun n' d hn' hd => ?_).remove [o]).update c fun _ => ⟨rfl, rfl, rfl⟩
  rw [hn, Option.some.injEq] at hn'
  subst hn'
  exact hnew d hd

/-- A default gives way to a loose one of the declared kind. -/
theorem Tidy.swap (hr : r.Sound) (h : Tidy r w (c :: loose)) (hcl : c ∉ loose)
    (hn : w.get? id = some n) (hs : n.slot? input = some (.value none (some o)))
    (hci : c ≠ id) (hca : c ∉ w.ancestors id)
    (hrole : (w.role? r c).any Role.isValue = true)
    (hkind : ∀ d, r.find? n.kind = some d → ∀ name check default,
      .value name check default ∈ d.shape.inputsFor n.mutation → name = input →
      some (w.tag? c) = default.map fun s => some ⟨s.kind, true⟩) :
    Tidy r (w.swapDefault id input o c) loose := by
  obtain ⟨k, hk, hleaf, -⟩ := h.leaf_of_default hr hn hs
  have hforest := h.forest.swap hcl hn hs hk hleaf hci hca
  have hkeeps : Keeps w (w.swapDefault id input o c) :=
    .swapDefault fun m hm => h.flag_of_declared hn hs hm hkind
  refine ⟨hforest, h.conforms.keeps hkeeps hforest.linked (Nat.le_refl _) ?_,
    .keeps hkeeps hforest ?_ ?_⟩
  · refine h.conforms.slots.swapDefault hn fun d hd spec hspec hname s hf => ?_
    cases spec <;> cases s
    · intro x hx
      rcases List.mem_append.mp hx with hx | hx
      · exact hf x (List.mem_append_left _ hx)
      · rw [Option.toList_some, List.mem_singleton] at hx
        rw [hx]
        exact hrole
    · exact hf
    · exact hf
    · exact hf
  · refine h.furnished.slots.swapDefault hn fun d hd spec hspec hname s hf => ?_
    cases spec with
    | statement name => cases s <;> exact hf
    | value name check default =>
      cases s with
      | statements _ => exact hf
      | value child shadow => exact ⟨hf.1, hkind d hd name check default hspec hname⟩
  · intro x hx
    exact h.furnished.roots x (List.mem_of_mem_filter hx)

end Swap

theorem Conditional.eq_of_mem_inputs {m : Mutation} {spec : InputSpec} {j : Nat}
    (h : spec ∈ inputs m) (hname : spec.name = condition j) :
    spec = .value (condition j) .boolean (some (.boolean true)) := by
  rcases List.mem_append.mp h with h | h
  · obtain ⟨i, -, hi⟩ := List.mem_flatMap.mp h
    simp only [List.mem_cons, List.not_mem_nil, or_false] at hi
    rcases hi with rfl | rfl
    · rw [condition_inj.mp hname]
    · exact absurd hname (body_ne_condition i j)
  · split at h
    · rw [List.mem_singleton] at h
      rw [h] at hname
      exact absurd hname (otherwise_ne_condition j)
    · cases h

/-! ## What the moved nodes are -/

/-- What the nodes of a sequence were: statements, and no defaults. -/
def Sequence (r : Registry) (tag? : NodeId → Option Tag) (body : List NodeId) : Prop :=
  ∀ c ∈ body, (tag? c).any (fun t => t.shadow) = false ∧
    ((tag? c).bind fun t => (r.find? t.kind).map (·.shape.role)) = some .statement

/-- What the nodes of a branch were. -/
structure Branch.Ready (r : Registry) (tag? : NodeId → Option Tag) (b : Branch) : Prop where
  shadow : ∀ c ∈ b.shadow, tag? c = some ⟨.logicBoolean, true⟩ ∧
    ((tag? c).bind fun t => (r.find? t.kind).map (·.shape.role)).any Role.isValue = true
  condition : ∀ c ∈ b.condition, (tag? c).any (fun t => t.shadow) = false ∧
    ((tag? c).bind fun t => (r.find? t.kind).map (·.shape.role)).any Role.isValue = true
  body : Sequence r tag? b.body

/-- What the node of a move was: the default of a condition, a value, a statement, or no default. -/
def Move.Ready (r : Registry) (tag? : NodeId → Option Tag) : Move → Prop
  | .shadow input c => (∃ j, input = Conditional.condition j) ∧
    tag? c = some ⟨.logicBoolean, true⟩ ∧
      ((tag? c).bind fun t => (r.find? t.kind).map (·.shape.role)).any Role.isValue = true
  | .value _ c => (tag? c).any (fun t => t.shadow) = false ∧
    ((tag? c).bind fun t => (r.find? t.kind).map (·.shape.role)).any Role.isValue = true
  | .statement _ c => (tag? c).any (fun t => t.shadow) = false ∧
    ((tag? c).bind fun t => (r.find? t.kind).map (·.shape.role)) = some .statement
  | .release c => (tag? c).any (fun t => t.shadow) = false
  | .discard c => tag? c = some ⟨.logicBoolean, true⟩

theorem Branch.Ready.moves {r : Registry} {tag? : NodeId → Option Tag} {b : Branch}
    (h : b.Ready r tag?) (place : Option Nat) : ∀ mv ∈ b.moves place, mv.Ready r tag? := by
  intro mv hmv
  cases place with
  | none =>
    simp only [Branch.moves, List.mem_append, List.mem_map, Option.mem_toList] at hmv
    rcases hmv with ⟨c, hc, rfl⟩ | ⟨c, hc, rfl⟩ | ⟨c, hc, rfl⟩
    · exact (h.shadow c hc).1
    · exact (h.condition c hc).1
    · exact (h.body c hc).1
  | some j =>
    simp only [Branch.moves, List.mem_append, List.mem_map, Option.mem_toList] at hmv
    rcases hmv with ⟨c, hc, rfl⟩ | ⟨c, hc, rfl⟩ | ⟨c, hc, rfl⟩
    · exact ⟨⟨j, rfl⟩, h.shadow c hc⟩
    · exact h.condition c hc
    · exact h.body c hc

/-! ## Tidy moves -/

/-- A conditional on its way to a mutation: the workspace is tidy when the nodes that wait are read
as loose, and these are what they were. -/
structure Moving (r : Registry) (tag? : NodeId → Option Tag) (w : Workspace) (id : NodeId)
    (m : Mutation) (ms : List Move) (rest : List NodeId) : Prop where
  shifting : Shifting w id ms rest
  tidy : Tidy r (w.loosen (waiting ms rest)) (waiting ms rest)
  tags : ∀ x ∈ waiting ms rest, w.tag? x = tag? x
  layout : ∃ n d, w.get? id = some n ∧ r.find? n.kind = some d ∧ d.shape.layout = .branching ∧
    n.mutation = some m
  ready : ∀ mv ∈ ms, mv.Ready r tag?

namespace Moving

open Workspace

variable {r : Registry} {tag? : NodeId → Option Tag} {w : Workspace} {id c : NodeId}
  {m : Mutation} {mv : Move} {ms : List Move} {rest : List NodeId}

theorem isReal (h : Moving r tag? w id m ms rest) (hc : c ∈ waiting ms rest)
    (hreal : (tag? c).any (fun t => t.shadow) = false) :
    (w.loosen (waiting ms rest)).IsReal c := by
  rw [IsReal, tag?_loosen, h.tags c hc]
  exact hreal

theorem role? (h : Moving r tag? w id m ms rest) (hc : c ∈ waiting ms rest) :
    (w.loosen (waiting ms rest)).role? r c =
      (tag? c).bind fun t => (r.find? t.kind).map (·.shape.role) := by
  rw [role?_eq_tag?, tag?_loosen, h.tags c hc]

/-- The default of a condition may be the one that waits. -/
theorem default_tag (h : Moving r tag? w id m ms rest) (hc : c ∈ waiting ms rest) {n : Node}
    (hn : w.get? id = some n) {j : Nat} (htag : tag? c = some ⟨.logicBoolean, true⟩) :
    ∀ d, r.find? n.kind = some d → ∀ name check default,
      .value name check default ∈ d.shape.inputsFor n.mutation →
      name = Conditional.condition j →
      some ((w.loosen (waiting ms rest)).tag? c) =
        default.map fun s => some ⟨s.kind, true⟩ := by
  intro d hd name check default hspec hname
  obtain ⟨n', d', hn', hd', hl, hm⟩ := h.layout
  obtain rfl : n' = n := Option.some.inj (hn'.symm.trans hn)
  obtain rfl : d' = d := Option.some.inj (hd'.symm.trans hd)
  simp only [Shape.inputsFor, hl, hm, Option.getD_some] at hspec
  have hval := Conditional.eq_of_mem_inputs hspec hname
  cases hval
  rw [tag?_loosen, h.tags c hc, htag]
  rfl

/-- After a move the workspace is tidy with one node less that waits. -/
theorem tidy_carry (hr : r.Sound) (h : Moving r tag? w id m (mv :: ms) rest) :
    Tidy r ((w.carry id mv).loosen (waiting ms rest)) (waiting ms rest) := by
  have hmv := h.ready mv List.mem_cons_self
  have hs := h.shifting
  have hc : mv.node ∈ waiting (mv :: ms) rest := List.mem_cons_self
  have hcw := hs.node_not_mem
  have hidw : id ∉ mv.node :: waiting ms rest := hs.self_not_mem
  have hci := hs.node_ne_self
  have hca : mv.node ∉ (w.loosen (waiting (mv :: ms) rest)).ancestors id := fun hm =>
    hs.node_clear (List.mem_cons_of_mem _ hm)
  cases mv with
  | shadow input c =>
    simp only [Move.node] at hc hcw hidw hci hca
    obtain ⟨⟨j, rfl⟩, htag, hrole⟩ := hmv
    obtain ⟨n, s, hn, hslot, o, rfl, hleaf⟩ := hs.slot_of_move rfl
    have hoi := hs.owned_ne_self hn (Node.owned_of_slot? hslot (c := o) (by simp [Slot.owned]))
    rw [← h.role? hc] at hrole
    show Tidy r ((w.setShadow id (Conditional.condition j) c).loosen _) _
    rw [setShadow_eq hn hslot hleaf hoi, loosen_swapDefault hcw hidw]
    exact h.tidy.swap hr hcw (hs.get?_loosen_self hn) hslot hci hca hrole (h.default_tag hc hn htag)
  | value input c =>
    simp only [Move.node] at hc hcw hidw hci hca
    obtain ⟨n, s, hn, hslot, o, rfl⟩ := hs.slot_of_move rfl
    have hrole := hmv.2
    rw [← h.role? hc] at hrole
    show Tidy r ((w.setChild id input c).loosen _) _
    rw [setChild, loosen_update_cons hcw fun _ => rfl, loosen_update hidw]
    exact h.tidy.setChild hcw (hs.get?_loosen_self hn) hslot hci hca (h.isReal hc hmv.1) hrole
  | statement input c =>
    simp only [Move.node] at hc hcw hidw hci hca
    obtain ⟨n, s, hn, hslot, cs, rfl⟩ := hs.slot_of_move rfl
    have hrole := hmv.2
    rw [← h.role? hc] at hrole
    show Tidy r ((w.appendStatement id input c).loosen _) _
    rw [appendStatement, setStatement, loosen_update_cons hcw fun _ => rfl, loosen_update hidw]
    exact h.tidy.setStatement hcw (hs.get?_loosen_self hn) hslot hci hca _ (h.isReal hc hmv.1) hrole
  | release c =>
    simp only [Move.node] at hc hcw
    obtain ⟨k, hk⟩ := hs.get?_of_mem hc
    show Tidy r ((w.pushRoot c).loosen _) _
    rw [loosen_pushRoot hk hcw]
    exact h.tidy.addRoot hcw (h.isReal hc hmv)
  | discard c =>
    simp only [Move.node] at hcw
    show Tidy r ((w.remove (w.descendants (Move.discard c).node)).loosen _) _
    rw [hs.loosen_discard]
    exact h.tidy.remove hcw

theorem carry (hr : r.Sound) (h : Moving r tag? w id m (mv :: ms) rest) :
    Moving r tag? (w.carry id mv) id m ms rest := by
  obtain ⟨n, d, hn, hd, hl, hm⟩ := h.layout
  refine ⟨h.shifting.carry, h.tidy_carry hr, fun x hx => ?_,
    ⟨mv.refit n, d, h.shifting.get?_carry_self hn, ?_, hl, ?_⟩,
    fun mv' hmv' => h.ready mv' (List.mem_cons_of_mem _ hmv')⟩
  · have hxi : x ≠ id := h.shifting.ne_self (mem_waiting_cons hx)
    rw [Workspace.tag?, h.shifting.get?_carry_of_stays (.inl hx) hxi, ← Workspace.tag?]
    exact h.tags x (mem_waiting_cons hx)
  · rw [Move.kind_refit, hd]
  · rw [Move.mutation_refit, hm]

theorem run (hr : r.Sound) (h : Moving r tag? w id m ms rest) :
    Moving r tag? (ms.foldl (Workspace.carry id) w) id m [] rest := by
  induction ms generalizing w with
  | nil => exact h
  | cons mv ms ih => exact ih (h.carry hr)

end Moving

/-! ## The change of a mutation -/

namespace Tidy

open Workspace

variable {r : Registry} {w : Workspace} {id : NodeId} {n : Node} {d : Definition}
  {old : Mutation}

/-- The two conditions on the inputs of a conditional. -/
theorem laid_conditional (h : Tidy r w) (hn : w.get? id = some n) (hd : r.find? n.kind = some d)
    (hl : d.shape.layout = .branching) (hm : n.mutation = some old) :
    Laid (Slot.Fits (w.role? r)) (Conditional.inputs old) n.inputs ∧
      Laid (Slot.Furnished w.tag?) (Conditional.inputs old) n.inputs := by
  have hfits := h.conforms.slots id n d hn hd
  have hfurn := h.furnished.slots id n d hn hd
  rw [Shape.inputsFor, hl, hm] at hfits hfurn
  exact ⟨hfits, hfurn⟩

theorem sequence_of_slot {cs : List NodeId} {name : String}
    (hf : (Slot.statements cs).Fits (w.role? r) (.statement name))
    (hs : (Slot.statements cs).Furnished w.tag? (.statement name)) : Sequence r w.tag? cs := by
  intro c hc
  refine ⟨hs c hc, ?_⟩
  rw [← role?_eq_tag?]
  exact hf c hc

theorem ready_branch (h : Tidy r w) (hn : w.get? id = some n) (hd : r.find? n.kind = some d)
    (hl : d.shape.layout = .branching) (hm : n.mutation = some old) {i : Nat}
    (hi : i < old.branches) : (n.branch i).Ready r w.tag? := by
  obtain ⟨hfits, hfurn⟩ := h.laid_conditional hn hd hl hm
  obtain ⟨sc, hsc, hfc⟩ := Node.slot?_condition hfits hi
  obtain ⟨sc', hsc', hgc⟩ := Node.slot?_condition hfurn hi
  obtain ⟨sb, hsb, hfb⟩ := Node.slot?_body hfits hi
  obtain ⟨sb', hsb', hgb⟩ := Node.slot?_body hfurn hi
  rw [hsc, Option.some.injEq] at hsc'
  rw [hsb, Option.some.injEq] at hsb'
  subst hsc' hsb'
  cases sc with
  | statements _ => exact hfc.elim
  | value child shadow =>
    cases sb with
    | value _ _ => exact hfb.elim
    | statements cs =>
      have hbranch : n.branch i = ⟨child, shadow, cs⟩ := by
        simp [Node.branch, Node.statements, hsc, hsb]
      rw [hbranch]
      refine ⟨fun c hc => ?_, fun c hc => ?_, sequence_of_slot hfb hgb⟩
      · rw [Option.mem_def] at hc
        subst hc
        refine ⟨Option.some.inj hgc.2, ?_⟩
        rw [← role?_eq_tag?]
        exact hfc c (by simp)
      · rw [Option.mem_def] at hc
        subst hc
        refine ⟨hgc.1 c rfl, ?_⟩
        rw [← role?_eq_tag?]
        exact hfc c (by simp)

theorem sequence_otherwise (h : Tidy r w) (hn : w.get? id = some n)
    (hd : r.find? n.kind = some d) (hl : d.shape.layout = .branching)
    (hm : n.mutation = some old) : Sequence r w.tag? (n.statements Conditional.otherwise) := by
  obtain ⟨hfits, hfurn⟩ := h.laid_conditional hn hd hl hm
  cases he : old.hasElse with
  | false =>
    rw [Node.statements_otherwise hfits he]
    intro c hc
    cases hc
  | true =>
    obtain ⟨s, hs, hf⟩ := Node.slot?_otherwise hfits he
    obtain ⟨s', hs', hg⟩ := Node.slot?_otherwise hfurn he
    rw [hs, Option.some.injEq] at hs'
    subst hs'
    cases s with
    | value _ _ => exact hf.elim
    | statements cs =>
      simp only [Node.statements, hs]
      exact sequence_of_slot hf hg

theorem loose_congr {loose loose' : List NodeId} (h : Tidy r w loose)
    (hl : ∀ x, x ∈ loose' ↔ x ∈ loose) : Tidy r w loose' :=
  ⟨h.forest.loose_congr hl, h.conforms, h.furnished⟩

/-- What the moves of a conditional take is what its new place asks for. -/
theorem ready_moves (h : Tidy r w) (hn : w.get? id = some n) (hd : r.find? n.kind = some d)
    (hl : d.shape.layout = .branching) (hm : n.mutation = some old) (target : Mutation)
    (place : Nat → Option Nat) (keep : Bool) :
    ∀ mv ∈ n.moves old target place keep, mv.Ready r w.tag? := by
  intro mv hmv
  rcases List.mem_append.mp hmv with hmv | hmv
  · obtain ⟨i, hi, hmv⟩ := List.mem_flatMap.mp hmv
    exact (h.ready_branch hn hd hl hm (List.mem_range.mp hi)).moves _ mv hmv
  · obtain ⟨c, hc, rfl⟩ := List.mem_map.mp hmv
    have hready := h.sequence_otherwise hn hd hl hm c hc
    split
    · exact hready
    · exact hready.1

/-- A conditional that was given fresh inputs in a tidy workspace. -/
theorem moving (hr : r.Sound) (h : Tidy r w) {target : Mutation} {ms : List Move}
    {e : Edited (List NodeId)} (he : Reshaped r w id n old target ms e) :
    Moving r w.tag? (w.refurnish r id target) id target ms (n.strays old) := by
  obtain ⟨d, hd, hl⟩ := he.described
  obtain ⟨place, keep, rfl⟩ := he.moves
  have hprep := h.prepared id
  have hspecs : Conditional.inputs target = d.shape.inputsFor (some target) := by
    simp [Shape.inputsFor, hl]
  have hmem (x : NodeId) :
      x ∈ waiting (n.moves old target place keep) (n.strays old) ↔ x ∈ n.owned :=
    (Node.waiting_perm_owned (h.forest.linked.owned_nodup (wiring_of_get? he.node)) old target place
      keep).mem_iff
  have hself := (get?_furnish r (Conditional.inputs target)
    (fun n => { n with mutation := some target }) hprep.below he.node id _).mpr (.inl ⟨rfl, rfl⟩)
  refine ⟨he.shifting, ?_, fun x hx => ?_, ⟨_, d, hself, hd, hl, rfl⟩,
    h.ready_moves he.node hd hl he.mutation target place keep⟩
  · have hloosen : (w.refurnish r id target).loosen
        (waiting (n.moves old target place keep) (n.strays old)) =
          (w.refurnish r id target).loosen n.owned := by
      refine eq_of_get? (fun x => ?_) rfl rfl
      simp only [get?_loosen, hmem]
    rw [hloosen]
    refine (hprep.furnish (f := fun n => { n with mutation := some target }) hr he.node hd hspecs
      (by simp [Shape.isBranching, hl]) (fun _ => ⟨rfl, rfl, rfl⟩) (fun _ => rfl)
      (fun _ => rfl)).loose_congr fun x => ?_
    rw [List.append_nil, hmem]
  · obtain ⟨l, hlx, -⟩ := h.forest.linked.owned_there (wiring_of_get? he.node) ((hmem x).mp hx)
    obtain ⟨k, hk, -⟩ := get?_of_wiring hlx
    exact hprep.tag?_furnish (f := fun n => { n with mutation := some target })
      (Conditional.inputs target) he.node (fun _ => ⟨rfl, rfl, rfl⟩) hk

/-- In a tidy workspace nothing is left over when all moves are made. -/
theorem moved (hr : r.Sound) (h : Tidy r w) {target : Mutation} {ms : List Move}
    {e : Edited (List NodeId)} (he : Reshaped r w id n old target ms e) :
    Moving r w.tag? (ms.foldl (Workspace.carry id) (w.refurnish r id target)) id target [] [] := by
  obtain ⟨d, hd, hl⟩ := he.described
  have hnone := Node.strays_eq_nil (h.laid_conditional he.node hd hl he.mutation).1
  have hrun := (h.moving hr he).run hr
  rwa [hnone] at hrun

/-- An edit of a conditional keeps a tidy workspace. -/
theorem reshaping (hr : r.Sound) (h : Tidy r w) {e : Edited (List NodeId)}
    (he : Reshaping r w id e) : Tidy r e.workspace := by
  cases he with
  | refused e => exact h
  | same => exact h
  | changed he =>
    have htidy := (h.moved hr he).tidy
    rw [he.outcome]
    rwa [show waiting [] [] = [] from rfl, loosen_nil] at htidy

theorem below (h : Tidy r w) : w.Below := (h.prepared 0).below

theorem addBranch (hr : r.Sound) (h : Tidy r w) : Tidy r (w.addBranch r id).workspace :=
  h.reshaping hr (.addBranch hr.plainConditions h.forest h.below)

theorem removeBranch (hr : r.Sound) (h : Tidy r w) {index : Nat} :
    Tidy r (w.removeBranch r id index).workspace :=
  h.reshaping hr (.removeBranch hr.plainConditions h.forest h.below index)

theorem addElse (hr : r.Sound) (h : Tidy r w) : Tidy r (w.addElse r id).workspace :=
  h.reshaping hr (.addElse hr.plainConditions h.forest h.below)

theorem removeElse (hr : r.Sound) (h : Tidy r w) : Tidy r (w.removeElse r id).workspace :=
  h.reshaping hr (.removeElse hr.plainConditions h.forest h.below)

theorem reshape (hr : r.Sound) (h : Tidy r w) {target : Mutation} :
    Tidy r (w.reshape r id target).workspace :=
  h.reshaping hr (.reshape hr.plainConditions h.forest h.below target)

end Tidy

end BlockText

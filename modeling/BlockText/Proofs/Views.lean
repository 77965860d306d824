import BlockText.Proofs.Emission
import BlockText.Proofs.Labels

/-!
# What a tree view tells

A tree view loses nothing: two well-formed workspaces with one view have the same roots and the same
nodes. A view is taken as a drawing, a forest of texts with a lead in front of each line. The
character behind the lead says whether a line is an entry or stands below one, and the branch says
whether more entries follow, so a drawing is read off its lines. Labels then give the nodes, and the
flag in a label tells a default from a child.
-/

namespace BlockText

open Text Wiring Workspace

/-! ## Drawings -/

namespace TreeView

/-- Entries one below the other, each with what stands below it. -/
inductive Drawing where
  | blank
  | entry (text : List Char) (inner next : Drawing)

namespace Drawing

/-- No entries. -/
def isBlank : Drawing → Bool
  | blank => true
  | entry _ _ _ => false

/-- The lines of a drawing behind a lead. -/
def draw : List Char → Drawing → List (List Char)
  | _, blank => []
  | lead, entry text inner next =>
    (lead ++ branch next.isBlank ++ ' ' :: text) ::
      (draw (below lead next.isBlank) inner ++ draw lead next)

/-- A drawing with an entry for each member of a list. -/
def ofList {α : Type} (text : α → List Char) (inner : α → Drawing) : List α → Drawing
  | [] => blank
  | x :: xs => entry (text x) (inner x) (ofList text inner xs)

theorem entries_eq_draw {α : Type} (text : α → List Char) (inner : α → Drawing) (lead : List Char)
    (xs : List α) :
    entries (fun last x => (lead ++ branch last ++ ' ' :: text x) ::
      (inner x).draw (below lead last)) xs = (ofList text inner xs).draw lead := by
  induction xs with
  | nil => rfl
  | cons x xs ih =>
    cases xs with
    | nil => simp [entries, ofList, draw, isBlank]
    | cons y ys =>
      rw [entries, ih]
      rfl

/-- Drawings of two lists are equal only where the members are drawn alike. -/
theorem forall₂_of_ofList_eq {α β : Type} {text : α → List Char} {inner : α → Drawing}
    {text' : β → List Char} {inner' : β → Drawing} {R : α → β → Prop} {xs : List α} {ys : List β}
    (h : ofList text inner xs = ofList text' inner' ys)
    (hR : ∀ x ∈ xs, ∀ y ∈ ys, text x = text' y → inner x = inner' y → R x y) :
    List.Forall₂ R xs ys := by
  induction xs generalizing ys with
  | nil =>
    cases ys with
    | nil => exact .nil
    | cons y ys => cases h
  | cons x xs ih =>
    cases ys with
    | nil => cases h
    | cons y ys =>
      obtain ⟨htext, hinner, hnext⟩ := Drawing.entry.inj h
      refine .cons (hR x List.mem_cons_self y List.mem_cons_self htext hinner) (ih hnext ?_)
      intro x hx y hy
      exact hR x (List.mem_cons_of_mem _ hx) y (List.mem_cons_of_mem _ hy)

/-! ## Reading a drawing off its lines -/

/-- A line below an entry: behind the lead stands a blank or a bar. -/
def isInner (lead cs : List Char) : Bool :=
  cs[lead.length]? == some ' ' || cs[lead.length]? == some '│'

theorem branch_append_inj {last last' : Bool} {xs ys : List Char}
    (h : branch last ++ xs = branch last' ++ ys) : last = last' ∧ xs = ys := by
  cases last <;> cases last'
  · exact ⟨rfl, List.append_cancel_left h⟩
  · exact absurd (List.cons.inj h).1 (by decide)
  · exact absurd (List.cons.inj h).1 (by decide)
  · exact ⟨rfl, List.append_cancel_left h⟩

/-- Every line of a drawing goes on behind the lead like an entry or like what is below one. -/
theorem mem_draw {d : Drawing} {lead line : List Char} (h : line ∈ d.draw lead) :
    ∃ c rest, line = lead ++ c :: rest ∧ c ∈ ['└', '├', '│', ' '] := by
  induction d generalizing lead with
  | blank => cases h
  | entry text inner next ihinner ihnext =>
    rw [draw, List.mem_cons, List.mem_append] at h
    rcases h with rfl | h | h
    · cases next.isBlank
      · exact ⟨'├', '─' :: ' ' :: text, by simp [branch], by decide⟩
      · exact ⟨'└', '─' :: ' ' :: text, by simp [branch], by decide⟩
    · obtain ⟨c, rest, rfl, -⟩ := ihinner h
      cases next.isBlank
      · exact ⟨'│', ' ' :: c :: rest, by simp [below], by decide⟩
      · exact ⟨' ', ' ' :: c :: rest, by simp [below], by decide⟩
    · exact ihnext h

theorem isInner_of_mem {d : Drawing} {lead line : List Char} {last : Bool}
    (h : line ∈ d.draw (below lead last)) : isInner lead line = true := by
  obtain ⟨c, rest, rfl, -⟩ := mem_draw h
  cases last <;> simp [isInner, below]

theorem isInner_head {d : Drawing} {lead line : List Char} (h : line ∈ (d.draw lead).head?) :
    isInner lead line = false := by
  cases d with
  | blank => cases h
  | entry text inner next =>
    cases h
    cases next.isBlank <;> simp [isInner, branch]

/-- A drawing is read off its lines. -/
theorem draw_injective {d e : Drawing} {lead : List Char} (h : d.draw lead = e.draw lead) :
    d = e := by
  induction d generalizing lead e with
  | blank =>
    cases e with
    | blank => rfl
    | entry text inner next => cases h
  | entry text inner next ihinner ihnext =>
    cases e with
    | blank => cases h
    | entry text' inner' next' =>
      obtain ⟨hline, hlines⟩ := List.cons.inj h
      rw [List.append_assoc, List.append_assoc, List.append_cancel_left_eq] at hline
      obtain ⟨hlast, htext⟩ := branch_append_inj hline
      obtain ⟨-, rfl⟩ := List.cons.inj htext
      rw [hlast] at hlines
      -- the lines below the entry are told from the entries after it
      obtain ⟨hinner, hnext⟩ := run_append_inj (fun _ hl => isInner_of_mem hl)
        (fun _ hl => isInner_of_mem hl) (fun _ hl => isInner_head hl)
        (fun _ hl => isInner_head hl) hlines
      rw [ihinner hinner, ihnext hnext]

/-! ## Lines -/

/-- A condition on every text of a drawing. -/
def Texts (P : List Char → Prop) : Drawing → Prop
  | blank => True
  | entry text inner next => P text ∧ inner.Texts P ∧ next.Texts P

theorem texts_ofList {α : Type} {P : List Char → Prop} {text : α → List Char}
    {inner : α → Drawing} {xs : List α} (ht : ∀ x ∈ xs, P (text x))
    (hi : ∀ x ∈ xs, (inner x).Texts P) : (ofList text inner xs).Texts P := by
  induction xs with
  | nil => trivial
  | cons x xs ih =>
    exact ⟨ht x List.mem_cons_self, hi x List.mem_cons_self,
      ih (fun y hy => ht y (List.mem_cons_of_mem _ hy))
        (fun y hy => hi y (List.mem_cons_of_mem _ hy))⟩

theorem newline_draw {d : Drawing} {lead : List Char} (hd : d.Texts ('\n' ∉ ·))
    (hlead : '\n' ∉ lead) : ∀ line ∈ d.draw lead, '\n' ∉ line := by
  induction d generalizing lead with
  | blank =>
    intro line hline
    cases hline
  | entry text inner next ihinner ihnext =>
    obtain ⟨htext, hinner, hnext⟩ := hd
    intro line hline
    rw [draw, List.mem_cons, List.mem_append] at hline
    rcases hline with rfl | hline | hline
    · cases next.isBlank <;> simp [branch, hlead, htext]
    · refine ihinner hinner ?_ line hline
      cases next.isBlank <;> simp [below, hlead]
    · exact ihnext hnext hlead line hline

end Drawing

/-! ## The drawing of a node -/

/-- The text of what a slot owns. -/
def entryText (w : Workspace) (id : NodeId) : List Char :=
  (w.get? id).elim ("<missing ".toList ++ id.shown.toList ++ ['>']) label

/-- What stands below the label of a node. -/
def sketch (w : Workspace) : Nat → Node → Drawing
  | 0, _ => .blank
  | bound + 1, n =>
    .ofList (fun i => i.name.toList) (fun i =>
      .ofList (entryText w) (fun id => (w.get? id).elim .blank (sketch w bound)) i.slot.owned)
      n.inputs

theorem inputs_eq_draw (w : Workspace) (bound : Nat) (lead : List Char) (n : Node) :
    inputs w bound lead n = (sketch w bound n).draw lead := by
  induction bound generalizing lead n with
  | zero => rfl
  | succ bound ih =>
    rw [sketch, ← Drawing.entries_eq_draw]
    unfold inputs
    congr
    funext last i
    rw [← Drawing.entries_eq_draw]
    congr
    funext lastChild id
    cases hid : w.get? id with
    | none => simp [entryText, hid, Drawing.draw]
    | some child => simp [entryText, hid, ih]

end TreeView

/-! ## Slots -/

section

/-- The flags of nodes tell what stands where in a value slot. -/
def Slot.Told (flag : NodeId → Bool) : Slot → Prop
  | .value child shadow => (∀ c ∈ child, flag c = false) ∧ ∀ c ∈ shadow, flag c = true
  | .statements _ => True

variable {flag flag' : NodeId → Bool} {role? role?' : NodeId → Option Role}

/-- Child and default are the nodes of a slot without and with the flag. -/
theorem Slot.Told.filter_owned {child shadow : Option NodeId} (h : (value child shadow).Told flag) :
    child.toList = (value child shadow).owned.filter (fun c => !flag c) ∧
      shadow.toList = (value child shadow).owned.filter flag := by
  obtain ⟨hchild, hshadow⟩ := h
  cases child <;> cases shadow <;> simp_all [owned]

/-- The nodes that a slot owns and their flags tell the slot. -/
theorem Slot.Fits.eq_of_owned {spec : InputSpec} {s t : Slot} (hs : s.Fits role? spec)
    (ht : t.Fits role?' spec) (hsf : s.Told flag) (htf : t.Told flag')
    (howned : s.owned = t.owned) (hflag : ∀ c ∈ s.owned, flag c = flag' c) : s = t := by
  cases spec with
  | statement name =>
    cases s with
    | value _ _ => exact hs.elim
    | statements xs =>
      cases t with
      | value _ _ => exact ht.elim
      | statements ys => exact congrArg Slot.statements howned
  | value name check default =>
    cases s with
    | statements _ => exact hs.elim
    | value child shadow =>
      cases t with
      | statements _ => exact ht.elim
      | value child' shadow' =>
        obtain ⟨hchild, hshadow⟩ := hsf.filter_owned
        obtain ⟨hchild', hshadow'⟩ := htf.filter_owned
        have hsame : child.toList = child'.toList := by
          rw [hchild, hchild', ← howned]
          exact List.filter_congr fun c hc => by rw [hflag c hc]
        have hsame' : shadow.toList = shadow'.toList := by
          rw [hshadow, hshadow', ← howned]
          exact List.filter_congr hflag
        have hinj {a b : Option NodeId} (hab : a.toList = b.toList) : a = b := by
          simpa using congrArg List.head? hab
        rw [hinj hsame, hinj hsame']

theorem Laid.eq_of_owned {specs : List InputSpec} {is js : List Input}
    (h : Laid (Slot.Fits role?) specs is) (h' : Laid (Slot.Fits role?') specs js)
    (hf : ∀ i ∈ is, i.slot.Told flag) (hf' : ∀ j ∈ js, j.slot.Told flag')
    (howned : List.Forall₂ (fun i j => i.slot.owned = j.slot.owned ∧
      ∀ c ∈ i.slot.owned, flag c = flag' c) is js) : is = js := by
  induction howned generalizing specs with
  | nil => rfl
  | @cons i j is js hij _ ih =>
    cases h with
    | cons hi his =>
      cases h' with
      | cons hj hjs =>
        have hname : i.name = j.name := hi.1.trans hj.1.symm
        have hslot : i.slot = j.slot := hi.2.eq_of_owned hj.2 (hf i List.mem_cons_self)
          (hf' j List.mem_cons_self) hij.1 hij.2
        have htail := ih his hjs (fun k hk => hf k (List.mem_cons_of_mem _ hk))
          (fun k hk => hf' k (List.mem_cons_of_mem _ hk))
        obtain ⟨iname, islot⟩ := i
        obtain ⟨jname, jslot⟩ := j
        rw [htail, show iname = jname from hname, show islot = jslot from hslot]

end

/-- A forest of built-in blocks that conforms to their shapes and in which the nodes flagged as
defaults are those that stand as defaults. Declared defaults may be missing. -/
structure Flagged (w : Workspace) : Prop where
  forest : Forest w
  conforms : Conforms .builtin w
  shadow_iff : ∀ x n, w.get? x = some n → (n.shadow = true ↔ ∃ p k name child,
    w.get? p = some k ∧ (⟨name, .value child (some x)⟩ : Input) ∈ k.inputs)

theorem WellFormed.flagged {w : Workspace} (h : WellFormed .builtin w) : Flagged w :=
  ⟨h.tidy.forest, h.tidy.conforms, h.shadow_iff⟩

/-- Whether a node is flagged as a default. -/
def Workspace.isFlagged (w : Workspace) (x : NodeId) : Bool := (w.get? x).any (·.shadow)

namespace Flagged

variable {w : Workspace} {p c : NodeId} {k : Node}

theorem there (h : Flagged w) (hk : w.get? p = some k) {i : Input} (hi : i ∈ k.inputs)
    (hc : c ∈ i.slot.owned) : ∃ n, w.get? c = some n := by
  have hparent := (mem_owned_iff h.forest.linked hk).mp (List.mem_flatMap.mpr ⟨i, hi, hc⟩)
  exact (Option.bind_eq_some_iff.mp hparent).imp fun _ hn => hn.1

/-- A child is no default as well: it would be owned twice. -/
theorem not_default_of_child (h : Flagged w) {name : String} {shadow : Option NodeId}
    (hk : w.get? p = some k) (hi : (⟨name, .value (some c) shadow⟩ : Input) ∈ k.inputs) :
    ¬ ∃ q l name' child, w.get? q = some l ∧
      (⟨name', .value child (some c)⟩ : Input) ∈ l.inputs := by
  rintro ⟨q, l, name', child, hl, hj⟩
  have hown : c ∈ (Slot.value (some c) shadow).owned := List.mem_cons_self
  have hown' : c ∈ (Slot.value child (some c)).owned := by simp [Slot.owned]
  have hq : q = p := h.forest.linked.owner_unique (wiring_of_get? hl) (wiring_of_get? hk)
    (List.mem_flatMap.mpr ⟨_, hj, hown'⟩) (List.mem_flatMap.mpr ⟨_, hi, hown⟩)
  subst hq
  obtain rfl : k = l := Option.some.inj (hk.symm.trans hl)
  have hnodup := h.forest.linked.owned_nodup (wiring_of_get? hk)
  -- both are one input, which would hold the node in front of itself
  obtain ⟨-, hsame⟩ := Input.mk.inj (Node.input_unique hnodup hi hj hown hown')
  obtain ⟨rfl, rfl⟩ := Slot.value.inj hsame
  have hslot := (List.nodup_flatMap.mp hnodup).1 _ hi
  simp [Slot.owned] at hslot

theorem told (h : Flagged w) (hk : w.get? p = some k) {i : Input} (hi : i ∈ k.inputs) :
    i.slot.Told w.isFlagged := by
  obtain ⟨name, slot⟩ := i
  cases slot with
  | statements xs => trivial
  | value child shadow =>
    constructor
    · rintro c rfl
      obtain ⟨n, hn⟩ := h.there hk hi List.mem_cons_self
      have hreal := mt (h.shadow_iff c n hn).mp (h.not_default_of_child hk hi)
      rw [Bool.not_eq_true] at hreal
      simp [Workspace.isFlagged, hn, hreal]
    · rintro c rfl
      obtain ⟨n, hn⟩ := h.there (c := c) hk hi (by simp [Slot.owned])
      have hflag := (h.shadow_iff c n hn).mpr ⟨p, k, name, child, hk, hi⟩
      simp [Workspace.isFlagged, hn, hflag]

end Flagged

/-! ## Line ends -/

theorem Conditional.newline_names {m : Mutation} {name : String} (h : name ∈ names m) :
    '\n' ∉ name.toList := by
  have hnumber (i : Nat) : '\n' ∉ Nat.toDigits 10 i := (solid_digits i).newline
  rcases List.mem_append.mp h with h | h
  · obtain ⟨i, -, hi⟩ := List.mem_flatMap.mp h
    simp only [List.mem_cons, List.not_mem_nil, or_false] at hi
    rcases hi with rfl | rfl
    · simp [condition, hnumber i]
    · simp [body, hnumber i]
  · cases hm : m.hasElse <;> simp [hm] at h
    rw [h]
    decide

theorem Kind.newline_inputs (k : Kind) (m : Option Mutation) {name : String}
    (h : name ∈ (k.definition.shape.inputsFor m).map InputSpec.name) : '\n' ∉ name.toList := by
  have hfixed : ∀ inputs, k.definition.shape.layout = .fixed inputs →
      ∀ name ∈ inputs.map InputSpec.name, '\n' ∉ name.toList := by
    intro inputs hlayout
    cases k <;> cases hlayout <;> decide
  rw [Shape.inputsFor] at h
  cases hlayout : k.definition.shape.layout with
  | branching =>
    rw [hlayout, Conditional.map_name_inputs] at h
    exact Conditional.newline_names h
  | fixed inputs =>
    rw [hlayout] at h
    exact hfixed inputs hlayout name h

namespace TreeView

variable {w v : Workspace} {x y : NodeId} {n m : Node}

theorem newline_entryText (hw : Conforms .builtin w) (id : NodeId) : '\n' ∉ entryText w id := by
  cases hid : w.get? id with
  | none =>
    have := (solid_digits id).newline
    simp [entryText, hid, toList_shown, this]
  | some n =>
    simp only [entryText, hid, Option.elim]
    exact newline_label (hw.describes hid)

theorem newline_sketch (hw : Conforms .builtin w) (bound : Nat) (hx : w.get? x = some n) :
    (sketch w bound n).Texts ('\n' ∉ ·) := by
  induction bound generalizing x n with
  | zero => trivial
  | succ bound ih =>
    have hlaid := hw.slots x n _ hx (Registry.find?_builtin n.kind)
    apply Drawing.texts_ofList
    · intro i hi
      have hname := List.mem_map_of_mem (f := fun i : Input => i.name) hi
      rw [hlaid.map_name] at hname
      exact n.kind.newline_inputs n.mutation hname
    · intro i _
      apply Drawing.texts_ofList
      · intro c _
        exact newline_entryText hw c
      · intro c _
        cases hc : w.get? c with
        | none => trivial
        | some k => exact ih hc

theorem root_eq (hx : w.get? x = some n) :
    root w x = label n :: (sketch w (w.size + 1) n).draw [] := by
  simp only [root, hx, inputs_eq_draw]

theorem newline_lines (hw : Conforms .builtin w) : ∀ line ∈ lines w, '\n' ∉ line := by
  intro line hline
  obtain ⟨x, -, hline⟩ := List.mem_flatMap.mp hline
  cases hx : w.get? x with
  | none => simp [root, hx] at hline
  | some n =>
    rw [root_eq hx] at hline
    rcases List.mem_cons.mp hline with rfl | hline
    · exact newline_label (hw.describes hx)
    · exact Drawing.newline_draw (newline_sketch hw _ hx) List.not_mem_nil line hline

/-- The lines are read off a view. -/
theorem lines_eq_of_render_eq (hw : Conforms .builtin w) (hv : Conforms .builtin v)
    (h : render w = render v) : lines w = lines v := by
  have hchars : Text.unlines (lines w) = Text.unlines (lines v) := String.ofList_injective h
  have hcut := Text.cut_unlines (newline_lines hw)
  rw [hchars, Text.cut_unlines (newline_lines hv)] at hcut
  exact (List.append_cancel_right hcut).symm

/-! ## Nodes that are drawn alike -/

/-- A node has one label and one drawing in two workspaces, to depths that suffice. -/
def DrawnAlike (w v : Workspace) (x : NodeId) : Prop :=
  ∃ n m bound bound', w.get? x = some n ∧ v.get? x = some m ∧ label n = label m ∧
    w.Suffices bound x ∧ v.Suffices bound' x ∧ sketch w bound n = sketch v bound' m

theorem drawnAlike_of_label (hw : Conforms .builtin w) (hv : Conforms .builtin v)
    (hx : w.get? x = some n) (hy : v.get? y = some m) (hlabel : label n = label m)
    {bound bound' : Nat} (hb : w.Suffices bound x) (hb' : v.Suffices bound' y)
    (hsketch : sketch w bound n = sketch v bound' m) : x = y ∧ DrawnAlike w v x := by
  have hid := (label_inj (hw.describes hx) (hv.describes hy) hlabel).1.id
  have hxy : x = y := by rw [← (hw.stored x n hx).1, hid, (hv.stored y m hy).1]
  subst hxy
  exact ⟨rfl, n, m, bound, bound', hx, hy, hlabel, hb, hb', hsketch⟩

theorem eq_of_forall₂ {P : NodeId → Prop} {xs ys : List NodeId}
    (h : List.Forall₂ (fun x y => x = y ∧ P x) xs ys) : xs = ys ∧ ∀ x ∈ xs, P x := by
  induction h with
  | nil => exact ⟨rfl, fun x hx => by cases hx⟩
  | cons hxy _ ih =>
    obtain ⟨rfl, hP⟩ := hxy
    obtain ⟨rfl, hall⟩ := ih
    refine ⟨rfl, fun x hx => ?_⟩
    rcases List.mem_cons.mp hx with rfl | hx
    · exact hP
    · exact hall x hx

/-- Where a node is drawn alike, its slots own the same nodes, and these are drawn alike. -/
theorem DrawnAlike.inputs (hw : Flagged w) (hv : Flagged v) (h : DrawnAlike w v x)
    (hx : w.get? x = some n) (hy : v.get? x = some m) :
    List.Forall₂ (fun i j => i.slot.owned = j.slot.owned ∧ ∀ c ∈ i.slot.owned, DrawnAlike w v c)
      n.inputs m.inputs := by
  obtain ⟨n', m', bound, bound', hx', hy', -, hb, hb', hsketch⟩ := h
  rw [hx, Option.some.injEq] at hx'
  rw [hy, Option.some.injEq] at hy'
  subst hx' hy'
  obtain ⟨b, rfl⟩ := hb.exists_bound hw.forest.linked hx
  obtain ⟨b', rfl⟩ := hb'.exists_bound hv.forest.linked hy
  refine Drawing.forall₂_of_ofList_eq hsketch fun i hi j hj _ hinner => ?_
  refine eq_of_forall₂ (Drawing.forall₂_of_ofList_eq hinner fun c hc d hd htext hbelow => ?_)
  have hparent := (mem_owned_iff hw.forest.linked hx).mp (List.mem_flatMap.mpr ⟨i, hi, hc⟩)
  have hparent' := (mem_owned_iff hv.forest.linked hy).mp (List.mem_flatMap.mpr ⟨j, hj, hd⟩)
  obtain ⟨k, hk⟩ := hw.there hx hi hc
  obtain ⟨l, hl⟩ := hv.there hy hj hd
  simp only [entryText, hk, hl, Option.elim] at htext hbelow
  exact drawnAlike_of_label hw.conforms hv.conforms hk hl htext
    (hb.child hw.forest.linked hparent) (hb'.child hv.forest.linked hparent') hbelow

/-! ## Workspaces with one view -/

theorem DrawnAlike.isFlagged (hw : Flagged w) (hv : Flagged v) (h : DrawnAlike w v x) :
    w.isFlagged x = v.isFlagged x := by
  obtain ⟨n, m, -, -, hx, hy, hlabel, -⟩ := h
  have halike := (label_inj (hw.conforms.describes hx) (hv.conforms.describes hy) hlabel).1
  simp [Workspace.isFlagged, hx, hy, halike.shadow]

/-- A node that is drawn alike and has one parent is the same node. -/
theorem DrawnAlike.eq (hw : Flagged w) (hv : Flagged v) (h : DrawnAlike w v x)
    (hx : w.get? x = some n) (hy : v.get? x = some m) (hparent : n.parent = m.parent) : n = m := by
  have hinputs := h.inputs hw hv hx hy
  obtain ⟨n', m', bound, bound', hx', hy', hlabel, -⟩ := h
  rw [hx, Option.some.injEq] at hx'
  rw [hy, Option.some.injEq] at hy'
  subst hx' hy'
  obtain ⟨halike, hdisabled⟩ := label_inj (hw.conforms.describes hx) (hv.conforms.describes hy)
    hlabel
  have hlaid := hw.conforms.slots x n _ hx (Registry.find?_builtin n.kind)
  have hlaid' := hv.conforms.slots x m _ hy (Registry.find?_builtin m.kind)
  rw [← halike.kind, ← halike.mutation] at hlaid'
  have hinputs := hlaid.eq_of_owned hlaid' (fun _ hi => hw.told hx hi) (fun _ hj => hv.told hy hj)
    (hinputs.imp fun _ _ h => ⟨h.1, fun c hc => (h.2 c hc).isFlagged hw hv⟩)
  cases n
  cases m
  rw [Node.mk.injEq]
  exact ⟨halike.id, halike.kind, halike.fields, hinputs, hparent, halike.shadow, hdisabled,
    halike.mutation⟩

/-- Down from the roots, every node of a workspace is the same node in a workspace with its view. -/
theorem eq_of_chain (hw : Flagged w) (hv : Flagged v) (hroots : w.roots = v.roots)
    (hdrawn : ∀ x ∈ w.roots, DrawnAlike w v x) {as : List NodeId} (hc : Chain w.wiring x as) :
    DrawnAlike w v x ∧ v.get? x = w.get? x := by
  induction hc with
  | @top x l hl hp =>
    have hroot := (hw.forest.mem_roots x).mpr ⟨l, hl, hp⟩
    obtain ⟨n, hn, hnp⟩ := hw.forest.root_there hroot
    obtain ⟨m, hm, hmp⟩ := hv.forest.root_there (hroots ▸ hroot)
    refine ⟨hdrawn x hroot, ?_⟩
    rw [hn, hm, (hdrawn x hroot).eq hw hv hn hm (hnp.trans hmp.symm)]
  | @up x p l as hl hp _ ih =>
    obtain ⟨hdrawnp, hsame⟩ := ih
    obtain ⟨n, hn, rfl⟩ := get?_of_wiring hl
    have hparent : w.parent? x = some p := by rw [Workspace.parent?, hn]; exact hp
    obtain ⟨k, hk, hxk⟩ : ∃ k, w.get? p = some k ∧ x ∈ k.owned := by
      obtain ⟨l, hl, hxl⟩ := hw.forest.linked.owned_of_parent (parent?_wiring x ▸ hparent)
      obtain ⟨k, hk, rfl⟩ := get?_of_wiring hl
      exact ⟨k, hk, hxl⟩
    have hk' := hsame.trans hk
    have hdrawnx : DrawnAlike w v x := by
      obtain ⟨i, hi, hxi⟩ := List.mem_flatMap.mp hxk
      have hinputs := hdrawnp.inputs hw hv hk hk'
      obtain ⟨a, ha, rfl⟩ := List.getElem_of_mem hi
      exact (hinputs.get ha (hinputs.length_eq ▸ ha)).2 x hxi
    have hparent' := (mem_owned_iff hv.forest.linked hk').mp hxk
    obtain ⟨m, hm, hmp⟩ := Option.bind_eq_some_iff.mp hparent'
    refine ⟨hdrawnx, ?_⟩
    rw [hn, hm, hdrawnx.eq hw hv hn hm ((show n.parent = some p from hp).trans hmp.symm)]

/-- A line that belongs to a drawing, and not to a root. -/
def isDrawn (line : List Char) : Bool := line.head?.any fun c => ['└', '├', '│', ' '].contains c

theorem isDrawn_of_mem {d : Drawing} {line : List Char} (h : line ∈ d.draw []) :
    isDrawn line = true := by
  obtain ⟨c, rest, rfl, hc⟩ := Drawing.mem_draw h
  simpa [isDrawn] using hc

theorem isDrawn_head (w : Workspace) (xs : List NodeId) :
    ∀ line ∈ (xs.flatMap (root w)).head?, isDrawn line = false := by
  intro line hline
  induction xs with
  | nil => cases hline
  | cons x xs ih =>
    rw [List.flatMap_cons] at hline
    cases hx : w.get? x with
    | none =>
      simp only [root, hx, List.nil_append] at hline
      exact ih hline
    | some n =>
      rw [root_eq hx] at hline
      cases hline
      obtain ⟨c, rest, hlabel, hc⟩ := head_label n
      rw [hlabel]
      simpa [isDrawn] using hc

/-- The roots and their drawings are read off the lines. -/
theorem roots_eq_of_lines_eq (hw : Conforms .builtin w) (hv : Conforms .builtin v)
    {xs ys : List NodeId} (hxs : ∀ x ∈ xs, ∃ n, w.get? x = some n)
    (hys : ∀ y ∈ ys, ∃ m, v.get? y = some m)
    (h : xs.flatMap (root w) = ys.flatMap (root v)) :
    xs = ys ∧ ∀ x ∈ xs, DrawnAlike w v x := by
  refine eq_of_forall₂ ?_
  induction xs generalizing ys with
  | nil =>
    cases ys with
    | nil => exact .nil
    | cons y ys =>
      obtain ⟨m, hm⟩ := hys y List.mem_cons_self
      rw [List.flatMap_cons, root_eq hm] at h
      cases h
  | cons x xs ih =>
    obtain ⟨n, hn⟩ := hxs x List.mem_cons_self
    cases ys with
    | nil =>
      rw [List.flatMap_cons, root_eq hn] at h
      cases h
    | cons y ys =>
      obtain ⟨m, hm⟩ := hys y List.mem_cons_self
      rw [List.flatMap_cons, List.flatMap_cons, root_eq hn, root_eq hm] at h
      obtain ⟨hlabel, hlines⟩ := List.cons.inj h
      obtain ⟨hdraw, hrest⟩ := run_append_inj (fun _ hl => isDrawn_of_mem hl)
        (fun _ hl => isDrawn_of_mem hl) (isDrawn_head w xs) (isDrawn_head v ys) hlines
      refine .cons ?_ (ih (fun x hx => hxs x (List.mem_cons_of_mem _ hx))
        (fun y hy => hys y (List.mem_cons_of_mem _ hy)) hrest)
      exact drawnAlike_of_label hw hv hn hm hlabel (w.suffices_size x) (v.suffices_size y)
        (Drawing.draw_injective hdraw)

/-- A workspace with the view of another has its roots and its nodes. -/
theorem eq_of_lines_eq (hw : Flagged w) (hv : Flagged v) (h : lines w = lines v) :
    w.roots = v.roots ∧ ∀ x n, w.get? x = some n → v.get? x = some n := by
  have hthere {u : Workspace} (hu : Flagged u) : ∀ x ∈ u.roots, ∃ n, u.get? x = some n :=
    fun x hx => (hu.forest.root_there hx).imp fun _ hn => hn.1
  obtain ⟨hroots, hdrawn⟩ := roots_eq_of_lines_eq hw.conforms hv.conforms (hthere hw) (hthere hv) h
  refine ⟨hroots, fun x n hx => ?_⟩
  obtain ⟨as, hc⟩ := hw.forest.linked.chain (wiring_of_get? hx)
  rw [(eq_of_chain hw hv hroots hdrawn hc).2, hx]

theorem inputs_congr (h : w.nodes = v.nodes) (bound : Nat) (lead : List Char) (n : Node) :
    inputs w bound lead n = inputs v bound lead n := by
  induction bound generalizing lead n with
  | zero => rfl
  | succ bound ih => simp only [inputs, Workspace.get?, h, ih]

theorem render_congr (hroots : w.roots = v.roots) (hnodes : w.nodes = v.nodes) :
    render w = render v := by
  have hroot : root w = root v := by
    funext x
    simp only [root, Workspace.get?, Workspace.size, hnodes, inputs_congr hnodes]
  rw [render, chars, lines, hroots, hroot, render, chars, lines]

/-- The view of a workspace tells its roots in their order and all about its nodes, and nothing
else: two workspaces have one view exactly when they have these. So it is for all well-formed
workspaces (`WellFormed.flagged`). -/
theorem render_eq_iff (hw : Flagged w) (hv : Flagged v) :
    render w = render v ↔ w.roots = v.roots ∧ w.nodes = v.nodes := by
  constructor
  · intro h
    have hlines := lines_eq_of_render_eq hw.conforms hv.conforms h
    obtain ⟨hroots, hfrom⟩ := eq_of_lines_eq hw hv hlines
    obtain ⟨-, hto⟩ := eq_of_lines_eq hv hw hlines.symm
    refine ⟨hroots, SortedMap.ext fun x => Option.ext fun n => ?_⟩
    exact ⟨hfrom x n, hto x n⟩
  · rintro ⟨hroots, hnodes⟩
    exact render_congr hroots hnodes

/-- A text that looks like a drawing, in a loop; in the second workspace a block came and went. -/
theorem render_eq_iff_came_and_went :
    ∃ w v, History .builtin w ∧ History .builtin v ∧ w.nextId ≠ v.nextId ∧
      render w = "forever #1\n└─ DO\n  └─ show_string #0 TEXT=\"a\\n└─ \\\"b\"\n" ∧
      render w = render v ∧ w.roots = v.roots ∧ w.nodes = v.nodes := by
  have h1 : History .builtin _ :=
    .change (.edit (.create "show_string" [("TEXT", .text "a\n└─ \"b")] none)) .start trivial
  have h2 := h1.change (.edit (.create "forever" [] none)) trivial
  have h3 := h2.change (.edit (.pushStatement 1 "DO" 0)) trivial
  have h4 := h3.change (.edit (.create "temperature" [] none)) trivial
  have h5 := h4.change (.edit (.delete 2)) trivial
  have hsame := render_eq_iff (h3.tidy Registry.sound_builtin).wellFormed.flagged
    (h5.tidy Registry.sound_builtin).wellFormed.flagged
  exact ⟨_, _, h3, h5, by decide +kernel, by decide +kernel, by decide +kernel,
    hsame.mp (by decide +kernel)⟩

end TreeView

end BlockText

import BlockText.Proofs.Conform
import BlockText.Proofs.Connecting

/-!
# Edits of a tidy workspace

A workspace is tidy when it is a forest, conforms to the shapes of a registry and is furnished with
their defaults. Every edit takes a node out of its place, changes it, or puts a loose node into a
place; each such step keeps a tidy workspace up to its loose nodes.
-/

namespace BlockText

open Wiring

/-- A forest apart from some loose nodes, that conforms to a registry and has its defaults. -/
structure Tidy (r : Registry) (w : Workspace) (loose : List NodeId := []) : Prop where
  forest : Forest w loose
  conforms : Conforms r w
  furnished : Furnished r w

/-- A node is no default. -/
def Workspace.IsReal (w : Workspace) (x : NodeId) : Prop :=
  (w.tag? x).any (fun t => t.shadow) = false

theorem Workspace.isReal_of_get? {w : Workspace} {x : NodeId} {n : Node} (h : w.get? x = some n)
    (hs : n.shadow = false) : w.IsReal x := by
  simp [IsReal, tag?, h, hs]

theorem Keeps.isReal {w v : Workspace} {x : NodeId} (h : Keeps w v) (hx : w.IsReal x) :
    v.IsReal x := by
  cases hv : v.get? x with
  | none => simp [Workspace.IsReal, Workspace.tag?, hv]
  | some m =>
    rw [Workspace.IsReal, h.tag? hv]
    exact hx

namespace Tidy

variable {r : Registry} {w : Workspace} {loose : List NodeId} {c p : NodeId}

theorem empty : Tidy r {} := by
  have hnone {x : NodeId} {n : Node} : ({} : Workspace).get? x ≠ some n := by
    rintro ⟨⟩
  refine ⟨.empty, ⟨?_, ?_, ?_⟩, ⟨?_, ?_⟩⟩
  · intro x n hx
    exact absurd hx hnone
  · intro x n hx
    exact absurd hx hnone
  · intro x n d hx
    exact absurd hx hnone
  · intro x n d hx
    exact absurd hx hnone
  · intro x hx
    cases hx

/-- A change of a node that keeps its links keeps a tidy workspace. -/
theorem update (h : Tidy r w loose) {f : Node → Node} (hf : ∀ n, (f n).Alike n)
    (hi : ∀ n, (f n).inputs = n.inputs) (hp : ∀ n, (f n).parent = n.parent) (id : NodeId) :
    Tidy r (w.update id f) loose := by
  have hlink (n : Node) : (f n).link = n.link := by
    simp [Node.link, Node.owned, hi, hp]
  have hkeeps : Keeps w (w.update id f) := .update hf id
  have hforest := h.forest.update hlink id
  refine ⟨hforest, ?_, ?_⟩
  · refine h.conforms.keeps hkeeps hforest.linked (Nat.le_refl _) ?_
    exact h.conforms.slots.update id fun n => ⟨(hf n).kind, (hf n).mutation, hi n⟩
  · refine .keeps hkeeps hforest ?_ h.furnished.roots
    exact h.furnished.slots.update id fun n => ⟨(hf n).kind, (hf n).mutation, hi n⟩

/-! ## Taking a node out of its place and putting it into one -/

theorem unlink (h : Tidy r w loose) {n : Node} (hc : w.get? c = some n) (hreal : n.shadow = false)
    (hcl : c ∉ loose) : Tidy r (w.unlink c) (c :: loose) := by
  have hforest := h.forest.unlink hc hcl
  refine ⟨hforest, h.conforms.unlink h.forest.linked c, .keeps (.unlink h.forest.linked c) hforest
    ?_ ?_⟩
  · exact h.furnished.slots.unlink h.forest.linked fun spec s hs =>
      hs.drop (w.isReal_of_get? hc hreal)
  · intro x hx
    rw [h.forest.roots_unlink] at hx
    exact h.furnished.roots x (List.mem_of_mem_filter hx)

theorem addRoot (h : Tidy r w (c :: loose)) (hcl : c ∉ loose) (hreal : w.IsReal c) :
    Tidy r { w with roots := w.roots ++ [c] } loose where
  forest := h.forest.addRoot hcl
  conforms := ⟨h.conforms.stored, h.conforms.described, h.conforms.slots⟩
  furnished := by
    refine ⟨h.furnished.slots, fun x hx => ?_⟩
    rcases List.mem_append.mp hx with hx | hx
    · exact h.furnished.roots x hx
    · rw [List.mem_singleton] at hx
      rw [hx]
      exact hreal

theorem remove (h : Tidy r w (c :: loose)) (hcl : c ∉ loose) :
    Tidy r (w.remove (w.descendants c)) loose := by
  have hforest := h.forest.remove hcl
  refine ⟨hforest, h.conforms.remove hforest.linked, .keeps (.remove _) hforest ?_ ?_⟩
  · exact h.furnished.slots.remove _
  · intro x hx
    rw [Workspace.roots_remove] at hx
    exact h.furnished.roots x (List.mem_of_mem_filter hx)

theorem setChild (h : Tidy r w (c :: loose)) (hcl : c ∉ loose) {n : Node} {input : String}
    {shadow : Option NodeId} (hp : w.get? p = some n)
    (hs : n.slot? input = some (.value none shadow)) (hpc : c ≠ p) (hca : c ∉ w.ancestors p)
    (hreal : w.IsReal c) (hrole : (w.role? r c).any Role.isValue = true) :
    Tidy r (w.setChild p input c) loose := by
  have hforest := h.forest.setChild hcl hp hs hpc hca
  refine ⟨hforest, h.conforms.keeps (.place p c input _) hforest.linked (Nat.le_refl _) ?_,
    .keeps (.place p c input _) hforest ?_ h.furnished.roots⟩
  · exact h.conforms.slots.place p c fun spec s hs => hs.child hrole
  · exact h.furnished.slots.place p c fun spec s hs => hs.child hreal

theorem setStatement (h : Tidy r w (c :: loose)) (hcl : c ∉ loose) {n : Node} {input : String}
    {children : List NodeId} (hp : w.get? p = some n)
    (hs : n.slot? input = some (.statements children)) (hpc : c ≠ p) (hca : c ∉ w.ancestors p)
    (place : Nat) (hreal : w.IsReal c) (hrole : w.role? r c = some .statement) :
    Tidy r (w.setStatement p input place c) loose := by
  have hforest := h.forest.setStatement hcl hp hs hpc hca place
  refine ⟨hforest, h.conforms.keeps (.place p c input _) hforest.linked (Nat.le_refl _) ?_,
    .keeps (.place p c input _) hforest ?_ h.furnished.roots⟩
  · exact h.conforms.slots.place p c fun spec s hs => hs.statement hrole place
  · exact h.furnished.slots.place p c fun spec s hs => hs.statement hreal place

theorem moveToTop (h : Tidy r w loose) {n : Node} (hc : w.get? c = some n)
    (hreal : n.shadow = false) (hcl : c ∉ loose) : Tidy r (w.moveToTop c) loose :=
  (h.unlink hc hreal hcl).addRoot hcl
    ((Keeps.unlink h.forest.linked c).isReal (w.isReal_of_get? hc hreal))

/-! ## The edits -/

theorem delete (h : Tidy r w) (id : NodeId) : Tidy r (w.delete id).workspace := by
  unfold Workspace.delete
  split
  · exact h
  · next n hn =>
    split
    · exact h
    · next hs =>
      exact (h.unlink (Workspace.node_ok hn) (by simpa using hs) List.not_mem_nil).remove
        List.not_mem_nil

theorem detach (h : Tidy r w) (id : NodeId) : Tidy r (w.detach id).workspace := by
  unfold Workspace.detach
  split
  · exact h
  · next n hn =>
    split
    · exact h
    · next hs =>
      split
      · exact h
      · exact h.moveToTop (Workspace.node_ok hn) (by simpa using hs) List.not_mem_nil

theorem find?_of_lookup {kind : Kind} {d : Definition} (h : r.lookup kind = .ok d) :
    r.find? kind = some d := by
  unfold Registry.lookup at h
  split at h
  · next he =>
    cases h
    exact he
  · cases h

/-- The child in a value input is no default. -/
theorem real_of_child (h : Tidy r w loose) {n : Node} {input : String} {shadow : Option NodeId}
    (hp : w.get? p = some n) (hs : n.slot? input = some (.value (some c) shadow)) :
    ∃ m, w.get? c = some m ∧ m.shadow = false := by
  obtain ⟨d, hd, -⟩ := h.conforms.described p n hp
  obtain ⟨spec, -, -, hf⟩ := h.furnished.slots.of_slot? hp hd hs
  obtain ⟨l, hl, -⟩ := h.forest.linked.owned_there (Workspace.wiring_of_get? hp)
    (Node.owned_of_slot? hs (c := c) (by simp [Slot.owned]))
  obtain ⟨m, hm, -⟩ := Workspace.get?_of_wiring hl
  refine ⟨m, hm, ?_⟩
  cases spec with
  | value name check default => simpa [Workspace.tag?, hm] using hf.1 c rfl
  | statement name => exact hf.elim

/-- A node that passed the check of a move, out of its place: what is known for putting it into the
input. -/
theorem unlink_of_checkMove (h : Tidy r w) {takes : Role → Bool} {input : String} {s : Slot}
    (hcheck : w.checkMove r takes p input c = .ok s) :
    Tidy r (w.unlink c) [c] ∧ c ≠ p ∧ c ∉ (w.unlink c).ancestors p ∧ (w.unlink c).IsReal c ∧
      (∃ role, (w.unlink c).role? r c = some role ∧ takes role = true) ∧
      ∃ n, (w.unlink c).get? p = some n ∧
        n.slot? input = some (Workspace.dropFromSlot c s) := by
  obtain ⟨m, n, d, hm, hn, hreal, hcp, ha, hd, hrole, hs⟩ := Workspace.checkMove_ok hcheck
  have hl := h.forest.linked
  have hk := Keeps.unlink hl c
  obtain ⟨m1, hm1, -⟩ := Workspace.unlink_there hl (c := c) hm
  obtain ⟨n1, hn1, hs1⟩ := Workspace.unlink_there hl (c := c) hn
  refine ⟨h.unlink hm hreal List.not_mem_nil, hcp, ?_, hk.isReal (w.isReal_of_get? hm hreal),
    ⟨d.shape.role, ?_, hrole⟩, n1, hn1, ?_⟩
  · exact fun hc => ha (Workspace.ancestors_unlink_subset hl hn hc)
  · rw [hk.role? hm1]
    simp [Workspace.role?, hm, find?_of_lookup hd]
  · rw [hs1, hs, Option.map_some]

/-- The child that stood in the input moves to the top level, and another one takes its place. -/
theorem connect_occupied (h : Tidy r w) {input : String} {displaced : NodeId}
    {shadow : Option NodeId}
    (hcheck : w.checkMove r Role.isValue p input c = .ok (.value (some displaced) shadow))
    (hne : w.child? p input ≠ some c) :
    Tidy r (((w.unlink c).moveToTop displaced).setChild p input c) := by
  obtain ⟨-, k, -, -, hk, -, -, -, -, -, hks⟩ := Workspace.checkMove_ok hcheck
  have hdc : displaced ≠ c := by
    rintro rfl
    exact hne (Workspace.child?_eq hk hks)
  obtain ⟨h1, hcp, ha, hreal, ⟨role, hrole, hv⟩, n, hn, hs⟩ := h.unlink_of_checkMove hcheck
  rw [Workspace.dropFromSlot, if_neg (by simpa using hdc)] at hs
  -- the child that stood there moves to the top level
  have hl := h1.forest.linked
  obtain ⟨m, hm, hmr⟩ := h1.real_of_child hn hs
  have h2 := h1.moveToTop hm hmr (by simpa using hdc)
  have hk2 := Keeps.unlink hl displaced
  obtain ⟨n2, hn2, hs2⟩ := Workspace.unlink_there hl (c := displaced) hn
  obtain ⟨mc, hmc, -⟩ := h1.forest.loose_there (x := c) List.mem_cons_self
  obtain ⟨mc2, hmc2, -⟩ := Workspace.unlink_there hl (c := displaced) hmc
  have hs3 := hs2 input
  rw [hs, Option.map_some, Workspace.dropFromSlot, if_pos rfl] at hs3
  refine h2.setChild List.not_mem_nil hn2 hs3 hcp ?_ (hk2.isReal hreal) ?_
  · intro hc
    have hup := Workspace.ancestors_congr (v := (w.unlink c).moveToTop displaced)
      (w := (w.unlink c).unlink displaced) h2.forest.linked rfl hn2
    rw [hup] at hc
    exact ha (Workspace.ancestors_unlink_subset hl hn hc)
  · show ((((w.unlink c).unlink displaced).role? r c).any Role.isValue) = true
    rw [hk2.role? hmc2, hrole]
    exact hv

theorem connectValue (h : Tidy r w) {input : String} (hne : w.child? p input ≠ some c) :
    Tidy r (w.connectValue r p input c).workspace := by
  cases hcheck : w.checkMove r Role.isValue p input c with
  | error e => simpa [Workspace.connectValue, hcheck, Edited.refused] using h
  | ok s =>
    cases s with
    | statements children => simpa [Workspace.connectValue, hcheck, Edited.refused] using h
    | value occupant shadow =>
      cases occupant with
      | none =>
        rw [Workspace.connectValue_of_vacant h.forest.linked hcheck]
        obtain ⟨h1, hcp, ha, hreal, ⟨role, hrole, hv⟩, n, hn, hs⟩ := h.unlink_of_checkMove hcheck
        exact h1.setChild List.not_mem_nil hn hs hcp ha hreal (by rw [hrole]; exact hv)
      | some displaced =>
        rw [Workspace.connectValue_of_occupied h.forest.linked hcheck]
        exact h.connect_occupied hcheck hne

theorem insertStatement (h : Tidy r w) {input : String} {place : Nat} :
    Tidy r (w.insertStatement r p input place c).workspace := by
  cases hcheck : w.checkMove r (· = .statement) p input c with
  | error e => simpa [Workspace.insertStatement, hcheck, Edited.refused] using h
  | ok s =>
    cases s with
    | value child shadow => simpa [Workspace.insertStatement, hcheck, Edited.refused] using h
    | statements children =>
      rw [Workspace.insertStatement_of_statements h.forest.linked hcheck]
      obtain ⟨h1, hcp, ha, hreal, ⟨role, hrole, hv⟩, n, hn, hs⟩ := h.unlink_of_checkMove hcheck
      refine h1.setStatement List.not_mem_nil hn hs hcp ha place hreal ?_
      rw [hrole, of_decide_eq_true hv]

theorem pushStatement (h : Tidy r w) {input : String} :
    Tidy r (w.pushStatement r p input c).workspace := by
  unfold Workspace.pushStatement
  split
  · exact h
  · exact h.insertStatement

/-- A change of the fields of one node to others that its shape admits. -/
theorem withFields (h : Tidy r w loose) {n : Node} (hn : w.get? c = some n)
    {f : SortedMap String FieldValue → SortedMap String FieldValue}
    (hf : ∀ d, r.find? n.kind = some d → d.shape.Admits (f n.fields)) :
    Tidy r (w.update c fun n => { n with fields := f n.fields }) loose := by
  have hget (x : NodeId) : (w.update c fun n => { n with fields := f n.fields }).get? x =
      (w.get? x).map fun n => { n with fields := if x = c then f n.fields else n.fields } := by
    rw [Workspace.get?_update]
    split
    · next hx => simp [hx]
    · cases w.get? x <;> rfl
  have hrole (x : NodeId) : (w.update c fun n => { n with fields := f n.fields }).role? r x =
      w.role? r x := by
    rw [Workspace.role?, hget, Workspace.role?]
    cases w.get? x <;> rfl
  have htag (x : NodeId) : (w.update c fun n => { n with fields := f n.fields }).tag? x =
      w.tag? x := by
    rw [Workspace.tag?, hget, Workspace.tag?]
    cases w.get? x <;> rfl
  refine ⟨h.forest.update (f := fun n => { n with fields := f n.fields }) (fun _ => rfl) c,
    ⟨?_, ?_, ?_⟩, ⟨?_, ?_⟩⟩
  · intro x m hx
    rw [hget] at hx
    obtain ⟨k, hk, rfl⟩ := Option.map_eq_some_iff.mp hx
    exact h.conforms.stored x k hk
  · intro x m hx
    rw [hget] at hx
    obtain ⟨k, hk, rfl⟩ := Option.map_eq_some_iff.mp hx
    obtain ⟨d, hd, hmut, hadm⟩ := h.conforms.described x k hk
    refine ⟨d, hd, hmut, ?_⟩
    show d.shape.Admits (if x = c then f k.fields else k.fields)
    split
    · next hx =>
      rw [hx, hn, Option.some.injEq] at hk
      subst hk
      exact hf d hd
    · exact hadm
  · refine (h.conforms.slots.update (f := fun n => { n with fields := f n.fields }) c
      fun _ => ⟨rfl, rfl, rfl⟩).mono ?_
    exact fun x m _ i _ spec hs => hs.congr fun y _ => hrole y
  · refine (h.furnished.slots.update (f := fun n => { n with fields := f n.fields }) c
      fun _ => ⟨rfl, rfl, rfl⟩).mono ?_
    exact fun x m _ i _ spec hs => hs.congr fun y _ => htag y
  · intro x hx
    rw [htag]
    exact h.furnished.roots x hx

theorem admits_insert {s : Shape} {fields : SortedMap String FieldValue} {name : String}
    {spec : FieldSpec} {value : FieldValue} (h : s.Admits fields)
    (hs : s.field? name = some spec) (hv : spec.accepts value = true) :
    s.Admits (fields.insert name value) := by
  intro other
  have ho := h other
  rw [SortedMap.get?_insert]
  by_cases he : other = name
  · rw [he, hs, if_pos rfl]
    exact ⟨value, rfl, hv⟩
  · rw [if_neg he]
    exact ho

theorem setField (h : Tidy r w) {field : String} {value : FieldValue} :
    Tidy r (w.setField r c field value).workspace := by
  unfold Workspace.setField
  split
  · exact h
  · next n hn =>
    split
    · exact h
    · next d hd =>
      split
      · exact h
      · next spec hspec =>
        split
        · next hacc =>
          split
          · exact h
          · refine h.withFields (f := fun fs => fs.insert field value) (Workspace.node_ok hn) ?_
            intro d' hd'
            rw [find?_of_lookup hd, Option.some.injEq] at hd'
            subst hd'
            obtain ⟨d', hd', -, hadm⟩ := h.conforms.described c n (Workspace.node_ok hn)
            rw [find?_of_lookup hd, Option.some.injEq] at hd'
            subst hd'
            exact admits_insert hadm hspec hacc
        · exact h

end Tidy

end BlockText

import BlockText.Proofs.Leftovers
import BlockText.Proofs.Loading
import BlockText.Proofs.Records

/-!
# Saving and loading a workspace

A workspace in which every node is a root or owned once, by the node that it names as its parent, is
written as a document that the loader accepts: no check of the loader fails, and its count of owned
nodes and roots comes out even. What is loaded has the same nodes and the same roots. The next id is
read off the last node, which is past every id, so nodes that are created later, as long as there
are ids, never take the id of a node that is there.
-/

namespace BlockText

/-! ## Workspaces that can be saved -/

/-- Every node is stored under its id. The roots differ, are there and name no parent, and every
other node is owned once, by the node that it names as its parent. -/
structure Workspace.Consistent (w : Workspace) : Prop where
  stored : ∀ x n, w.get? x = some n → n.id = x
  roots_nodup : w.roots.Nodup
  root_top : ∀ x ∈ w.roots, ∃ n, w.get? x = some n ∧ n.parent = none
  owned_nodup : ∀ x n, w.get? x = some n → n.owned.Nodup
  parent_of_owned : ∀ x n, w.get? x = some n → ∀ c ∈ n.owned,
    ∃ m, w.get? c = some m ∧ m.parent = some x
  placed : ∀ x n, w.get? x = some n → x ∈ w.roots ∨
    ∃ p m, n.parent = some p ∧ w.get? p = some m ∧ x ∈ m.owned

namespace Workspace.Consistent

variable {w : Workspace}

theorem of_forest (h : Forest w) (hid : ∀ x n, w.get? x = some n → n.id = x) : w.Consistent where
  stored := hid
  roots_nodup := h.roots_nodup
  root_top := fun x hx => h.root_there hx
  owned_nodup := fun x n hn => h.linked.owned_nodup (wiring_of_get? hn)
  parent_of_owned := by
    intro x n hn c hc
    have hp := h.linked.parent_of_owned (wiring_of_get? hn) hc
    rw [parent?_wiring] at hp
    exact Option.bind_eq_some_iff.mp hp
  placed := by
    intro x n hn
    cases hp : n.parent with
    | none => exact .inl ((h.mem_roots x).mpr (top_wiring.mpr ⟨n, hn, hp⟩))
    | some p =>
      have hparent : w.parent? x = some p := by rw [parent?, hn, Option.bind_some, hp]
      rw [← parent?_wiring] at hparent
      obtain ⟨l, hl, hx⟩ := h.linked.owned_of_parent hparent
      obtain ⟨m, hm, rfl⟩ := get?_of_wiring hl
      exact .inr ⟨p, m, rfl, hm, hx⟩

/-- What is owned and the roots are together the nodes. -/
theorem mem_owned_or_root (h : w.Consistent) {x : NodeId} :
    x ∈ w.nodes.values.flatMap Node.owned ++ w.roots ↔ ∃ n, w.get? x = some n := by
  rw [List.mem_append, List.mem_flatMap]
  constructor
  · rintro (⟨n, hn, hx⟩ | hx)
    · obtain ⟨p, hp⟩ := SortedMap.mem_values.mp hn
      obtain ⟨m, hm, -⟩ := h.parent_of_owned p n hp x hx
      exact ⟨m, hm⟩
    · obtain ⟨n, hn, -⟩ := h.root_top x hx
      exact ⟨n, hn⟩
  · rintro ⟨n, hn⟩
    rcases h.placed x n hn with hx | ⟨p, m, -, hm, hx⟩
    · exact .inr hx
    · exact .inl ⟨m, SortedMap.mem_values.mpr ⟨p, hm⟩, hx⟩

/-- No node is owned twice. -/
theorem nodup_owned (h : w.Consistent) : (w.nodes.values.flatMap Node.owned).Nodup := by
  refine List.nodup_flatMap.mpr ⟨fun n hn => ?_, ?_⟩
  · obtain ⟨x, hx⟩ := SortedMap.mem_values.mp hn
    exact h.owned_nodup x n hx
  · rw [SortedMap.values, List.pairwise_map]
    refine w.nodes.ascending.imp_of_mem fun {e f} he hf hlt c hc hc' => ?_
    -- both would be the parent that the node names
    obtain ⟨m, hm, hp⟩ := h.parent_of_owned e.1 e.2 (SortedMap.mem_entries.mp he) c hc
    obtain ⟨m', hm', hp'⟩ := h.parent_of_owned f.1 f.2 (SortedMap.mem_entries.mp hf) c hc'
    rw [hm, Option.some.injEq] at hm'
    rw [← hm', hp, Option.some.injEq] at hp'
    rw [hp', Std.compare_eq_iff_eq.mpr rfl] at hlt
    cases hlt

theorem root_not_owned (h : w.Consistent) {x : NodeId} (hx : x ∈ w.roots) :
    x ∉ w.nodes.values.flatMap Node.owned := by
  intro ho
  obtain ⟨n, hn, hxn⟩ := List.mem_flatMap.mp ho
  obtain ⟨p, hp⟩ := SortedMap.mem_values.mp hn
  obtain ⟨m, hm, hparent⟩ := h.parent_of_owned p n hp x hxn
  obtain ⟨m', hm', htop⟩ := h.root_top x hx
  rw [hm, Option.some.injEq] at hm'
  rw [hm', htop] at hparent
  cases hparent

/-- Owned nodes and roots are together as many as the nodes. -/
theorem length_owned (h : w.Consistent) :
    (w.nodes.values.flatMap Node.owned).length + w.roots.length = w.nodes.size := by
  have hnd : (w.nodes.values.flatMap Node.owned ++ w.roots).Nodup :=
    List.nodup_append'.mpr ⟨h.nodup_owned, h.roots_nodup, fun x ho hr => h.root_not_owned hr ho⟩
  have hkeys : w.nodes.keys.Nodup := (ascending_keys w).imp Nat.ne_of_lt
  have hperm : (w.nodes.values.flatMap Node.owned ++ w.roots).Perm w.nodes.keys :=
    (List.perm_ext_iff_of_nodup hnd hkeys).mpr fun x => by rw [h.mem_owned_or_root, mem_keys]
  have hlen := hperm.length_eq
  rwa [List.length_append, SortedMap.keys, List.length_map] at hlen

end Workspace.Consistent

namespace Document

variable {nodes : SortedMap NodeId Node}

/-- Nodes under ascending ids are collected as they are. -/
theorem collect_entries {es : List (NodeId × Node)}
    (h : es.Pairwise fun a b => compare a.1 b.1 = .lt) (hid : ∀ e ∈ es, e.2.id = e.1)
    {before : SortedMap NodeId Node} (hfresh : ∀ e ∈ es, before.get? e.1 = none) :
    collect (es.map (·.2)) before = .ok (es.foldl (fun m e => m.insert e.1 e.2) before) := by
  induction es generalizing before with
  | nil => rfl
  | cons e es ih =>
    rw [List.forall_mem_cons] at hid hfresh
    obtain ⟨he, hes⟩ := List.pairwise_cons.mp h
    have hnew : before.contains e.2.id = false := by
      rw [SortedMap.contains, hid.1, hfresh.1]
      rfl
    rw [List.map_cons, collect, hnew, hid.1]
    refine ih hes hid.2 fun f hf => ?_
    have hne : f.1 ≠ e.1 := by
      intro heq
      have hlt := he f hf
      rw [heq, Std.compare_eq_iff_eq.mpr rfl] at hlt
      cases hlt
    rw [SortedMap.get?_insert, if_neg hne]
    exact hfresh.2 f hf

theorem checkOwned_of_nodup {owner : NodeId} {children owned : List NodeId}
    (hnd : (children ++ owned).Nodup)
    (h : ∀ c ∈ children, ∃ n, nodes.get? c = some n ∧ n.parent = some owner) :
    ∃ result, checkOwned nodes owner children owned = .ok result := by
  induction children generalizing owned with
  | nil => exact ⟨owned, rfl⟩
  | cons c children ih =>
    rw [List.forall_mem_cons] at h
    obtain ⟨⟨n, hn, hp⟩, hrest⟩ := h
    rw [List.cons_append, List.nodup_cons, List.mem_append, not_or] at hnd
    rw [checkOwned, hn]
    simp only [hp, hnd.1.2, not_false_eq_true, and_self, if_true]
    apply ih _ hrest
    exact (List.perm_middle.nodup_iff).mpr (List.nodup_cons.mpr ⟨by simp [hnd.1], hnd.2⟩)

theorem checkNodes_of_nodup {ns : List Node} {owned : List NodeId}
    (hnd : (ns.flatMap Node.owned ++ owned).Nodup)
    (h : ∀ m ∈ ns, ∀ c ∈ m.owned, ∃ n, nodes.get? c = some n ∧ n.parent = some m.id) :
    ∃ result, checkNodes nodes ns owned = .ok result := by
  induction ns generalizing owned with
  | nil => exact ⟨owned, rfl⟩
  | cons m ns ih =>
    rw [List.forall_mem_cons] at h
    rw [List.flatMap_cons, List.append_assoc] at hnd
    have hperm : (m.owned ++ (ns.flatMap Node.owned ++ owned)).Perm
        (ns.flatMap Node.owned ++ (m.owned ++ owned)) := List.perm_append_comm_assoc _ _ _
    rw [hperm.nodup_iff] at hnd
    obtain ⟨result, hresult⟩ := checkOwned_of_nodup hnd.of_append_right h.1
    obtain ⟨rfl, -⟩ := checkOwned_ok hresult
    rw [checkNodes, hresult]
    apply ih _ h.2
    exact (((List.reverse_perm m.owned).append_right owned).append_left _).nodup_iff.mpr hnd

theorem checkRoots_of_top {owned roots : List NodeId}
    (h : ∀ x ∈ roots, x ∉ owned ∧ ∃ n, nodes.get? x = some n ∧ n.parent = none) :
    checkRoots nodes owned roots = .ok () := by
  induction roots with
  | nil => rfl
  | cons root roots ih =>
    rw [List.forall_mem_cons] at h
    obtain ⟨⟨hno, n, hn, hp⟩, hrest⟩ := h
    rw [checkRoots, hn]
    simp only [hp, hno, not_false_eq_true, and_self, if_true]
    exact ih hrest

/-- The document of a consistent workspace is accepted, with the same nodes and roots. -/
theorem toWorkspace_ofWorkspace {w : Workspace} (h : w.Consistent) :
    (ofWorkspace w).toWorkspace = .ok ⟨w.nodes, w.roots, nextId w.nodes⟩ := by
  have hcollect : collect w.nodes.values .empty = .ok w.nodes := by
    have hrun : collect w.nodes.values .empty = _ := collect_entries w.nodes.ascending
      (fun e he => h.stored e.1 e.2 (SortedMap.mem_entries.mp he)) fun _ _ => rfl
    rw [← SortedMap.ofList, SortedMap.ofList_entries] at hrun
    exact hrun
  obtain ⟨owned, howned⟩ : ∃ owned, checkNodes w.nodes w.nodes.values [] = .ok owned := by
    refine checkNodes_of_nodup (by rw [List.append_nil]; exact h.nodup_owned) fun m hm c hc => ?_
    obtain ⟨x, hx⟩ := SortedMap.mem_values.mp hm
    rw [h.stored x m hx]
    exact h.parent_of_owned x m hx c hc
  obtain ⟨hperm, -⟩ := checkNodes_ok howned
  rw [List.append_nil] at hperm
  have hroots : checkRoots w.nodes owned w.roots = .ok () :=
    checkRoots_of_top fun x hx => ⟨mt hperm.mem_iff.mp (h.root_not_owned hx), h.root_top x hx⟩
  have hcount : owned.length + w.roots.length = w.nodes.size := by
    rw [hperm.length_eq, h.length_owned]
  simp only [toWorkspace, ofWorkspace, bind, Except.bind, hcollect, howned, hroots, hcount, if_true]
  rfl

/-- The next id of a document is zero, or it is one more than its last id. -/
theorem nextId_cases (w : Workspace) : (w.nodes.keys = [] ∧ nextId w.nodes = 0) ∨
    ∃ last ∈ w.nodes.keys, nextId w.nodes = last + 1 ∧ ∀ x ∈ w.nodes.keys, x ≤ last := by
  rcases List.eq_nil_or_concat' w.nodes.keys with hkeys | ⟨front, last, hkeys⟩
  · left
    exact ⟨hkeys, by rw [nextId, hkeys]; rfl⟩
  · right
    have hascending := Workspace.ascending_keys w
    rw [hkeys, List.pairwise_append] at hascending
    have hnext : nextId w.nodes = last + 1 := by
      rw [nextId, hkeys, List.getLast?_concat]
      rfl
    rw [hkeys]
    refine ⟨last, List.mem_append_right _ List.mem_cons_self, hnext, fun x hx => ?_⟩
    rcases List.mem_append.mp hx with hx | hx
    · exact Nat.le_of_lt (hascending.2.2 x hx last List.mem_cons_self)
    · exact Nat.le_of_eq (List.mem_singleton.mp hx)

theorem lt_nextId {w : Workspace} {x : NodeId} {n : Node} (hn : w.get? x = some n) :
    x < nextId w.nodes := by
  have hx : x ∈ w.nodes.keys := Workspace.mem_keys.mpr ⟨n, hn⟩
  rcases nextId_cases w with ⟨hnil, -⟩ | ⟨last, -, hnext, hle⟩
  · rw [hnil] at hx
    cases hx
  · rw [hnext]
    exact Nat.lt_succ_of_le (hle x hx)

end Document

/-! ## Creating nodes later -/

namespace Workspace

theorem Grows.createNamed (w : Workspace) (r : Registry) (name : String)
    (fields : List (String × FieldValue)) (mutation : Option Mutation) :
    Grows w (Edit.createNamed w r name fields mutation).workspace ∧
      ∀ x, (Edit.createNamed w r name fields mutation).answer = .ok x → x = w.nextId := by
  unfold Edit.createNamed
  split
  · exact ⟨.refl w, by simp [Edited.refused]⟩
  · exact Grows.create w r _

/-- The workspaces that creations make of one, those that are refused included. -/
inductive Created (r : Registry) (w : Workspace) : Workspace → Prop
  | start : Created r w w
  | step {v : Workspace} (kind : String) (fields : List (String × FieldValue))
      (mutation : Option Mutation) {done : Edited Answer} : Created r w v →
      (Edit.create kind fields mutation).run? r v = some done → Created r w done.workspace

theorem Created.grows {r : Registry} {w v : Workspace} (h : Created r w v) : Grows w v := by
  induction h with
  | start => exact .refl w
  | step kind fields mutation _ hrun ih =>
    obtain ⟨-, -, rfl⟩ := Edit.run?_eq_some.mp hrun
    exact ih.trans (Grows.createNamed _ r kind fields mutation).1

/-- A node that is created has the next id. -/
theorem node_of_create {r : Registry} {w : Workspace} {kind : String}
    {fields : List (String × FieldValue)} {mutation : Option Mutation} {done : Edited Answer}
    {x : NodeId} (hrun : (Edit.create kind fields mutation).run? r w = some done)
    (hok : done.answer = .ok (.node x)) : x = w.nextId := by
  obtain ⟨-, -, rfl⟩ := Edit.run?_eq_some.mp hrun
  refine (Grows.createNamed w r kind fields mutation).2 x ?_
  obtain ⟨y, hy, hnode⟩ := Edited.answer_map_eq_ok.mp hok
  rwa [← Answer.node.inj hnode]

end Workspace

/-! ## Saving and loading -/

/-- A workspace that fits into a document: its ids have a successor of 32 bits, its numbers are
legible, and the counts of its mutations fit into a word. -/
structure Workspace.Portable (w : Workspace) : Prop where
  ids : ∀ x n, w.get? x = some n → x + 1 < NodeId.limit
  fields : ∀ x n, w.get? x = some n → ∀ name value, n.fields.get? name = some value →
    value.Legible
  counts : ∀ x n, w.get? x = some n → ∀ m ∈ n.mutation, m.elseIfs < Numeral.limit

theorem Workspace.Consistent.portable_node {w : Workspace} (h : w.Consistent) (hp : w.Portable)
    {x : NodeId} {n : Node} (hn : w.get? x = some n) : n.Portable where
  id := by
    rw [h.stored x n hn]
    exact Nat.lt_of_succ_lt (hp.ids x n hn)
  parent := by
    intro p hparent
    rcases h.placed x n hn with hroot | ⟨q, m, hq, hm, -⟩
    · obtain ⟨k, hk, htop⟩ := h.root_top x hroot
      rw [hn, Option.some.injEq] at hk
      rw [← hk] at htop
      rw [htop] at hparent
      cases hparent
    · rw [hq] at hparent
      cases hparent
      exact Nat.lt_of_succ_lt (hp.ids p m hm)
  owned := by
    intro c hc
    obtain ⟨m, hm, -⟩ := h.parent_of_owned x n hn c hc
    exact Nat.lt_of_succ_lt (hp.ids c m hm)
  fields := hp.fields x n hn
  mutation := hp.counts x n hn

namespace Document

variable {w : Workspace}

theorem nextId_lt (hp : w.Portable) : nextId w.nodes < NodeId.limit := by
  rcases nextId_cases w with ⟨-, hzero⟩ | ⟨last, hlast, hnext, -⟩
  · rw [hzero]
    decide
  · obtain ⟨n, hn⟩ := Workspace.mem_keys.mp hlast
    rw [hnext]
    exact hp.ids last n hn

/-- A consistent workspace that fits into a document is read back from its document, with all its
nodes and with its roots in order. The next id is past every id, so what is created later, as long
as there are ids, leaves every node that was loaded as it is and never takes the id of a node that
is there. -/
theorem read_write_consistent (h : w.Consistent) (hp : w.Portable) :
    ∃ v, read (write w) = .ok v ∧ v.nodes = w.nodes ∧ v.roots = w.roots ∧
      (∀ x n, v.get? x = some n → x < v.nextId) ∧ v.nextId < NodeId.limit ∧
      ∀ (r : Registry) (u : Workspace), Workspace.Created r v u →
        (∀ x n, v.get? x = some n → u.get? x = some n) ∧
        ∀ kind fields mutation done x, (Edit.create kind fields mutation).run? r u = some done →
          done.answer = .ok (.node x) → u.get? x = none := by
  have hdocument : Json.Denotes ofJson? (ofWorkspace w).toJson (ofWorkspace w) := by
    refine denotes_document (fun x hx => ?_) fun n hn => ?_
    · obtain ⟨n, hn, -⟩ := h.root_top x hx
      exact Nat.lt_of_succ_lt (hp.ids x n hn)
    · obtain ⟨x, hx⟩ := SortedMap.mem_values.mp hn
      exact h.portable_node hp hx
  have hread : read (write w) = .ok ⟨w.nodes, w.roots, nextId w.nodes⟩ := by
    rw [read, write, String.toList_ofList, Json.read_print hdocument.printable, Option.bind_some,
      hdocument.reads]
    simp only [toWorkspace_ofWorkspace h]
  have hbelow : Workspace.Below ⟨w.nodes, w.roots, nextId w.nodes⟩ := fun x n hn => lt_nextId hn
  refine ⟨_, hread, rfl, rfl, hbelow, nextId_lt hp, fun r u hu => ?_⟩
  have hgrows := hu.grows
  refine ⟨fun x n hn => (hgrows.get?_old x (hbelow x n hn)).trans hn, ?_⟩
  intro kind fields mutation done x hrun hok
  rw [Workspace.node_of_create hrun hok]
  exact Workspace.get?_nextId_of_below (hgrows.below hbelow)

end Document

/-! ## A workspace that is saved -/

namespace Workspace

/-- A text with characters that are escaped, a number with a point, and a conditional with branches,
all of them made by the whole catalogue. -/
def varied : Workspace :=
  [⟨.showString, [("TEXT", .text "\"a\"\n\x01")], none⟩,
    ⟨.mathNumber, [("NUM", .number (.ofRatio true 5 2))], none⟩,
    ⟨.ifElse, [], some ⟨1, true⟩⟩].foldl
    (fun w (b : Blueprint) => (w.create .builtin b).workspace) {}

theorem tidy_varied : Tidy .builtin varied :=
  have hr := Registry.sound_builtin
  ((Tidy.empty.create hr _).create hr _).create hr _

theorem portable_varied : varied.Portable := by
  have hall : ∀ e ∈ varied.nodes.entries, e.1 + 1 < NodeId.limit ∧
      (∀ f ∈ e.2.fields.entries, f.2.Legible) ∧
      ∀ m ∈ e.2.mutation.toList, m.elseIfs < Numeral.limit := by
    decide +kernel
  have hentry {x : NodeId} {n : Node} (hn : varied.get? x = some n) :=
    hall (x, n) (SortedMap.mem_entries.mpr hn)
  refine ⟨fun x n hn => (hentry hn).1, fun x n hn name value hv => ?_, fun x n hn m hm => ?_⟩
  · exact (hentry hn).2.1 (name, value) (SortedMap.mem_entries.mpr hv)
  · exact (hentry hn).2.2 m (Option.mem_toList.mpr hm)

end Workspace

namespace Document

theorem read_write_varied :
    Workspace.varied.Consistent ∧ Workspace.varied.Portable ∧ Workspace.varied.size = 5 ∧
      ∃ v, read (write Workspace.varied) = .ok v ∧ v.nodes = Workspace.varied.nodes ∧
        v.roots = Workspace.varied.roots ∧
        ∀ kind fields mutation done x,
          (Edit.create kind fields mutation).run? .builtin v = some done →
            done.answer = .ok (.node x) → v.get? x = none := by
  have hconsistent : Workspace.varied.Consistent := .of_forest Workspace.tidy_varied.forest
    fun x n hn => (Workspace.tidy_varied.conforms.stored x n hn).1
  have hsize : Workspace.varied.size = 5 := by decide +kernel
  obtain ⟨v, hread, hnodes, hroots, -, -, hlater⟩ :=
    read_write_consistent hconsistent Workspace.portable_varied
  exact ⟨hconsistent, Workspace.portable_varied, hsize, v, hread, hnodes, hroots,
    (hlater .builtin v .start).2⟩

end Document

end BlockText

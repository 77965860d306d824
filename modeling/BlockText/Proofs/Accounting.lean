import BlockText.Proofs.Acceptance
import BlockText.Proofs.Corrections
import BlockText.Proofs.Grouping

/-!
# Accounting for lines

No line of an accepted program is lost or read twice. Every block has a number of header lines: two
for the root of an event, one for each branch of a conditional, one for any other statement. The
lines of a program that count are those that are neither blank nor the placeholder. Each of them is
a header line of one block, with a single exception: the literal of a shown text may run over line
ends, and then the lines that it takes are more than the one header line of its block.
-/

namespace BlockText

open Workspace Program

variable {w v : Workspace} {lo hi x : NodeId}

/-! ## Header lines of the nodes of a workspace -/

/-- The header lines of all blocks of a workspace. -/
def Workspace.headers (w : Workspace) : Nat :=
  (w.nodes.values.map fun n => n.kind.headerLines n.mutation).sum

/-- The header lines of the block with an id. -/
def Workspace.headersAt (w : Workspace) (x : NodeId) : Nat :=
  (w.get? x).elim 0 fun n => n.kind.headerLines n.mutation

theorem Workspace.headersAt_of_get? {n : Node} (h : w.get? x = some n) :
    w.headersAt x = n.kind.headerLines n.mutation := by
  rw [headersAt, h]
  rfl

theorem sum_map_flatMap {α β : Type} (f : β → Nat) (g : α → List β) (l : List α) :
    ((l.flatMap g).map f).sum = (l.map fun a => ((g a).map f).sum).sum := by
  induction l with
  | nil => rfl
  | cons a l ih =>
    rw [List.flatMap_cons, List.map_append, List.sum_append_nat, ih, List.map_cons, List.sum_cons]

/-- The walk from the roots meets all header lines. -/
theorem Forest.headers_eq (h : Forest w) :
    w.headers = (w.roots.map fun x => ((w.descendants x).map w.headersAt).sum).sum := by
  have hkeys : w.nodes.values.map (fun n => n.kind.headerLines n.mutation) =
      w.nodes.keys.map w.headersAt := by
    rw [SortedMap.values, SortedMap.keys, List.map_map, List.map_map]
    refine List.map_congr_left fun e he => ?_
    exact (headersAt_of_get? (SortedMap.mem_entries.mp he)).symm
  have hnodup : w.nodes.keys.Nodup := by
    rw [SortedMap.keys, List.nodup_iff_pairwise_ne, List.pairwise_map]
    refine w.nodes.ascending.imp fun {a b} hlt he => ?_
    rw [he] at hlt
    simp at hlt
  have hperm : w.nodes.keys.Perm (w.roots.flatMap w.descendants) := by
    refine (List.perm_ext_iff_of_nodup hnodup h.nodup_walk).mpr fun x => ?_
    rw [SortedMap.mem_keys, h.mem_walk]
    exact Option.isSome_iff_exists
  rw [headers, hkeys, (hperm.map w.headersAt).sum_nat, sum_map_flatMap]

theorem Kind.headerLines_value {k : Kind} (h : k.definition.shape.role.isValue = true)
    (m : Option Mutation) : k.headerLines m = 0 := by
  unfold headerLines
  cases hrole : k.definition.shape.role with
  | value check => rfl
  | helper => rfl
  | _ =>
    rw [hrole] at h
    cases h

/-! ## Header lines of trees -/

/-- The header lines of all statements of a sequence. -/
def Script.headers : Script → Nat
  | done => 0
  | block kind _ mutation _ body next => kind.headerLines mutation +
      ((kind.definition.shape.statementInputs mutation).map fun i => (body i).headers).sum +
      next.headers

namespace Orderly

variable {n : Node} {y : NodeId} {i : String}

/-- If what stands in value inputs does not count, then a sum over what a node owns is one over its
statement inputs. -/
theorem sum_owned (h : Orderly w) (hn : w.get? x = some n) {f : NodeId → Nat}
    (hf : ∀ y m, w.get? y = some m → m.kind.definition.shape.role.isValue = true → f y = 0) :
    (n.owned.map f).sum = ((n.kind.definition.shape.statementInputs n.mutation).map
      fun i => ((n.statements i).map f).sum).sum := by
  have hlaid := h.conforms.slots x n _ hn (Registry.find?_builtin _)
  have hnd := n.kind.nodup_inputs n.mutation
  -- one input: its slot is of the sort that its specification says
  have hspec : ∀ spec ∈ n.kind.definition.shape.inputsFor n.mutation,
      ((n.ownedIn spec.name).map f).sum =
        (spec.statement?.map fun i => ((n.statements i).map f).sum).getD 0 := by
    intro spec hspec
    obtain ⟨s, hs, hfits⟩ := hlaid.slot? hnd hspec
    have howned : n.ownedIn spec.name = s.owned := by
      rw [Node.ownedIn, hs]
      rfl
    rw [howned]
    cases spec with
    | value name check default =>
      cases s with
      | statements children => exact hfits.elim
      | value child shadow =>
        refine List.sum_eq_zero_iff_forall_eq_nat.mpr fun k hk => ?_
        obtain ⟨y, hy, rfl⟩ := List.mem_map.mp hk
        obtain ⟨m, hm, -, hrole⟩ := h.owned hn hs hy
        have hv := hfits y hy
        rw [hrole] at hv
        exact hf y m hm hv
    | statement name =>
      cases s with
      | value child shadow => exact hfits.elim
      | statements children =>
        have hstatements : n.statements name = children := by
          rw [Node.statements, show n.slot? name = _ from hs]
        show (children.map f).sum = ((n.statements name).map f).sum
        rw [hstatements]
  have hspecs (specs : List InputSpec)
      (hsub : ∀ spec ∈ specs, spec ∈ n.kind.definition.shape.inputsFor n.mutation) :
      ((specs.map InputSpec.name).map fun i => ((n.ownedIn i).map f).sum).sum =
        ((specs.filterMap InputSpec.statement?).map fun i => ((n.statements i).map f).sum).sum := by
    induction specs with
    | nil => rfl
    | cons spec specs ih =>
      rw [List.forall_mem_cons] at hsub
      rw [List.map_cons, List.map_cons, List.sum_cons, hspec spec hsub.1, ih hsub.2,
        List.filterMap_cons]
      cases spec.statement? with
      | none => exact Nat.zero_add _
      | some i => rfl
  rw [Node.owned_eq_flatMap (by rwa [hlaid.map_name]), sum_map_flatMap, hlaid.map_name]
  exact hspecs _ fun _ => id

/-- There are no header lines below a value. -/
theorem sum_value (h : Orderly w) (bound : Nat) (hn : w.get? x = some n)
    (hv : n.kind.definition.shape.role.isValue = true) :
    ((w.descendantsUpTo bound x).map w.headersAt).sum = 0 := by
  induction bound generalizing x n with
  | zero => rfl
  | succ bound ih =>
    have hinputs : n.kind.definition.shape.statementInputs n.mutation = [] := by
      rw [h.mutation_value hn hv, n.kind.statementInputs_value hv]
    rw [descendantsUpTo, hn]
    simp only [List.map_cons, List.sum_cons]
    rw [headersAt_of_get? hn, n.kind.headerLines_value hv, sum_map_flatMap,
      h.sum_owned hn fun y m hm hv => ih hm hv, hinputs]
    rfl

end Orderly

/-- The header lines of a sequence are those of the nodes at which it stands and of the nodes below
them. -/
theorem Script.Stands.sum_headers {t : Script} {bound : Nat} {ids : List NodeId}
    (h : t.Stands w lo hi ids) (hw : Orderly w) (hb : ∀ x ∈ ids, w.Suffices bound x) :
    (ids.map fun x => ((w.descendantsUpTo bound x).map w.headersAt).sum).sum = t.headers := by
  induction t generalizing ids bound with
  | done =>
    rw [show ids = [] from h]
    rfl
  | block kind fields mutation value body next ihb ih =>
    obtain ⟨x, rest, rfl, -, -, ⟨n, hn, rfl, -, rfl, -, hbodies⟩, hnext⟩ := h
    rw [List.forall_mem_cons] at hb
    obtain ⟨b, rfl⟩ := hw.exists_bound hn hb.1
    -- what is below the node is below its statement inputs
    have hbelow : ((n.owned.flatMap (w.descendantsUpTo b)).map w.headersAt).sum =
        ((n.kind.definition.shape.statementInputs n.mutation).map
          fun i => (body i).headers).sum := by
      rw [sum_map_flatMap, hw.sum_owned hn fun y m hm hv => hw.sum_value b hm hv]
      refine congrArg List.sum (List.map_congr_left fun i hi => ?_)
      obtain ⟨children, hc, hstands⟩ := hbodies i hi
      have hstatements : n.statements i = children := by
        rw [Node.statements, hc]
      rw [hstatements]
      refine ihb i hstands fun y hy => ?_
      obtain ⟨-, m, hm, hp, -⟩ := hw.statement_child hn (hstatements ▸ hy)
      exact hw.suffices_child hp hb.1
    rw [List.map_cons, List.sum_cons, ih hnext hb.2, headers, ← hbelow, descendantsUpTo, hn]
    simp only [List.map_cons, List.sum_cons]
    rw [headersAt_of_get? hn]

/-- All header lines of a workspace are those of the program that stands at its roots. -/
theorem Script.Stands.headers_eq {t : Script} (h : t.Stands w lo hi w.roots) (hw : Orderly w) :
    w.headers = t.headers := by
  rw [hw.forest.headers_eq]
  exact h.sum_headers hw fun x _ => w.suffices_size x

/-! ## The lines of an outline -/

namespace Program

mutual

theorem Item.lines_eq_map (item : Item) : lines item = (numbered item).map (·.2) := by
  cases item with
  | line number text => rfl
  | block items => exact linesAll_eq_map items

theorem Item.linesAll_eq_map (items : List Item) :
    linesAll items = (numberedAll items).map (·.2) := by
  cases items with
  | nil => rfl
  | cons item items =>
    rw [linesAll, numberedAll, List.map_append, lines_eq_map item, linesAll_eq_map items]

end

/-- The lines of a source that are not blank, stripped. -/
def Outline.written (raws : List (List Char)) : List (List Char) :=
  (raws.filter fun raw => !raw.all Text.isBlank).map stripped

theorem Outline.written_eq_map (number : Nat) (raws : List (List Char)) :
    written raws = (numberedFrom number raws).map (·.2) := by
  induction raws generalizing number with
  | nil => rfl
  | cons raw raws ih =>
    rw [numberedFrom_cons, List.map_append, ← ih (number + 1), written, List.filter_cons, written]
    cases raw.all Text.isBlank <;> rfl

/-- The lines of an outline are those of its source, in order. -/
theorem Outline.linesAll_ofSource {source : List Char} {items : List Item}
    (h : ofSource source = .ok items) :
    Item.linesAll items = written (Text.lines source) ∧
      ∀ l ∈ Item.linesAll items, '\n' ∉ l := by
  obtain ⟨hlines, hlegible⟩ := numberedAll_ofSource h
  rw [Item.linesAll_eq_map]
  refine ⟨by rw [hlines, written_eq_map 1], List.forall_mem_map.mpr fun l hl => ?_⟩
  exact (hlegible l hl).newline

end Program

/-! ## Lines and header lines -/

/-- If a line shows a text, the literal ends on the line. -/
def Closed (l : List Char) : Prop :=
  stringOpening <+: l → (Quoted.span (l.drop stringOpening.length)).isSome

instance (l : List Char) : Decidable (Closed l) :=
  inferInstanceAs (Decidable (_ → _))

/-- There are no more header lines than lines, and as many exactly if all lines are closed. -/
structure Accounts (headers : Nat) (ls : List (List Char)) : Prop where
  le : headers ≤ ls.length
  eq_iff : headers = ls.length ↔ ∀ l ∈ ls, Closed l

namespace Accounts

variable {a b : Nat} {ls ls' : List (List Char)}

theorem nil : Accounts 0 [] := ⟨Nat.le_refl _, ⟨fun _ => nofun, fun _ => rfl⟩⟩

theorem append (h : Accounts a ls) (h' : Accounts b ls') : Accounts (a + b) (ls ++ ls') := by
  have hle := h.le
  have hle' := h'.le
  refine ⟨?_, ?_⟩
  · rw [List.length_append]
    omega
  · rw [List.forall_mem_append, ← h.eq_iff, ← h'.eq_iff, List.length_append]
    omega

theorem perm (h : Accounts a ls) (hp : ls.Perm ls') : Accounts a ls' := by
  refine ⟨hp.length_eq ▸ h.le, ?_⟩
  rw [← hp.length_eq, h.eq_iff]
  exact ⟨fun hl l hm => hl l (hp.mem_iff.mpr hm), fun hl l hm => hl l (hp.mem_iff.mp hm)⟩

/-- Lines that do not show texts account for themselves. -/
theorem of_closed (h : ∀ l ∈ ls, Closed l) : Accounts ls.length ls :=
  ⟨Nat.le_refl _, fun _ => h, fun _ => rfl⟩

end Accounts

namespace Program

/-- The lines of some items themselves, without those in blocks. -/
def own : List Item → List (List Char)
  | [] => []
  | .line _ text :: rest => text :: own rest
  | .block _ :: rest => own rest

/-- An item as a level shows it. -/
def Item.shown : Item → List Char
  | line _ text => text
  | block _ => blockMark

variable {items covered : List Item}

theorem length_own (items : List Item) :
    (own items).length + (blocks items).length = items.length := by
  induction items with
  | nil => rfl
  | cons item items ih =>
    cases item with
    | line number t =>
      rw [own, blocks, List.length_cons, List.length_cons]
      omega
    | block inner =>
      rw [own, blocks, List.length_cons, List.length_cons]
      omega

theorem mem_own {l : List Char} : l ∈ own items ↔ ∃ number, .line number l ∈ items := by
  induction items with
  | nil => simp [own]
  | cons item items ih =>
    cases item with
    | line number t =>
      simp only [own, List.mem_cons, ih, Item.line.injEq]
      constructor
      · rintro (rfl | ⟨number', h⟩)
        · exact ⟨number, .inl ⟨rfl, rfl⟩⟩
        · exact ⟨number', .inr h⟩
      · rintro ⟨number', ⟨-, rfl⟩ | h⟩
        · exact .inl rfl
        · exact .inr ⟨number', h⟩
    | block inner => simp only [own, List.mem_cons, ih, reduceCtorEq, false_or]

theorem newline_shown (h : ∀ l ∈ Item.linesAll items, '\n' ∉ l) :
    ∀ l ∈ items.map Item.shown, '\n' ∉ l := by
  rw [List.forall_mem_map]
  intro item hitem
  cases item with
  | line number t =>
    refine h t ?_
    rw [Item.linesAll_eq]
    exact List.mem_flatMap.mpr ⟨_, hitem, List.mem_singleton_self _⟩
  | block inner =>
    show '\n' ∉ blockMark
    decide

/-- The lines of items are their own and those in their blocks. -/
theorem perm_linesAll (items : List Item) :
    (own items ++ (blocks items).flatMap Item.linesAll).Perm (Item.linesAll items) := by
  induction items with
  | nil => exact .nil
  | cons item items ih =>
    cases item with
    | line number t => exact ih.cons t
    | block inner =>
      rw [own, blocks, List.flatMap_cons, Item.linesAll]
      exact (List.perm_append_comm_assoc _ _ _).trans (ih.append_left _)

theorem spell_eq_unlines (items : List Item) : spell items = Text.unlines (items.map Item.shown) := by
  rw [Text.unlines, List.flatMap_map, spell]
  refine List.flatMap_congr fun item _ => ?_
  cases item <;> rfl

end Program

/-! ## Units -/

theorem length_shown (rows : List Row) :
    (rows.flatMap Row.shown).length = rows.length + (rows.filterMap Row.body).length := by
  induction rows with
  | nil => rfl
  | cons r rows ih =>
    rw [List.flatMap_cons, List.length_append, ih, List.filterMap_cons, Row.shown]
    cases r.body with
    | none =>
      simp only [Option.map_none, Option.toList_none, List.length_cons, List.length_nil]
      omega
    | some input =>
      simp only [Option.map_some, Option.toList_some, List.length_cons, List.length_nil]
      omega

theorem Row.Plain.closed {r : Row} (h : r.Plain) {l : List Char} (hl : l ∈ r.shown) :
    '\n' ∉ l ∧ Closed l := by
  rcases List.mem_cons.mp hl with rfl | hl
  · exact ⟨h.line, fun hopening => absurd hopening h.opening⟩
  · cases hr : r.body with
    | none =>
      rw [hr] at hl
      cases hl
    | some input =>
      rw [hr] at hl
      obtain rfl : l = blockMark := List.mem_singleton.mp hl
      exact ⟨by decide, fun hopening => absurd hopening (by decide)⟩

section Units

variable {k : Kind} {e : Extraction} {covered : List Item}

theorem Clause.closed {rows : List Row} (h : Clause k e rows) :
    ∀ l ∈ rows.flatMap Row.shown, '\n' ∉ l ∧ Closed l := by
  intro l hl
  obtain ⟨r, hr, hl⟩ := List.mem_flatMap.mp hl
  exact (h.plain r hr).closed hl

/-- The items of a unit in rows are the lines of its rows, one by one. -/
theorem Clause.shown_eq {rows : List Row} (h : Clause k e rows)
    (hspell : spell covered = spellRows rows)
    (hclean : ∀ l ∈ covered.map Item.shown, '\n' ∉ l) :
    covered.map Item.shown = rows.flatMap Row.shown := by
  rw [spell_eq_unlines, spellRows_eq_unlines] at hspell
  have hcut := congrArg (Text.cut '\n') hspell
  rw [Text.cut_unlines hclean, Text.cut_unlines fun l hl => (h.closed l hl).1] at hcut
  exact List.append_cancel_right hcut

/-- The lines of a unit in rows are as many as its header lines. -/
theorem Clause.length_own {rows : List Row} (h : Clause k e rows)
    (hspell : spell covered = spellRows rows) (hclean : ∀ l ∈ covered.map Item.shown, '\n' ∉ l)
    (hblocks : (blocks covered).length = e.bodies.length) :
    (own covered).length = k.headerLines e.mutation := by
  have hitems := congrArg List.length (h.shown_eq hspell hclean)
  rw [List.length_map, length_shown, h.bodies, h.length] at hitems
  have hown := Program.length_own covered
  omega

/-- The lines of a unit in rows are header lines. -/
theorem Clause.accounts {rows : List Row} (h : Clause k e rows)
    (hspell : spell covered = spellRows rows) (hclean : ∀ l ∈ covered.map Item.shown, '\n' ∉ l)
    (hblocks : (blocks covered).length = e.bodies.length) :
    Accounts (k.headerLines e.mutation) (own covered) := by
  rw [← h.length_own hspell hclean hblocks]
  refine .of_closed fun l hl => (h.closed l ?_).2
  obtain ⟨number, hmem⟩ := mem_own.mp hl
  rw [← h.shown_eq hspell hclean]
  exact List.mem_map_of_mem hmem

/-- The first line of a unit that shows a text is closed exactly if it is all of the unit. -/
theorem closed_iff_of_literal {t l : List Char} {rest : List Item} {number : Nat}
    (hspell : spell (.line number l :: rest) = stringOpening ++ (t ++ ")\n".toList))
    (hl : '\n' ∉ l) (ht : ∀ rest, Quoted.span (t ++ rest) = some (t, rest)) :
    Closed l ↔ rest = [] := by
  rw [spell_line] at hspell
  have hnone : '\n' ∉ stringOpening := by decide
  have hopening : stringOpening <+: l := by
    have hfront : stringOpening <+: l ++ '\n' :: spell rest := ⟨_, hspell.symm⟩
    have hline : l ++ ['\n'] <+: l ++ '\n' :: spell rest := ⟨spell rest, by simp⟩
    rcases List.prefix_or_prefix_of_prefix hfront hline with h | h
    · rcases List.prefix_concat_iff.mp h with h | h
      · exact absurd (h ▸ List.mem_concat_self) hnone
      · exact h
    · exact absurd (h.subset List.mem_concat_self) hnone
  obtain ⟨more, rfl⟩ := hopening
  rw [List.append_assoc, List.append_cancel_left_eq] at hspell
  have hclosed : Closed (stringOpening ++ more) ↔ (Quoted.span more).isSome := by
    rw [Closed, List.drop_left]
    exact ⟨fun h => h (List.prefix_append _ _), fun h _ => h⟩
  rw [hclosed]
  constructor
  · intro h
    obtain ⟨⟨t', r⟩, hspan⟩ := Option.isSome_iff_exists.mp h
    -- the literal that ends on the line is the literal of the unit
    have htext : t' ++ (r ++ '\n' :: spell rest) = t ++ ")\n".toList := by
      rw [← List.append_assoc, Lexeme.span_append hspan]
      exact hspell
    have hsame := (Quoted.span_front hspan (r ++ '\n' :: spell rest)).symm
    rw [htext, ht, Option.some.injEq, Prod.mk.injEq] at hsame
    have hlength := congrArg List.length hsame.2
    have hempty : spell rest = [] := by
      cases r with
      | nil => cases hsame.2
      | cons c r =>
        rw [List.length_append, List.length_cons, List.length_cons] at hlength
        refine List.eq_nil_of_length_eq_zero ?_
        have : ")\n".toList.length = 2 := rfl
        omega
    cases rest with
    | nil => rfl
    | cons item rest =>
      cases item with
      | line number t => simp [spell_line] at hempty
      | block inner => simp [spell_block] at hempty
  · rintro rfl
    have hline : more ++ ['\n'] = t ++ [')'] ++ ['\n'] := by
      rw [List.append_assoc]
      exact hspell
    rw [List.append_cancel_right hline, ht]
    rfl

/-- The lines of a unit that shows a text are more than its header line, unless it is one line. -/
theorem accounts_of_literal {cs : List Char} {b : Blueprint}
    (h : Kind.showString.definition.recover cs = some (e, b, spell covered))
    (hclean : ∀ l ∈ covered.map Item.shown, '\n' ∉ l)
    (hblocks : (blocks covered).length = e.bodies.length) :
    Accounts (Kind.showString.headerLines e.mutation) (own covered) := by
  have hfills := Kind.fills_of_recover h
  have hmutation := hfills.mutation_none rfl
  have hnone : blocks covered = [] := by
    rw [hfills.bodies, hmutation] at hblocks
    exact List.eq_nil_of_length_eq_zero hblocks
  obtain ⟨t, hspell, ht⟩ := Kind.literal_of_recover h
  rw [hmutation]
  cases covered with
  | nil => cases hspell
  | cons item rest =>
    cases item with
    | block inner => cases hnone
    | line number l =>
      rw [List.map_cons, List.forall_mem_cons] at hclean
      have hiff := closed_iff_of_literal hspell hclean.1 ht
      have hlength : (own rest).length = rest.length := by
        have := length_own rest
        rw [show blocks rest = [] from hnone, List.length_nil] at this
        exact this
      refine ⟨?_, ?_⟩
      · show 1 ≤ (l :: own rest).length
        rw [List.length_cons]
        omega
      · show 1 = (l :: own rest).length ↔ ∀ l' ∈ l :: own rest, Closed l'
        rw [List.forall_mem_cons, hiff, List.length_cons, hlength]
        constructor
        · intro h
          obtain rfl : rest = [] := List.eq_nil_of_length_eq_zero (by omega)
          exact ⟨rfl, nofun⟩
        · rintro ⟨rfl, -⟩
          rfl

/-- The lines of a unit, without those in its blocks, account for its header lines. -/
theorem accounts_unit {cs : List Char} {b : Blueprint}
    (hrole : k.definition.shape.role.isValue = false)
    (h : k.definition.recover cs = some (e, b, spell covered))
    (hclean : ∀ l ∈ covered.map Item.shown, '\n' ∉ l)
    (hblocks : (blocks covered).length = e.bodies.length) :
    Accounts (k.headerLines e.mutation) (own covered) := by
  by_cases hk : k = .showString
  · subst hk
    exact accounts_of_literal h hclean hblocks
  · obtain ⟨rows, hspell, hclause⟩ := k.clause_of_recover hrole hk h
    exact hclause.accounts hspell hclean hblocks

end Units

/-! ## Levels -/

namespace Program

/-- The lines of some items that count. -/
def counted (o : Options) (items : List Item) : List (List Char) :=
  (Item.linesAll items).filter (· != o.noop.toList)

variable {o : Options} {items : List Item}

theorem counted_append (o : Options) (items items' : List Item) :
    counted o (items ++ items') = counted o items ++ counted o items' := by
  rw [counted, Item.linesAll_append, List.filter_append, counted, counted]

theorem level_noop (o : Options) (items : List Item) :
    ∀ i ∈ level o items, isNoop o i = false := by
  intro i hi
  simpa using (List.mem_filter.mp hi).2

/-- The placeholders that a level leaves out do not count. -/
theorem counted_level (o : Options) (items : List Item) :
    counted o (level o items) = counted o items := by
  induction items with
  | nil => rfl
  | cons item items ih =>
    have hcons (items : List Item) :
        counted o (item :: items) = counted o [item] ++ counted o items :=
      counted_append o [item] items
    rw [level, List.filter_cons, hcons]
    split
    · rw [hcons]
      exact congrArg (_ ++ ·) ih
    · next hnoop =>
      refine ih.trans ?_
      cases item with
      | block inner => exact absurd rfl hnoop
      | line number t => simpa [counted, Item.linesAll, Item.lines, isNoop] using hnoop

/-- The lines of a level that count are its own and those of its blocks that count. -/
theorem perm_counted (h : ∀ i ∈ items, isNoop o i = false) :
    (own items ++ (blocks items).flatMap (counted o)).Perm (counted o items) := by
  have hown : (own items).filter (· != o.noop.toList) = own items := by
    refine List.filter_eq_self.mpr fun l hl => ?_
    obtain ⟨number, hmem⟩ := mem_own.mp hl
    have hnoop := h _ hmem
    rw [isNoop] at hnoop
    rw [bne, hnoop]
    rfl
  have hperm := (perm_linesAll items).filter (· != o.noop.toList)
  rw [List.filter_append, hown, List.filter_flatMap] at hperm
  exact hperm

end Program

/-- The lines that count of a level account for the header lines of the sequence that it spells. -/
theorem Script.SpelledBy.accounts {o : Options} {top : Bool} {t : Script} {items : List Item}
    (h : t.SpelledBy o top items) (hlevel : ∀ i ∈ items, isNoop o i = false)
    (hclean : ∀ l ∈ Item.linesAll items, '\n' ∉ l) : Accounts t.headers (counted o items) := by
  induction t generalizing top items with
  | done =>
    obtain rfl : items = [] := h
    exact .nil
  | block kind fields mutation value body next ihb ih =>
    obtain ⟨hrole, e, covered, rest, rfl, hrecovers, rfl, -, hbodies, hnext⟩ := h
    rw [List.forall_mem_append] at hlevel
    rw [Item.linesAll_append, List.forall_mem_append] at hclean
    have hfills := kind.fills_of_recover hrecovers.recover
    have hunit := accounts_unit (isValue_of_role hrole) hrecovers.recover
      (newline_shown hclean.1) hbodies.length_eq.symm
    -- one body after the other
    have hblocks {inputs : List String} {inners : List (List Item)}
        (hbodies : List.Forall₂ (fun i inner => (body i).SpelledBy o false (level o inner)) inputs
          inners) (hclean : ∀ inner ∈ inners, ∀ l ∈ Item.linesAll inner, '\n' ∉ l) :
        Accounts (inputs.map fun i => (body i).headers).sum (inners.flatMap (counted o)) := by
      induction hbodies with
      | nil => exact .nil
      | @cons i inner _ _ hone _ ihs =>
        rw [List.forall_mem_cons] at hclean
        rw [List.map_cons, List.sum_cons, List.flatMap_cons]
        refine .append ?_ (ihs hclean.2)
        rw [← counted_level]
        exact ihb i hone (level_noop o inner)
          fun l hl => hclean.1 l (Item.mem_lines_of_mem_level hl)
    rw [counted_append, headers, ← hfills.bodies]
    refine .append (.perm (hunit.append ?_) (perm_counted hlevel.1)) (ih hnext hlevel.2 hclean.2)
    exact hblocks hbodies fun inner hinner l hl =>
      hclean.1 l (Item.mem_lines_of_mem_blocks hinner hl)

/-! ## Programs -/

/-- The lines of a source that count: stripped, and neither blank nor the placeholder. -/
def Program.significant (o : Options) (source : String) : List (List Char) :=
  (Outline.written (Text.lines source.toList)).filter (· != o.noop.toList)

/-- The blocks of an accepted program account for its lines. Without rules for single roots, the
header lines of all blocks that were read are at most the lines that count, and they are as many
exactly if no literal of a shown text runs over the end of a line. The blocks stand in the workspace
in source order, at the top and in every body: one after the other they are read from the items of
their level, from the first to the last and without a gap. -/
theorem Program.read_accounts {s : Setup} {source : String} {reading : Reading}
    (hr : s.registry = .builtin) (hs : s.rules.singletons = [])
    (h : Program.read s source = .ok reading) :
    reading.workspace.headers ≤ (significant s.options source).length ∧
    (reading.workspace.headers = (significant s.options source).length ↔
      ∀ l ∈ significant s.options source, Closed l) ∧
    ∃ items t, Outline.ofSource source.toList = .ok items ∧
      Script.SpelledBy s.options true t (level s.options items) ∧
      t.Stands reading.workspace 0 reading.workspace.nextId reading.workspace.roots := by
  obtain ⟨items, hitems, h⟩ := bind_ok h
  obtain ⟨w, hbuild, h⟩ := bind_ok h
  cases h
  obtain ⟨hlines, hclean⟩ := Outline.linesAll_ofSource hitems
  obtain ⟨t, hspelled, htidy, hstands⟩ := Script.of_build hr hclean hbuild
  have hflags : Reflagged w (s.rules.normalize w).workspace := by
    have hsingle : ∀ k ∈ s.rules.singletons, w.Single k := by
      rw [hs]
      exact fun _ hk => absurd hk List.not_mem_nil
    have hflags := s.rules.reflagged_normalize w
    rwa [Rules.prune_eq hsingle htidy.forest.roots_nodup] at hflags
  replace hstands := hstands.reflagged hflags
  rw [← hflags.roots, ← hflags.nextId] at hstands
  have hheaders := hstands.headers_eq (htidy.orderly.reflagged hflags)
  have haccounts := hspelled.accounts (level_noop _ _)
    fun l hl => hclean l (Item.mem_lines_of_mem_level hl)
  rw [counted_level, counted, hlines, ← hheaders] at haccounts
  exact ⟨haccounts.le, haccounts.eq_iff, items, t, hitems, hspelled, hstands⟩

/-- A handler with a conditional, a blank line and a placeholder: six lines count, and six are
header lines. -/
theorem Program.read_accounts_handler : ∃ source reading,
    Program.read { rules := { Rules.standard with singletons := [] } } source = .ok reading ∧
      (significant {} source).length = 6 ∧ reading.workspace.headers = 6 := by
  let source := "def on_start():\n    if True:\n        basic.show_string(\"a\")\n    else:\n\n" ++
    "        pass\non_start()\nx = y\n"
  have hok : (Program.read { rules := { Rules.standard with singletons := [] } } source).isOk =
      true := by decide +kernel
  cases hread : Program.read { rules := { Rules.standard with singletons := [] } } source with
  | error f =>
    rw [hread] at hok
    cases hok
  | ok reading =>
    have hlines : (significant {} source).length = 6 := by decide +kernel
    have hclosed : ∀ l ∈ significant {} source, Closed l := by decide +kernel
    obtain ⟨-, hall, -⟩ := read_accounts rfl rfl hread
    exact ⟨source, reading, hread, hlines, (hall.mpr hclosed).trans hlines⟩

/-- A literal that runs over the end of a line is read: two lines count, one is a header line. -/
theorem Program.read_literal_over_lines :
    (significant {} "basic.show_string(\"a\nb\")\n").length = 2 ∧
    ((Program.read { rules := { Rules.standard with singletons := [] } }
      "basic.show_string(\"a\nb\")\n").toOption.map fun r => r.workspace.headers) = some 1 := by
  decide +kernel

end BlockText

import BlockText.Proofs.Clauses
import BlockText.Proofs.Selections
import BlockText.Proofs.Units

/-!
# Accepted programs

What the reader makes of any program that it accepts, written by hand or not, with all built-in
kinds or with a selection of them. Every level of the outline is covered by its units from front to
end, without a gap and without an overlap: each unit is what the idiom of its block took, and the
blocks among its items are the levels of its bodies. So the program spells a tree, and the tree
stands in the workspace that was read.
-/

namespace BlockText

open Workspace Program

variable {w v : Workspace} {lo hi x : NodeId}

/-! ## Trees that a text spells -/

/-- The items of a level that count. -/
def Program.level (o : Options) (items : List Item) : List Item :=
  items.filter fun i => !isNoop o i

/-- A kind reads an extraction from a text, with these fields. -/
structure Kind.Recovers (k : Kind) (e : Extraction) (cs matched : List Char)
    (fields : SortedMap String FieldValue) : Prop where
  recover : k.definition.recover cs = some (e, ⟨k, e.fields, e.mutation⟩, matched)
  fields : ∀ id, fillFields k.definition.shape id e.fields
    (defaultFields k.definition.shape) = .ok fields

/-- An expression is spelled by a source: its block is read from all of it, and its operands are
spelled by the sources of its inputs. -/
def Expr.SpelledBy : Expr → List Char → Prop
  | absent, _ => False
  | block kind fields operand, source => kind.definition.shape.role.isValue = true ∧
      ∃ e, kind.Recovers e (Text.trim source) (Text.trim source) fields ∧
        ∀ s ∈ e.values, (operand s.1).SpelledBy s.2

/-- A sequence is spelled by the items of a level: its first block is read from the items at the
front, the values and the bodies of the block are spelled by what stands in these items, and what
follows is spelled by the items that follow. -/
def Script.SpelledBy (o : Options) : Bool → Script → List Item → Prop
  | _, done, items => items = []
  | top, block kind fields mutation value body next, items =>
    (kind.definition.shape.role = .statement ∨
      top = true ∧ kind.definition.shape.role = .root) ∧
    ∃ e covered rest, items = covered ++ rest ∧
      kind.Recovers e (Program.spell items) (Program.spell covered) fields ∧ e.mutation = mutation ∧
      (∀ s ∈ e.values, (value s.1).SpelledBy s.2) ∧
      List.Forall₂ (fun i inner => (body i).SpelledBy o false (Program.level o inner)) e.bodies
        (blocks covered) ∧
      next.SpelledBy o top rest

theorem Expr.SpelledBy.valued {e : Expr} {source : List Char} (h : e.SpelledBy source) :
    e.Valued := by
  cases e with
  | absent => exact h
  | block kind fields operand => exact h.1

theorem Script.SpelledBy.ranked {o : Options} {top : Bool} {t : Script} {items : List Item}
    (h : t.SpelledBy o top items) : t.Ranked top := by
  induction t generalizing items with
  | done => trivial
  | block kind fields mutation value body next _ ih =>
    obtain ⟨hrole, e, covered, rest, -, -, -, -, -, hnext⟩ := h
    exact ⟨hrole, ih hnext⟩

/-! ## Making the node of a block -/

/-- Which fields a block gets does not depend on its id. -/
theorem Workspace.fillFields_id {s : Shape} {id id' : NodeId} {values : List (String × FieldValue)}
    {fields result : SortedMap String FieldValue} (h : fillFields s id values fields = .ok result) :
    fillFields s id' values fields = .ok result := by
  induction values generalizing fields with
  | nil => exact h
  | cons p values ih =>
    rw [fillFields] at h ⊢
    cases hspec : s.field? p.1 with
    | none =>
      rw [hspec] at h
      cases h
    | some spec =>
      simp only [hspec] at h ⊢
      split at h
      · next ha =>
        rw [if_pos ha]
        exact ih h
      · cases h

/-- The node of a block that was recognized is made with all inputs still to be filled. -/
theorem growing_of_make {k : Kind} {e : Extraction} {cs matched : List Char} {b : Blueprint}
    {loose : List NodeId} (ht : Tidy .builtin w loose)
    (hr : k.definition.recover cs = some (e, b, matched))
    (hmake : w.make .builtin b = (v, .ok x)) :
    x = w.nextId ∧ (e.values.map (·.1) ++ e.bodies).Nodup ∧
      ∃ fields, k.Recovers e cs matched fields ∧ ∀ value body,
        Growing ⟨k, fields, e.mutation, value, body⟩ w loose v.nextId
          (e.values.map (·.1) ++ e.bodies) v := by
  obtain ⟨-, -, -, -, -, -, -, -, rfl, -, -⟩ := k.recover_some hr
  have hfills := k.fills_of_recover hr
  rcases make_cases Registry.sound_builtin w ⟨k, e.fields, e.mutation⟩ with
    ⟨_, he⟩ | ⟨_, he⟩ | ⟨d, fields, mutation, hd, -, hf, -, he⟩
  · rw [hmake] at he
    cases he
  · rw [hmake] at he
    cases he
  · obtain rfl : k.definition = d := Option.some.inj ((Registry.find?_builtin k).symm.trans hd)
    have hgrow (value : String → Expr) (body : String → Script) :=
      growing_make (b := ⟨k, fields, e.mutation, value, body⟩) ht hf hfills.mutation
    have hx : x = w.nextId := by
      rw [hmake] at he
      exact Except.ok.inj (Prod.mk.inj he).2
    rw [hfills.values, hfills.bodies]
    refine ⟨hx, Shape.nodup_valueInputs_append (k.nodup_inputs _), fields,
      ⟨hr, fun _ => fillFields_id hf⟩, fun value body => ?_⟩
    obtain ⟨v', hmake', hgrowing⟩ := hgrow value body
    obtain rfl : v = v' := (Prod.mk.inj (hmake.symm.trans hmake')).1
    exact hgrowing

/-! ## Filling the inputs -/

namespace Growing

variable {b : Draft} {loose : List NodeId} {pending : List String} {u : Workspace}

/-- What is to stand in a pending input may still be chosen. -/
theorem choose (h : Growing b w loose lo pending v) {value : String → Expr}
    {body : String → Script} (hv : ∀ i, i ∉ pending → value i = b.value i)
    (hb : ∀ i, i ∉ pending → body i = b.body i) :
    Growing { b with value := value, body := body } w loose lo pending v where
  grown := h.grown
  tidy := h.tidy
  start := h.start
  lo_le := h.lo_le
  node := by
    obtain ⟨n, hn, hkind, hfields, hmutation, hshadow, hblank, hfilled⟩ := h.node
    refine ⟨n, hn, hkind, hfields, hmutation, hshadow, fun i hi => ?_, fun i hi => ?_⟩
    · exact ⟨(hblank i hi).value, (hblank i hi).body⟩
    · refine ⟨fun hvalue => ?_, fun hbody => ?_⟩
      · show ∃ y, _ ∧ (value i).Stands v lo v.nextId y
        rw [hv i hi]
        exact (hfilled i hi).value hvalue
      · show ∃ children, _ ∧ (body i).Stands v lo v.nextId children
        rw [hb i hi]
        exact (hfilled i hi).body hbody

/-- An expression that was read is attached to a pending input, where it stands from then on. -/
theorem attach_value {e : Expr} {input : String} (h : Growing b w loose lo (input :: pending) v)
    (hinput : input ∉ pending) (hvalue : input ∈ b.values) (hvalued : e.Valued)
    (hreads : e.Reads v (w.nextId :: loose) u) (line : Nat) (source : List Char) :
    ∃ u', Program.attach u line w.nextId input source v.nextId = .ok u' ∧
      Growing { b with value := fun i => if i = input then e else b.value i } w loose lo
        pending u' := by
  have hchosen : Growing { b with value := fun i => if i = input then e else b.value i } w loose lo
      (input :: pending) v :=
    h.choose (fun _ hi => if_neg (List.ne_of_not_mem_cons hi)) fun _ _ => rfl
  refine hchosen.attach hinput hvalue ?_ ?_ line source
  · show Expr.Valued (if input = input then e else b.value input)
    rwa [if_pos rfl]
  · show Expr.Reads (if input = input then e else b.value input) v (w.nextId :: loose) u
    rwa [if_pos rfl]

/-- A sequence that was read is attached to a pending input, where it stands from then on. -/
theorem attach_body {t : Script} {input : String} {children : List NodeId}
    (h : Growing b w loose lo (input :: pending) v) (hinput : input ∉ pending)
    (hbody : input ∈ b.bodies) (hranked : t.Ranked false)
    (hreads : t.Reads v (w.nextId :: loose) u children) (line : Nat) (text : List Char) :
    ∃ u', Program.attachBody line text w.nextId input children u = .ok u' ∧
      Growing { b with body := fun i => if i = input then t else b.body i } w loose lo
        pending u' := by
  have hchosen : Growing { b with body := fun i => if i = input then t else b.body i } w loose lo
      (input :: pending) v :=
    h.choose (fun _ _ => rfl) fun _ hi => if_neg (List.ne_of_not_mem_cons hi)
  refine hchosen.attachBody hinput hbody ?_ ?_ line text
  · show Script.Ranked false (if input = input then t else b.body input)
    rwa [if_pos rfl]
  · show Script.Reads (if input = input then t else b.body input) v (w.nextId :: loose) u children
    rwa [if_pos rfl]

/-- If all sources were read and attached, then what was read stands in the inputs. -/
theorem of_attachAll {read : Nat → List Char → Workspace → Except Failure (Workspace × NodeId)}
    {lineOf : List Char → Nat} {P : List Char → Expr → Prop} {sources : List (String × List Char)}
    (hread : ∀ line source u ls u' x, Tidy .builtin u ls → read line source u = .ok (u', x) →
      x = u.nextId ∧ ∃ e : Expr, P source e ∧ e.Valued ∧ e.Reads u ls u')
    (h : Growing b w loose lo (sources.map (·.1) ++ pending) v)
    (hnd : (sources.map (·.1) ++ pending).Nodup)
    (hvalues : ∀ i ∈ sources.map (·.1), i ∈ b.values)
    (hok : Program.attachAll read lineOf w.nextId sources v = .ok u) :
    ∃ value : String → Expr, (∀ i, i ∉ sources.map (·.1) → value i = b.value i) ∧
      (∀ s ∈ sources, P s.2 (value s.1)) ∧
      Growing { b with value := value } w loose lo pending u := by
  induction sources generalizing b v with
  | nil =>
    cases hok
    exact ⟨b.value, fun _ _ => rfl, nofun, h⟩
  | cons s sources ih =>
    rw [List.map_cons, List.cons_append, List.nodup_cons] at hnd
    rw [List.map_cons, List.forall_mem_cons] at hvalues
    rw [Program.attachAll] at hok
    obtain ⟨⟨v₁, x⟩, hr, hok⟩ := bind_ok hok
    obtain ⟨u₁, hattached, hrest⟩ := bind_ok hok
    obtain ⟨rfl, e, hP, hvalued, hreads⟩ := hread _ _ _ _ _ _ h.tidy hr
    obtain ⟨u₂, hattach, hgrowing⟩ :=
      h.attach_value hnd.1 hvalues.1 hvalued hreads (lineOf s.2) s.2
    obtain rfl : u₁ = u₂ := Except.ok.inj (hattached.symm.trans hattach)
    obtain ⟨value', hkept, hall, hdone⟩ := ih hgrowing hnd.2 hvalues.2 hrest
    refine ⟨value', fun i hi => ?_, ?_, hdone⟩
    · rw [List.map_cons, List.mem_cons, not_or] at hi
      exact (hkept i hi.2).trans (if_neg hi.1)
    · rw [List.forall_mem_cons]
      refine ⟨?_, hall⟩
      have hnot : s.1 ∉ sources.map (·.1) := fun hm => hnd.1 (List.mem_append_left _ hm)
      have he : value' s.1 = e := (hkept s.1 hnot).trans (if_pos rfl)
      rw [he]
      exact hP

/-- If all blocks were read and attached, then what was read stands in the inputs. -/
theorem of_attachBodies
    {readBlock : List Item → Workspace → Except Failure (Workspace × List NodeId)}
    {line : Nat} {text : List Char} {P : List Item → Script → Prop} {inputs : List String}
    {inners : List (List Item)} (hlength : inners.length = inputs.length)
    (hread : ∀ inner ∈ inners, ∀ u ls u' ids, Tidy .builtin u ls →
      readBlock inner u = .ok (u', ids) →
      ∃ t : Script, P inner t ∧ t.Ranked false ∧ t.Reads u ls u' ids)
    (h : Growing b w loose lo (inputs ++ pending) v) (hnd : (inputs ++ pending).Nodup)
    (hbodies : ∀ i ∈ inputs, i ∈ b.bodies)
    (hok : Program.attachBodies readBlock line text w.nextId (inputs.zip inners) v = .ok u) :
    ∃ body : String → Script, (∀ i, i ∉ inputs → body i = b.body i) ∧
      List.Forall₂ (fun i inner => P inner (body i)) inputs inners ∧
      Growing { b with body := body } w loose lo pending u := by
  induction inputs generalizing b v inners with
  | nil =>
    obtain rfl : inners = [] := List.length_eq_zero_iff.mp hlength
    cases hok
    exact ⟨b.body, fun _ _ => rfl, .nil, h⟩
  | cons input inputs ih =>
    obtain ⟨inner, inners, rfl⟩ := List.exists_cons_of_length_pos
      (show 0 < inners.length by rw [hlength]; exact Nat.succ_pos _)
    rw [List.cons_append, List.nodup_cons] at hnd
    rw [List.forall_mem_cons] at hbodies hread
    rw [List.zip_cons_cons, Program.attachBodies] at hok
    obtain ⟨⟨v₁, children⟩, hr, hok⟩ := bind_ok hok
    obtain ⟨u₁, hattached, hrest⟩ := bind_ok hok
    obtain ⟨t, hP, hranked, hreads⟩ := hread.1 _ _ _ _ h.tidy hr
    obtain ⟨u₂, hattach, hgrowing⟩ := h.attach_body hnd.1 hbodies.1 hranked hreads line text
    obtain rfl : u₁ = u₂ := Except.ok.inj (hattached.symm.trans hattach)
    obtain ⟨body', hkept, hall, hdone⟩ :=
      ih (Nat.succ.inj hlength) hread.2 hgrowing hnd.2 hbodies.2 hrest
    refine ⟨body', fun i hi => ?_, .cons ?_ hall, hdone⟩
    · rw [List.mem_cons, not_or] at hi
      exact (hkept i hi.2).trans (if_neg hi.1)
    · have hnot : input ∉ inputs := fun hm => hnd.1 (List.mem_append_left _ hm)
      have ht : body' input = t := (hkept input hnot).trans (if_pos rfl)
      rw [ht]
      exact hP

end Growing

/-! ## Expressions -/

/-- What was read as an expression is one that the source spells. -/
theorem Expr.of_read {r : Registry} (hr : r.Selected) {depth line : Nat} {source : List Char}
    {loose : List NodeId} (ht : Tidy .builtin w loose)
    (h : readExpressionUpTo r depth line source w = .ok (v, x)) :
    x = w.nextId ∧ ∃ e : Expr, e.SpelledBy source ∧ e.Valued ∧ e.Reads w loose v := by
  induction depth generalizing line source w v x loose with
  | zero => cases h
  | succ depth ih =>
    rw [readExpressionUpTo] at h
    split at h
    · cases h
    · next e b matched hfound =>
      obtain ⟨d, hd, hrecover⟩ := List.exists_of_findSome?_eq_some hfound
      rw [Registry.valueIdioms, List.mem_filter, Bool.and_eq_true] at hd
      obtain ⟨hmem, -, hrole⟩ := hd
      obtain ⟨k, rfl⟩ := hr.exists_kind hmem
      split at h
      · cases h
      · next w₁ id hmake =>
        obtain ⟨rfl, hnd, fields, hrecovers, hgrow⟩ :=
          growing_of_make ht hrecover (make_builtin hr hmake)
        have hfills := k.fills_of_recover hrecover
        have hmutation := hfills.mutation_none (k.isBranching_value hrole)
        have hbodies : e.bodies = [] := by
          rw [hfills.bodies, hmutation, k.statementInputs_value hrole]
        -- a value is recovered only from all of its text
        obtain ⟨_, _, _, rest, -, -, -, -, -, rfl, hrest⟩ := k.recover_some hrecover
        obtain rfl : rest = [] := by rwa [if_pos hrole] at hrest
        rw [List.length_nil, Nat.sub_zero, List.take_length] at hrecovers
        simp only [hmutation, hbodies] at hgrow hnd
        obtain ⟨u, hattach, h⟩ := bind_ok h
        cases h
        obtain ⟨operand, -, hspelled, hdone⟩ :=
          (hgrow (fun _ => .absent) fun _ => .done).of_attachAll
            (fun _ _ _ _ _ _ hu hok => ih hu hok) hnd
            (fun i hi => by rwa [hfills.values, hmutation] at hi) hattach
        exact ⟨rfl, .block k fields operand, ⟨hrole, e, hrecovers, hspelled⟩, hrole, hdone.reads⟩

/-! ## Units -/

mutual

/-- The lines of an item, from the first to the last. -/
def Program.Item.lines : Item → List (List Char)
  | .line _ text => [text]
  | .block items => Program.Item.linesAll items

/-- The lines of some items, from the first to the last. -/
def Program.Item.linesAll : List Item → List (List Char)
  | [] => []
  | item :: items => Program.Item.lines item ++ Program.Item.linesAll items

end

namespace Program

variable {items covered rest inner : List Item} {o : Options}

theorem Item.linesAll_eq (items : List Item) : linesAll items = items.flatMap lines := by
  induction items with
  | nil => rfl
  | cons item items ih => rw [linesAll, ih, List.flatMap_cons]

theorem Item.linesAll_append (items items' : List Item) :
    linesAll (items ++ items') = linesAll items ++ linesAll items' := by
  simp only [linesAll_eq, List.flatMap_append]

theorem Item.mem_lines_of_mem_blocks {l : List Char} (h : inner ∈ blocks items)
    (hl : l ∈ linesAll inner) : l ∈ linesAll items := by
  induction items with
  | nil => cases h
  | cons item items ih =>
    rw [linesAll, List.mem_append]
    cases item with
    | line number t => exact .inr (ih h)
    | block inner' =>
      rcases List.mem_cons.mp h with rfl | h
      · exact .inl hl
      · exact .inr (ih h)

theorem Item.mem_lines_of_mem_level {l : List Char} (h : l ∈ linesAll (level o items)) :
    l ∈ linesAll items := by
  rw [linesAll_eq, List.mem_flatMap] at h ⊢
  obtain ⟨i, hi, hl⟩ := h
  exact ⟨i, List.mem_of_mem_filter hi, hl⟩

theorem heightAll_level_le (o : Options) (items : List Item) :
    Item.heightAll (level o items) ≤ Item.heightAll items := by
  induction items with
  | nil => exact Nat.le_refl _
  | cons item items ih =>
    rw [level, List.filter_cons]
    split
    · exact Nat.max_le.mpr ⟨Nat.le_max_left _ _, Nat.le_trans ih (Nat.le_max_right _ _)⟩
    · exact Nat.le_trans ih (Nat.le_max_right _ _)

/-- What ends with a line at the front of a level is the text of the first items. -/
theorem spell_take {matched : List Char} (hclean : ∀ l ∈ Item.linesAll items, '\n' ∉ l)
    (hm : matched <+: spell items) (hlast : matched.getLast? = some '\n') :
    spell (items.take (matched.count '\n')) = matched := by
  induction items generalizing matched with
  | nil =>
    obtain rfl := List.prefix_nil.mp hm
    cases hlast
  | cons item items ih =>
    obtain ⟨t, ht, hspell⟩ : ∃ t, '\n' ∉ t ∧
        ∀ items, spell (item :: items) = t ++ '\n' :: spell items := by
      cases item with
      | line number t => exact ⟨t, hclean t List.mem_cons_self, spell_line number t⟩
      | block inner => exact ⟨blockMark, by decide, spell_block inner⟩
    -- the first line end in `matched` is that of the first item
    have hfront : t ++ ['\n'] <+: matched := by
      rw [hspell] at hm
      have hfirst : t ++ ['\n'] <+: t ++ '\n' :: spell items := ⟨spell items, by simp⟩
      rcases List.prefix_or_prefix_of_prefix hfirst hm with h | h
      · exact h
      · rcases List.prefix_concat_iff.mp h with rfl | h
        · exact List.prefix_rfl
        · exact absurd (h.subset (List.mem_of_getLast? hlast)) ht
    obtain ⟨more, rfl⟩ := hfront
    have hmore : more <+: spell items := by
      rw [hspell, List.append_assoc] at hm
      exact (List.cons_prefix_cons.mp ((List.prefix_append_right_inj t).mp hm)).2
    have hcount : (t ++ ['\n'] ++ more).count '\n' = more.count '\n' + 1 := by
      rw [List.count_append, List.count_append, List.count_eq_zero_of_not_mem ht,
        List.count_singleton_self]
      omega
    rw [hcount, List.take_succ_cons, hspell, List.append_assoc]
    refine congrArg (t ++ '\n' :: ·) ?_
    cases more with
    | nil => rfl
    | cons c more =>
      refine ih (fun l hl => hclean l (List.mem_append_right _ hl)) hmore ?_
      rwa [List.getLast?_append_of_ne_nil _ (List.cons_ne_nil _ _)] at hlast

/-- What starts a unit is no value. -/
theorem isValue_of_role {role : Role} {top : Bool}
    (h : role = .statement ∨ top = true ∧ role = .root) : role.isValue = false := by
  rcases h with rfl | ⟨-, rfl⟩ <;> rfl

/-- A unit takes the items whose line ends were matched: one at least, and no more than there are.
The blocks among them are as many as the inputs that they fill. -/
theorem exists_of_matchUnit {r : Registry} {top : Bool} {m : Match}
    (h : matchUnit r top items = some m) : ∃ d ∈ r.statementIdioms top, ∃ matched : List Char,
      d.recover (spell items) = some (m.extraction, m.blueprint, matched) ∧
      0 < matched.count '\n' ∧ matched.count '\n' ≤ items.length ∧
      m.covered = items.take (matched.count '\n') ∧
      (blocks m.covered).length = m.extraction.bodies.length := by
  obtain ⟨d, hd, hone⟩ := List.exists_of_findSome?_eq_some h
  unfold matchOne at hone
  simp only [Option.bind_eq_bind, Option.bind_eq_some_iff, Option.guard_eq_some',
    Bool.and_eq_true, decide_eq_true_eq, beq_iff_eq] at hone
  obtain ⟨⟨e, b, matched⟩, hrecover, -, ⟨hpos, hle⟩, -, hblocks, hm⟩ := hone
  obtain rfl := Option.some.inj hm
  exact ⟨d, hd, matched, hrecover, hpos, hle, rfl, hblocks⟩

/-- A unit is what the idiom of some kind took from the front of a level. -/
theorem matchUnit_some {r : Registry} (hr : r.Selected) {top : Bool} {m : Match}
    (hclean : ∀ l ∈ Item.linesAll items, '\n' ∉ l) (h : matchUnit r top items = some m) :
    ∃ k : Kind, (k.definition.shape.role = .statement ∨
      top = true ∧ k.definition.shape.role = .root) ∧
      k.definition.recover (spell items) = some (m.extraction, m.blueprint, spell m.covered) ∧
      (blocks m.covered).length = m.extraction.bodies.length ∧ m.covered <+: items := by
  obtain ⟨d, hd, matched, hrecover, -, -, hcovered, hblocks⟩ := exists_of_matchUnit h
  rw [Registry.statementIdioms, List.mem_filter] at hd
  obtain ⟨hmem, hrole⟩ := hd
  obtain ⟨k, rfl⟩ := hr.exists_kind hmem
  replace hrole : k.definition.shape.role = .statement ∨
      top = true ∧ k.definition.shape.role = .root := by
    simpa using (Bool.and_eq_true_iff.mp hrole).2
  obtain ⟨_, _, _, rest, -, -, -, -, -, hmatched, hlast⟩ := k.recover_some hrecover
  rw [isValue_of_role hrole, if_neg Bool.false_ne_true] at hlast
  refine ⟨k, hrole, ?_, hblocks, hcovered ▸ List.take_prefix _ _⟩
  rw [hcovered, spell_take hclean (hmatched ▸ List.take_prefix _ _) hlast]
  exact hrecover

end Program

/-- The node of a unit has what was read in all its inputs. -/
theorem Growing.of_readUnit {r : Registry} (hselected : r.Selected) {k : Kind} {m : Match}
    {loose : List NodeId} {cs matched : List Char}
    {readBlock : List Item → Workspace → Except Failure (Workspace × List NodeId)}
    {P : List Item → Script → Prop} (ht : Tidy .builtin w loose)
    (hr : k.definition.recover cs = some (m.extraction, m.blueprint, matched))
    (hlength : (blocks m.covered).length = m.extraction.bodies.length)
    (hread : ∀ inner ∈ blocks m.covered, ∀ u ls u' ids, Tidy .builtin u ls →
      readBlock inner u = .ok (u', ids) →
      ∃ t : Script, P inner t ∧ t.Ranked false ∧ t.Reads u ls u' ids)
    (h : readUnit r readBlock m w = .ok (v, x)) :
    x = w.nextId ∧ ∃ fields value body lo, k.Recovers m.extraction cs matched fields ∧
      (∀ s ∈ m.extraction.values, (value s.1).SpelledBy s.2) ∧
      List.Forall₂ (fun i inner => P inner (body i)) m.extraction.bodies (blocks m.covered) ∧
      Growing ⟨k, fields, m.extraction.mutation, value, body⟩ w loose lo [] v := by
  have hfills := k.fills_of_recover hr
  rw [readUnit] at h
  generalize (m.covered.head?.map Item.firstLine).getD (0, []) = first at h
  simp only at h
  split at h
  · cases h
  · next w₁ id hmake =>
    obtain ⟨rfl, hnd, fields, hrecovers, hgrow⟩ :=
      growing_of_make ht hr (make_builtin hselected hmake)
    obtain ⟨u, hattach, h⟩ := bind_ok h
    obtain ⟨u', hbodies, h⟩ := bind_ok h
    cases h
    obtain ⟨value, -, hvalues, hgrowing⟩ :=
      (hgrow (fun _ => .absent) fun _ => .done).of_attachAll
        (P := fun source e => e.SpelledBy source)
        (fun _ _ _ _ _ _ hu hok => Expr.of_read hselected hu hok) hnd
        (fun i hi => by rwa [hfills.values] at hi) hattach
    replace hnd := (List.nodup_append'.mp hnd).2.1
    rw [← List.append_nil m.extraction.bodies] at hgrowing hnd
    obtain ⟨body, -, hblocks, hdone⟩ := hgrowing.of_attachBodies hlength hread hnd
      (fun i hi => by rwa [hfills.bodies] at hi) hbodies
    exact ⟨rfl, fields, value, body, _, hrecovers, hvalues, hblocks, hdone⟩

/-! ## Levels -/

/-- What was read from the units of a level is a sequence that the level spells. -/
theorem Script.of_readUnits {r : Registry} (hr : r.Selected) {o : Options} {top : Bool}
    {bound : Nat} {items : List Item}
    {readBlock : List Item → Workspace → Except Failure (Workspace × List NodeId)}
    {loose ids : List NodeId} (hclean : ∀ l ∈ Item.linesAll items, '\n' ∉ l)
    (hread : ∀ inner ∈ blocks items, ∀ u ls u' ids, Tidy .builtin u ls →
      readBlock inner u = .ok (u', ids) →
      ∃ t : Script, t.SpelledBy o false (level o inner) ∧ t.Reads u ls u' ids)
    (ht : Tidy .builtin w loose)
    (h : readUnits r top readBlock bound items w = .ok (v, ids)) :
    ∃ t : Script, t.SpelledBy o top items ∧ t.Reads w loose v ids := by
  induction bound generalizing items w v ids loose with
  | zero =>
    cases items with
    | nil =>
      cases h
      exact ⟨.done, rfl, .refl w, ht, nofun, .nil, rfl⟩
    | cons item items => cases h
  | succ bound ih =>
    cases items with
    | nil =>
      cases h
      exact ⟨.done, rfl, .refl w, ht, nofun, .nil, rfl⟩
    | cons item items =>
      rw [readUnits] at h
      split at h
      · cases h
      · next m hmatch =>
        obtain ⟨k, hrole, hrecover, hlength, rest, hitems⟩ := matchUnit_some hr hclean hmatch
        obtain ⟨⟨u, x⟩, hunit, h⟩ := bind_ok h
        obtain ⟨⟨v₁, ids₁⟩, hunits, h⟩ := bind_ok h
        cases h
        -- the level is what the unit covers and the rest, which the next units are read from
        rw [← hitems] at hclean hread hrecover hunits ⊢
        rw [Item.linesAll_append, List.forall_mem_append] at hclean
        rw [blocks_append, List.forall_mem_append] at hread
        rw [List.drop_left] at hunits
        obtain ⟨rfl, fields, value, body, lo, hrecovers, hvalues, hblocks, hgrowing⟩ :=
          Growing.of_readUnit (P := fun inner t => t.SpelledBy o false (level o inner)) hr ht
            hrecover hlength (fun inner hinner u ls u' ids hu hb => by
              obtain ⟨t, ht, hreads⟩ := hread.1 inner hinner u ls u' ids hu hb
              exact ⟨t, ht, ht.ranked, hreads⟩) hunit
        obtain ⟨next, hnext, hreads⟩ := ih hclean.2 hread.2 hgrowing.tidy hunits
        exact ⟨.block k fields m.extraction.mutation value body next,
          ⟨hrole, m.extraction, m.covered, rest, rfl, hrecovers, rfl, hvalues, hblocks, hnext⟩,
          hgrowing.reads_block hreads hnext.ranked⟩

/-- What was read from a level is a sequence that the level spells. -/
theorem Script.of_readLevel {r : Registry} (hr : r.Selected) {o : Options} {top : Bool}
    {depth : Nat} {items : List Item} {loose ids : List NodeId}
    (hclean : ∀ l ∈ Item.linesAll items, '\n' ∉ l) (hdepth : Item.heightAll items ≤ depth)
    (ht : Tidy .builtin w loose) (h : readLevel r o depth top items w = .ok (v, ids)) :
    ∃ t : Script, t.SpelledBy o top (level o items) ∧ t.Reads w loose v ids := by
  induction depth generalizing top items w v loose ids with
  | zero =>
    rw [readLevel_eq] at h
    refine of_readUnits hr (fun l hl => hclean l (Item.mem_lines_of_mem_level hl))
      (fun inner hinner => ?_) ht h
    have hlt := heightAll_lt_of_mem_blocks hinner
    have hle := heightAll_level_le o items
    omega
  | succ depth ih =>
    rw [readLevel_eq] at h
    refine of_readUnits hr (fun l hl => hclean l (Item.mem_lines_of_mem_level hl))
      (fun inner hinner u ls u' ids hu hb => ih (fun l hl => ?_) ?_ hu hb) ht h
    · exact hclean l (Item.mem_lines_of_mem_level (Item.mem_lines_of_mem_blocks hinner hl))
    · have hlt := heightAll_lt_of_mem_blocks hinner
      have hle := heightAll_level_le o items
      omega

/-- What was built from an outline is a program that the outline spells. -/
theorem Script.of_build_selected {s : Setup} {items : List Item} (hr : s.registry.Selected)
    (hclean : ∀ l ∈ Item.linesAll items, '\n' ∉ l) (h : build s items = .ok w) :
    ∃ t : Script, t.SpelledBy s.options true (level s.options items) ∧ Tidy .builtin w ∧
      t.Stands w 0 w.nextId w.roots := by
  rw [build] at h
  split at h
  · next v ids hlevel =>
    obtain rfl := Except.ok.inj h
    obtain ⟨t, hspelled, hreads⟩ := of_readLevel hr hclean (Nat.le_refl _) Tidy.empty hlevel
    exact ⟨t, hspelled, hreads.pushed⟩
  · cases h

theorem Script.of_build {s : Setup} {items : List Item} (hr : s.registry = .builtin)
    (hclean : ∀ l ∈ Item.linesAll items, '\n' ∉ l) (h : build s items = .ok w) :
    ∃ t : Script, t.SpelledBy s.options true (level s.options items) ∧ Tidy .builtin w ∧
      t.Stands w 0 w.nextId w.roots :=
  of_build_selected (hr ▸ Registry.selected_builtin) hclean h

end BlockText

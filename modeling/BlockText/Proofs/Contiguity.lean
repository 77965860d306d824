import BlockText.Proofs.Accounting

/-!
# Where placeholders may stand

The reader leaves the placeholders of a level out before it looks for units. So the items of a unit
follow each other among the items that count, and in the level itself a placeholder may stand
between them: after a header and before its block, before an `else`, before the line that registers
a handler. A program with a placeholder in such a place is accepted like any other. The main result
says which places these are: a level is its units, with placeholders only between them, if and only
if no placeholder stands before an item that goes on with a unit. The lines of a literal that runs
over the end of its line are the one thing that such a condition on the items does not see.
-/

namespace BlockText

open Workspace Program Text Catalogue

namespace Program

variable {o : Options} {r : Registry} {top : Bool} {items level : List Item}

/-! ## Units and levels -/

/-- The items that at most `bound` units of a level cover, unit by unit. -/
def unitsUpTo (r : Registry) (top : Bool) : Nat → List Item → List (List Item)
  | _, [] => []
  | 0, _ :: _ => []
  | bound + 1, item :: items =>
    match matchUnit r top (item :: items) with
    | none => []
    | some m => m.covered :: unitsUpTo r top bound ((item :: items).drop m.covered.length)

theorem unitsUpTo_cons {bound : Nat} {item : Item} {m : Match}
    (h : matchUnit r top (item :: items) = some m) : unitsUpTo r top (bound + 1) (item :: items) =
      m.covered :: unitsUpTo r top bound ((item :: items).drop m.covered.length) := by
  simp only [unitsUpTo, h]

/-- The items that the units of a level cover, unit by unit. -/
def units (r : Registry) (top : Bool) (items : List Item) : List (List Item) :=
  unitsUpTo r top items.length items

/-- A level is some units one after the other, with placeholders between them. -/
inductive Tiled (o : Options) : List Item → List (List Item) → Prop where
  | nil : Tiled o [] []
  | placeholder {i : Item} {items : List Item} {us : List (List Item)} (hi : isNoop o i = true)
      (h : Tiled o items us) : Tiled o (i :: items) us
  | unit {items : List Item} {us : List (List Item)} (u : List Item) (h : Tiled o items us) :
      Tiled o (u ++ items) (u :: us)

/-- The units of a level stand in it without a gap, and no block stands after a placeholder. -/
structure Adjacent (o : Options) (top : Bool) (level : List Item) : Prop where
  tiled : Tiled o level (units .builtin top (Program.level o level))
  blocks : ∀ i inner, [i, .block inner] <:+: level → isNoop o i = false

/-! ## Tilings -/

/-- What counts and starts a tiled level is the start of a unit. -/
theorem Tiled.head {us : List (List Item)} {j : Item} (h : Tiled o (j :: items) us)
    (hne : ∀ u ∈ us, u ≠ []) (hj : isNoop o j = false) : ∃ rest, j :: rest ∈ us := by
  generalize hlevel : j :: items = level at h
  cases h with
  | nil => cases hlevel
  | placeholder hi _ =>
    obtain ⟨rfl, -⟩ := List.cons.inj hlevel
    rw [hj] at hi
    cases hi
  | unit u _ =>
    cases u with
    | nil => exact absurd rfl (hne [] List.mem_cons_self)
    | cons i u =>
      obtain ⟨rfl, -⟩ := List.cons.inj hlevel
      exact ⟨u, List.mem_cons_self⟩

/-- What starts with none of the first items stands after them. -/
theorem infix_of_append {i : Item} {t u : List Item} (h : i :: t <:+: u ++ items) (hi : i ∉ u) :
    i :: t <:+: items := by
  induction u with
  | nil => exact h
  | cons x u ih =>
    rw [List.mem_cons, not_or] at hi
    rcases List.infix_cons_iff.mp h with hfront | h
    · exact absurd (List.cons_prefix_cons.mp hfront).1 hi.1
    · exact ih h hi.2

/-- In a tiled level, what counts and stands after a placeholder is the start of a unit. -/
theorem Tiled.after {us : List (List Item)} (h : Tiled o level us) (hne : ∀ u ∈ us, u ≠ [])
    (hcount : ∀ u ∈ us, ∀ i ∈ u, isNoop o i = false) {i j : Item} (hij : [i, j] <:+: level)
    (hi : isNoop o i = true) (hj : isNoop o j = false) : ∃ rest, j :: rest ∈ us := by
  induction h with
  | nil => cases List.infix_nil.mp hij
  | @placeholder x items us _ h ih =>
    rcases List.infix_cons_iff.mp hij with hfront | hij
    · obtain ⟨t, ht⟩ := (List.cons_prefix_cons.mp hfront).2
      rw [← ht] at h
      exact h.head hne hj
    · exact ih hne hcount hij
  | @unit items us u _ ih =>
    rw [List.forall_mem_cons] at hne hcount
    have hout : i ∉ u := by
      intro hmem
      rw [hcount.1 i hmem] at hi
      cases hi
    obtain ⟨rest, hmem⟩ := ih hne.2 hcount.2 (infix_of_append hij hout)
    exact ⟨rest, List.mem_cons_of_mem _ hmem⟩

/-- No placeholder stands before an item that goes on with a unit. -/
def Unbroken (o : Options) (level : List Item) : Prop :=
  ∀ i j, [i, j] <:+: level → isNoop o i = true → isNoop o j = false → ¬ Continues j.shown

theorem Unbroken.tail {i : Item} (h : Unbroken o (i :: items)) : Unbroken o items :=
  fun x y hxy => h x y (hxy.trans (List.infix_cons List.infix_rfl))

theorem unbroken_of_length (h : level.length < 2) : Unbroken o level := by
  intro i j hij
  have hle : 2 ≤ level.length := hij.length_le
  omega

theorem unbroken_cons_cons {i j : Item} : Unbroken o (i :: j :: items) ↔
    (isNoop o i = true → isNoop o j = false → ¬ Continues j.shown) ∧ Unbroken o (j :: items) := by
  constructor
  · exact fun h => ⟨h i j ⟨[], items, rfl⟩, h.tail⟩
  · rintro ⟨hfirst, hrest⟩ x y hxy
    rcases List.infix_cons_iff.mp hxy with hfront | hxy
    · obtain ⟨rfl, hnext⟩ := List.cons_prefix_cons.mp hfront
      obtain ⟨rfl, -⟩ := List.cons_prefix_cons.mp hnext
      exact hfirst
    · exact hrest x y hxy

/-- Whether a level is unbroken is seen pair by pair. -/
instance decidableUnbroken (o : Options) : (level : List Item) → Decidable (Unbroken o level)
  | [] => .isTrue (unbroken_of_length (by decide))
  | [_] => .isTrue (unbroken_of_length (by simp))
  | _ :: j :: items =>
    have := decidableUnbroken o (j :: items)
    decidable_of_iff _ unbroken_cons_cons.symm

theorem level_cons {i : Item} (hi : isNoop o i = false) (items : List Item) :
    Program.level o (i :: items) = i :: Program.level o items := by
  rw [Program.level, List.filter_cons_of_pos (by simp [hi])]
  rfl

theorem level_placeholder {i : Item} (hi : isNoop o i = true) (items : List Item) :
    Program.level o (i :: items) = Program.level o items := by
  rw [Program.level, List.filter_cons_of_neg (by simp [hi])]
  rfl

/-- The first item that counts stands after a placeholder if one stands before it. -/
theorem exists_placeholder {j : Item} {rest : List Item} (h : Program.level o level = j :: rest)
    (hfirst : ∀ i ∈ level.head?, isNoop o i = true) :
    ∃ i, isNoop o i = true ∧ [i, j] <:+: level := by
  induction level with
  | nil => cases h
  | cons i items ih =>
    have hi : isNoop o i = true := hfirst i rfl
    have hitems : Program.level o items = j :: rest := (level_placeholder hi items).symm.trans h
    by_cases hnext : ∀ x ∈ items.head?, isNoop o x = true
    · obtain ⟨x, hx, hxj⟩ := ih hitems hnext
      exact ⟨x, hx, hxj.trans (List.infix_cons List.infix_rfl)⟩
    · cases items with
      | nil => cases hitems
      | cons x items =>
        have hx : isNoop o x = false := by simpa using hnext
        rw [level_cons hx] at hitems
        obtain ⟨rfl, -⟩ := List.cons.inj hitems
        exact ⟨i, hi, ⟨[], items, rfl⟩⟩

/-- Before an item that goes on with a unit stands one that counts. -/
theorem Unbroken.head {j : Item} {rest : List Item} (h : Unbroken o level)
    (hlevel : Program.level o level = j :: rest) (hj : Continues j.shown) :
    ∃ items, level = j :: items := by
  cases level with
  | nil => cases hlevel
  | cons i items =>
    cases hi : isNoop o i with
    | true =>
      obtain ⟨x, hx, hxj⟩ := exists_placeholder hlevel (by simpa using hi)
      have hcounts : isNoop o j = false :=
        level_noop o (i :: items) j (hlevel ▸ List.mem_cons_self)
      exact absurd hj (h x j hxj hx hcounts)
    | false =>
      rw [level_cons hi] at hlevel
      obtain ⟨rfl, -⟩ := List.cons.inj hlevel
      exact ⟨items, rfl⟩

/-- An unbroken level starts with the items that go on with a unit, and is an unbroken level after
them. -/
theorem Unbroken.split {t rest : List Item} (h : Unbroken o level)
    (hlevel : Program.level o level = t ++ rest) (ht : ∀ i ∈ t, Continues i.shown) :
    ∃ items, level = t ++ items ∧ Unbroken o items ∧ Program.level o items = rest := by
  induction t generalizing level with
  | nil => exact ⟨level, rfl, h, hlevel⟩
  | cons j t ih =>
    rw [List.forall_mem_cons] at ht
    obtain ⟨items, rfl⟩ := h.head hlevel ht.1
    have hj : isNoop o j = false := by
      apply level_noop o (j :: items)
      rw [hlevel]
      exact List.mem_cons_self
    rw [level_cons hj, List.cons_append] at hlevel
    obtain ⟨items', rfl, hunbroken, hrest⟩ := ih h.tail (List.cons.inj hlevel).2 ht.2
    exact ⟨items', rfl, hunbroken, hrest⟩

/-- An unbroken level is tiled by its units. -/
theorem Unbroken.tiled {us : List (List Item)} (h : Unbroken o level)
    (hflat : us.flatten = Program.level o level) (hne : ∀ u ∈ us, u ≠ [])
    (htail : ∀ u ∈ us, ∀ i ∈ u.tail, Continues i.shown) : Tiled o level us := by
  induction us generalizing level with
  | nil =>
    -- nothing counts, so all are placeholders
    induction level with
    | nil => exact .nil
    | cons i items ih =>
      cases hi : isNoop o i with
      | true =>
        rw [level_placeholder hi] at hflat
        exact .placeholder hi (ih h.tail hflat)
      | false =>
        rw [level_cons hi] at hflat
        cases hflat
  | cons u us ih =>
    rw [List.forall_mem_cons] at hne htail
    obtain ⟨x, t, rfl⟩ := List.exists_cons_of_ne_nil hne.1
    induction level with
    | nil => cases hflat
    | cons i items ih' =>
      cases hi : isNoop o i with
      | true =>
        rw [level_placeholder hi] at hflat
        exact .placeholder hi (ih' h.tail hflat)
      | false =>
        rw [level_cons hi, List.flatten_cons, List.cons_append] at hflat
        obtain ⟨rfl, hafter⟩ := List.cons.inj hflat
        obtain ⟨rest, rfl, hunbroken, hrest⟩ := h.tail.split hafter.symm htail.1
        exact .unit (x :: t) (ih hunbroken hrest.symm hne.2 htail.2)

end Program

/-! ## The first item of a unit and the others -/

section Starts

variable {k : Kind} {cs matched : List Char} {e : Extraction} {b : Blueprint}

open Pattern in
/-- What starts a unit does not go on with one. -/
theorem not_continues_of_recover (hrole : k.definition.shape.role.isValue = false)
    (h : k.definition.recover cs = some (e, b, matched)) : ¬ Continues cs := by
  obtain ⟨idiom, -, c, rest, hi, -, hs, -, -, -, -⟩ := k.recover_some h
  rintro ⟨o, ho, hstart⟩
  have hopening := startsWith_opening hs
  cases k with
  | ifElseElseIf | ifElseElse => cases hi
  | mathNumber | text | logicBoolean | logicCompare | logicOperation | logicNegate
  | mathArithmetic | mathRandom | buttonIsPressed | temperature | acceleration | variablesGet =>
    cases hrole
  | setVariable | changeVariable =>
    -- a name that is assigned to is no keyword, so no branch starts like this
    have hno : ∀ o ∈ furtherStarts, startsName o = false := by decide
    obtain ⟨name, value, hname, rfl⟩ := Kind.assigned_of_recover rfl h
    exact not_prefix_name (hno o ho) hname _ hstart
  | _ =>
    obtain rfl := Option.some.inj hi
    exact (by decide : ∀ o ∈ furtherStarts, Apart _ o) o ho |>.not_startsWith hopening hstart

/-- The rows of a clause after its first line go on with the unit. -/
theorem Clause.continues {rows : List Row} (h : Clause k e rows) :
    ∀ l ∈ (rows.flatMap Row.shown).tail, Continues l := by
  have hmark : Continues blockMark := by decide
  have hbody (r : Row) : ∀ l ∈ (r.body.map fun _ => blockMark).toList, Continues l := by
    intro l hl
    cases hr : r.body with
    | none =>
      rw [hr] at hl
      cases hl
    | some input =>
      rw [hr] at hl
      rw [List.mem_singleton.mp hl]
      exact hmark
  cases rows with
  | nil => simp
  | cons r rows =>
    intro l hl
    rw [List.flatMap_cons, Row.shown, List.cons_append, List.tail_cons] at hl
    rcases List.mem_append.mp hl with hl | hl
    · exact hbody r l hl
    · obtain ⟨r', hr', hl⟩ := List.mem_flatMap.mp hl
      rcases List.mem_cons.mp hl with rfl | hl
      · exact h.further r' hr'
      · exact hbody r' l hl

/-- The items of a unit after its first go on with it, if no literal runs over the end of a line. -/
theorem continues_of_recover {covered : List Item}
    (hrole : k.definition.shape.role.isValue = false)
    (h : k.definition.recover cs = some (e, b, spell covered))
    (hclean : ∀ l ∈ covered.map Item.shown, '\n' ∉ l)
    (hblocks : (blocks covered).length = e.bodies.length) (hclosed : ∀ l ∈ own covered, Closed l) :
    ∀ i ∈ covered.tail, Continues i.shown := by
  by_cases hk : k = .showString
  · subst hk
    obtain ⟨t, hspell, ht⟩ := Kind.literal_of_recover h
    have hfills := Kind.fills_of_recover h
    rw [hfills.bodies, hfills.mutation_none rfl] at hblocks
    cases covered with
    | nil => simp
    | cons item rest =>
      cases item with
      | block inner => cases hblocks
      | line number l =>
        have hl : '\n' ∉ l := hclean l List.mem_cons_self
        have hrest : rest = [] :=
          (closed_iff_of_literal hspell hl ht).mp (hclosed l List.mem_cons_self)
        simp [hrest]
  · obtain ⟨rows, hspell, hclause⟩ := k.clause_of_recover hrole hk h
    intro i hi
    apply hclause.continues
    rw [← hclause.shown_eq hspell hclean, ← List.map_tail]
    exact List.mem_map_of_mem hi

end Starts

namespace Program

variable {o : Options} {top : Bool} {items level : List Item} {w v : Workspace} {ids : List NodeId}

/-- What a unit looks like: its first item does not go on with a unit, and the others do, if no
literal runs over the end of a line. -/
structure IsUnit (u : List Item) : Prop where
  head : ∃ i rest, u = i :: rest ∧ ¬ Continues i.shown
  tail : (∀ l ∈ own u, Closed l) → ∀ i ∈ u.tail, Continues i.shown

theorem IsUnit.ne_nil {u : List Item} (h : IsUnit u) : u ≠ [] := by
  obtain ⟨i, rest, rfl, -⟩ := h.head
  exact List.cons_ne_nil i rest

theorem isUnit_of_matchUnit {m : Match} (hclean : ∀ l ∈ Item.linesAll items, '\n' ∉ l)
    (h : matchUnit .builtin top items = some m) : IsUnit m.covered := by
  obtain ⟨k, hrole, hrecover, hlength, rest, hitems⟩ :=
    matchUnit_some Registry.selected_builtin hclean h
  replace hrole := isValue_of_role hrole
  rw [← hitems, Item.linesAll_append, List.forall_mem_append] at hclean
  constructor
  · have hstart := not_continues_of_recover hrole hrecover
    cases hcovered : m.covered with
    | nil =>
      -- what was matched ends with a line
      obtain ⟨_, _, _, _, -, -, -, -, -, -, hlast⟩ := k.recover_some hrecover
      rw [hrole, hcovered] at hlast
      cases hlast
    | cons i covered =>
      refine ⟨i, covered, rfl, fun hi => hstart ?_⟩
      rw [← hitems, hcovered, spell_eq_unlines]
      show Continues (i.shown ++ ['\n'] ++ unlines _)
      rw [List.append_assoc]
      exact continues_append hi _
  · exact continues_of_recover hrole hrecover (newline_shown hclean.1) hlength

theorem isUnit_of_mem (top : Bool) (bound : Nat)
    (hclean : ∀ l ∈ Item.linesAll items, '\n' ∉ l) :
    ∀ u ∈ unitsUpTo .builtin top bound items, IsUnit u := by
  induction bound generalizing items with
  | zero => cases items <;> simp [unitsUpTo]
  | succ bound ih =>
    cases items with
    | nil => simp [unitsUpTo]
    | cons item items =>
      rw [unitsUpTo]
      split
      · simp
      · next m hmatch =>
        rw [List.forall_mem_cons]
        refine ⟨isUnit_of_matchUnit hclean hmatch, ih fun l hl => hclean l ?_⟩
        rw [Item.linesAll_eq, List.mem_flatMap] at hl ⊢
        obtain ⟨i, hi, hl⟩ := hl
        exact ⟨i, List.mem_of_mem_drop hi, hl⟩

/-! ## Levels that were read -/

/-- Every block that was attached was read. -/
theorem read_of_attachBodies
    {readBlock : List Item → Workspace → Except Failure (Workspace × List NodeId)} {line : Nat}
    {text : List Char} {parent : NodeId} {inputs : List String} {inners : List (List Item)}
    (hlength : inners.length = inputs.length)
    (h : attachBodies readBlock line text parent (inputs.zip inners) w = .ok v) :
    ∀ inner ∈ inners, ∃ u p, readBlock inner u = .ok p := by
  induction inners generalizing inputs w with
  | nil => simp
  | cons inner inners ih =>
    cases inputs with
    | nil => cases hlength
    | cons input inputs =>
      rw [List.zip_cons_cons, attachBodies] at h
      obtain ⟨p, hread, h⟩ := bind_ok h
      obtain ⟨_, -, h⟩ := bind_ok h
      rw [List.forall_mem_cons]
      exact ⟨⟨w, p, hread⟩, ih (Nat.succ.inj hlength) h⟩

/-- The units of a level that was read cover it, and all blocks in it were read. -/
theorem units_of_readUnits {bound : Nat}
    {readBlock : List Item → Workspace → Except Failure (Workspace × List NodeId)}
    (hclean : ∀ l ∈ Item.linesAll items, '\n' ∉ l)
    (h : readUnits .builtin top readBlock bound items w = .ok (v, ids)) :
    (unitsUpTo .builtin top bound items).flatten = items ∧
      ∀ inner ∈ blocks items, ∃ u p, readBlock inner u = .ok p := by
  induction bound generalizing items w v ids with
  | zero =>
    cases items with
    | nil => simp [unitsUpTo, blocks]
    | cons item items => cases h
  | succ bound ih =>
    cases items with
    | nil => simp [unitsUpTo, blocks]
    | cons item items =>
      rw [readUnits] at h
      cases hmatch : matchUnit .builtin top (item :: items) with
      | none =>
        simp only [hmatch] at h
        cases h
      | some m =>
        simp only [hmatch] at h
        obtain ⟨k, -, -, hlength, rest, hitems⟩ :=
          matchUnit_some Registry.selected_builtin hclean hmatch
        obtain ⟨⟨u, x⟩, hunit, h⟩ := bind_ok h
        obtain ⟨⟨v', ids'⟩, hunits, -⟩ := bind_ok h
        rw [unitsUpTo_cons hmatch]
        rw [← hitems] at hclean hunits ⊢
        rw [Item.linesAll_append, List.forall_mem_append] at hclean
        rw [List.drop_left] at hunits
        obtain ⟨hflat, hrest⟩ := ih hclean.2 hunits
        rw [List.drop_left, List.flatten_cons, hflat, blocks_append, List.forall_mem_append]
        refine ⟨rfl, ?_, hrest⟩
        -- the blocks of the unit are those of its bodies
        rw [readUnit] at hunit
        generalize (m.covered.head?.map Item.firstLine).getD (0, []) = first at hunit
        simp only at hunit
        split at hunit
        · cases hunit
        · obtain ⟨_, -, hunit⟩ := bind_ok hunit
          obtain ⟨_, hbodies, -⟩ := bind_ok hunit
          exact read_of_attachBodies hlength hbodies

theorem mem_blocks {inner : List Item} (h : .block inner ∈ items) : inner ∈ blocks items := by
  induction items with
  | nil => cases h
  | cons item items ih =>
    rcases List.mem_cons.mp h with rfl | hrest
    · exact List.mem_cons_self
    · cases item with
      | line number t => exact ih hrest
      | block inner' => exact List.mem_cons_of_mem _ (ih hrest)

/-- If the top of an outline was read, then so were all its levels. -/
theorem IsLevel.read {outline : List Item} (h : IsLevel outline top level)
    (hclean : ∀ l ∈ Item.linesAll outline, '\n' ∉ l)
    (hread : readLevel .builtin o (Item.heightAll outline) true outline w = .ok (v, ids)) :
    (∀ l ∈ Item.linesAll level, '\n' ∉ l) ∧ ∃ depth u p, Item.heightAll level ≤ depth ∧
      readLevel .builtin o depth top level u = .ok p := by
  induction h with
  | top => exact ⟨hclean, _, w, _, Nat.le_refl _, hread⟩
  | @block top level inner _ hmem ih =>
    obtain ⟨hlines, depth, u, ⟨v', ids'⟩, hdepth, hlevel⟩ := ih
    have hcounts : .block inner ∈ Program.level o level := List.mem_filter.mpr ⟨hmem, rfl⟩
    have hinner := mem_blocks hcounts
    have hlt := heightAll_lt_of_mem_blocks hinner
    have hle := heightAll_level_le o level
    obtain ⟨d, rfl⟩ : ∃ d, depth = d + 1 := ⟨depth - 1, by omega⟩
    rw [readLevel_eq] at hlevel
    obtain ⟨-, hblocks⟩ :=
      units_of_readUnits (fun l hl => hlines l (Item.mem_lines_of_mem_level hl)) hlevel
    obtain ⟨u', p, hp⟩ := hblocks inner hinner
    refine ⟨fun l hl => ?_, d, u', p, by omega, hp⟩
    exact hlines l (Item.mem_lines_of_mem_level (Item.mem_lines_of_mem_blocks hinner hl))

section Levels

variable (hflat : (units .builtin top (Program.level o level)).flatten = Program.level o level)
  (hunits : ∀ u ∈ units .builtin top (Program.level o level), IsUnit u)

include hflat

theorem mem_level_of_mem_units {u : List Item}
    (hu : u ∈ units .builtin top (Program.level o level)) :
    ∀ i ∈ u, i ∈ Program.level o level := by
  intro i hi
  rw [← hflat]
  exact List.mem_flatten_of_mem hu hi

include hunits

/-- Where units are adjacent, only the start of a unit stands after a placeholder. -/
theorem Adjacent.unbroken (h : Adjacent o top level) : Unbroken o level := by
  intro i j hij hi hj
  have hne : ∀ u ∈ units .builtin top (Program.level o level), u ≠ [] :=
    fun u hu => (hunits u hu).ne_nil
  obtain ⟨rest, hu⟩ := h.tiled.after hne
    (fun u hu x hx => level_noop o level x (mem_level_of_mem_units hflat hu x hx)) hij hi hj
  obtain ⟨j', rest', he, hj'⟩ := (hunits _ hu).head
  rw [(List.cons.inj he).1]
  exact hj'

/-- The units of an unbroken level are adjacent, if all its lines are closed. -/
theorem Unbroken.adjacent (h : Unbroken o level)
    (hclosed : ∀ l ∈ own (Program.level o level), Closed l) : Adjacent o top level where
  tiled := by
    apply h.tiled hflat fun u hu => (hunits u hu).ne_nil
    intro u hu
    apply (hunits u hu).tail
    intro l hl
    obtain ⟨number, hline⟩ := mem_own.mp hl
    exact hclosed l (mem_own.mpr ⟨number, mem_level_of_mem_units hflat hu _ hline⟩)
  blocks i inner hi := by
    have hmark : Continues blockMark := by decide
    rw [← Bool.not_eq_true]
    exact fun hnoop => h i (.block inner) hi hnoop rfl hmark

end Levels

/-- In an accepted program the units of every level cover the items that count, in order. If the
items of each unit are adjacent in the level, with no placeholder between them, then no placeholder
stands before a block, a further branch of a conditional or the line that registers a handler; and
this is all that keeps them apart, as long as no literal of a shown text runs over the end of its
line. -/
theorem read_units_adjacent {s : Setup} {source : String} {reading : Reading}
    (hr : s.registry = .builtin) (h : read s source = .ok reading) :
    ∃ outline, Outline.ofSource source.toList = .ok outline ∧
      ∀ top level, IsLevel outline top level →
        (units .builtin top (Program.level s.options level)).flatten =
          Program.level s.options level ∧
        (Adjacent s.options top level → Unbroken s.options level) ∧
        ((∀ l ∈ own (Program.level s.options level), Closed l) →
          Unbroken s.options level → Adjacent s.options top level) := by
  obtain ⟨outline, houtline, h⟩ := bind_ok h
  obtain ⟨w, hbuild, -⟩ := bind_ok h
  have hclean := (Outline.linesAll_ofSource houtline).2
  refine ⟨outline, houtline, fun top level hlevel => ?_⟩
  unfold build at hbuild
  split at hbuild
  · next v ids hread =>
    rw [hr] at hread
    obtain ⟨hlines, depth, u, ⟨v', ids'⟩, -, hread⟩ := hlevel.read hclean hread
    replace hlines : ∀ l ∈ Item.linesAll (Program.level s.options level), '\n' ∉ l :=
      fun l hl => hlines l (Item.mem_lines_of_mem_level hl)
    rw [readLevel_eq] at hread
    obtain ⟨hflat, -⟩ := units_of_readUnits hlines hread
    have hunits := isUnit_of_mem top (Program.level s.options level).length hlines
    exact ⟨hflat, Adjacent.unbroken hflat hunits, fun hclosed h => h.adjacent hflat hunits hclosed⟩
  · cases hbuild

/-- Placeholders in front of a statement and after a loop: both levels are adjacent. -/
theorem read_units_adjacent_loop : ∃ inner reading,
    Outline.ofSource "while x:\n    pass\n    basic.clear_screen()\npass\n".toList =
      .ok [.line 1 "while x:".toList, .block inner, .line 4 "pass".toList] ∧
    read {} "while x:\n    pass\n    basic.clear_screen()\npass\n" = .ok reading ∧
    Adjacent {} true [.line 1 "while x:".toList, .block inner, .line 4 "pass".toList] ∧
    Adjacent {} false inner := by
  have hok : (read {} "while x:\n    pass\n    basic.clear_screen()\npass\n").isOk = true := by
    decide +kernel
  cases hread : read {} "while x:\n    pass\n    basic.clear_screen()\npass\n" with
  | error f =>
    rw [hread] at hok
    cases hok
  | ok reading =>
    obtain ⟨outline, houtline, hlevels⟩ := read_units_adjacent rfl hread
    let inner : List Item := [.line 2 "pass".toList, .line 3 "basic.clear_screen()".toList]
    obtain rfl : [.line 1 "while x:".toList, .block inner, .line 4 "pass".toList] = outline :=
      Except.ok.inj houtline
    have hinner : IsLevel [.line 1 "while x:".toList, .block inner, .line 4 "pass".toList] false
        inner := .block .top (by simp)
    exact ⟨inner, reading, houtline, rfl, (hlevels _ _ .top).2.2 (by decide) (by decide),
      (hlevels _ _ hinner).2.2 (by decide) (by decide)⟩

/-- A loop is read whose block stands after a placeholder. -/
theorem read_block_after_placeholder : ∃ outline,
    Outline.ofSource "while True:\npass\n    basic.clear_screen()\n".toList = .ok outline ∧
    (read {} "while True:\npass\n    basic.clear_screen()\n").isOk = true ∧
    ¬ Tiled {} outline (units .builtin true (Program.level {} outline)) ∧
    ∃ i inner, [i, .block inner] <:+: outline ∧ isNoop {} i = true := by
  let header : Item := .line 1 "while True:".toList
  let placeholder : Item := .line 2 "pass".toList
  let inner : List Item := [.line 3 "basic.clear_screen()".toList]
  refine ⟨[header, placeholder, .block inner], rfl, by decide +kernel, ?_, placeholder, inner,
    ⟨[header], [], rfl⟩, by decide⟩
  have hunits : units .builtin true (Program.level {} [header, placeholder, .block inner]) =
      [[header, .block inner]] := rfl
  rw [hunits]
  intro h
  generalize hlevel : [header, placeholder, .block inner] = level at h
  cases h with
  | placeholder hi _ =>
    obtain ⟨rfl, -⟩ := List.cons.inj hlevel
    exact absurd hi (by decide)
  | unit u _ =>
    exact Item.noConfusion (List.cons.inj (List.cons.inj hlevel).2).1

end Program

end BlockText

import BlockText.Proofs.Locations

/-!
# Which line an expression fails on

An expression that cannot be read stands in the header of a statement or of a branch, and its
failure is meant to name the line of that header. The reader looks the line up by the text of the
expression: it takes the first line of the unit that has the text as a part. A statement other than
a conditional has a single line with inputs, so there the line is right. A condition of a
conditional may be part of the header of an earlier branch, and then that branch is blamed. So the
line is right exactly if no header before it has the text of the expression.
-/

namespace BlockText.Program

open Text Outline Catalogue

variable {r : Registry} {o : Options} {top : Bool} {m : Match} {f : Failure} {w v : Workspace}
  {items rest covered : List Item} {i depth line : Nat} {source : List Char}
  {readBlock : List Item → Workspace → Except Failure (Workspace × List NodeId)}

/-! ## Where reading stops -/

/-- The first line of a unit. -/
def Match.start (m : Match) : Nat × List Char := (m.covered.head?.map Item.firstLine).getD (0, [])

/-- Units are read one after the other, up to some rest of a level. -/
inductive Reaches (r : Registry) (top : Bool)
    (readBlock : List Item → Workspace → Except Failure (Workspace × List NodeId)) :
    List Item → Workspace → List Item → Workspace → Prop where
  | here {items : List Item} {w : Workspace} : Reaches r top readBlock items w items w
  | unit {items rest : List Item} {w u v : Workspace} {m : Match} {x : NodeId}
      (hmatch : matchUnit r top items = some m) (hread : readUnit r readBlock m w = .ok (u, x))
      (h : Reaches r top readBlock (items.drop m.covered.length) u rest v) :
      Reaches r top readBlock items w rest v

/-- Reading a level stops at input `i` of a unit `m`: all that comes before was read, and the source
of the input is not. The unit is one of the level, or of a block that is nested in it. -/
inductive StopsAt (r : Registry) (o : Options) (m : Match) (i : Nat) (f : Failure) :
    Nat → Bool → List Item → Workspace → Prop where
  | value {depth : Nat} {top : Bool} {items rest : List Item} {w v u u' : Workspace} {x : NodeId}
      {input : String} {source : List Char}
      (hreaches : Reaches r top (blockReader r o depth) (level o items) w rest v)
      (hmatch : matchUnit r top rest = some m) (hmake : v.make r m.blueprint = (u, .ok x))
      (hbefore : attachAll (readExpression r) (lineOf m.covered m.start.1) x
        (m.extraction.values.take i) u = .ok u')
      (hsource : m.extraction.values[i]? = some (input, source))
      (hstop : readExpression r (lineOf m.covered m.start.1 source) source u' = .error f) :
      StopsAt r o m i f depth top items w
  | body {depth j : Nat} {top : Bool} {items rest inner : List Item} {around : Match}
      {w v u u' u'' : Workspace} {x : NodeId} {input : String}
      (hreaches : Reaches r top (readLevel r o depth false) (level o items) w rest v)
      (hmatch : matchUnit r top rest = some around)
      (hmake : v.make r around.blueprint = (u, .ok x))
      (hvalues : attachAll (readExpression r) (lineOf around.covered around.start.1) x
        around.extraction.values u = .ok u')
      (hbefore : attachBodies (readLevel r o depth false) around.start.1 around.start.2 x
        ((around.extraction.bodies.zip (blocks around.covered)).take j) u' = .ok u'')
      (hinner : (around.extraction.bodies.zip (blocks around.covered))[j]? = some (input, inner))
      (h : StopsAt r o m i f depth false inner u'') : StopsAt r o m i f (depth + 1) top items w

theorem bind_error {α β : Type} {first : Except Failure α} {next : α → Except Failure β}
    (h : first >>= next = .error f) :
    first = .error f ∨ ∃ a, first = .ok a ∧ next a = .error f := by
  cases first with
  | error f' =>
    cases h
    exact .inl rfl
  | ok a => exact .inr ⟨a, rfl, h⟩

theorem error_of_map {α : Type} {result : Except Failure α}
    (h : result.map (fun _ => ()) = .error f) : result = .error f := by
  cases result with
  | error f' =>
    cases h
    rfl
  | ok a => cases h

theorem attach_error {parent child : NodeId} {input : String}
    (h : attach w line parent input source child = .error f) :
    f.line = line ∧ f.reason ≠ .unsupportedExpression := by
  unfold attach at h
  generalize (if isDefault w parent input child then w.linkShadow parent input child
    else w.linkValue parent input child) = linked at h
  obtain ⟨u, _ | _⟩ := linked
  · cases h
    exact ⟨rfl, fun he => by cases he⟩
  · cases h

/-- If sources cannot be read, there is a first one that fails. -/
theorem attachAll_stops {read : Nat → List Char → Workspace → Except Failure (Workspace × NodeId)}
    {lineOf : List Char → Nat} {parent : NodeId} {sources : List (String × List Char)}
    (h : attachAll read lineOf parent sources w = .error f)
    (hf : f.reason = .unsupportedExpression) :
    ∃ i input source u, sources[i]? = some (input, source) ∧
      attachAll read lineOf parent (sources.take i) w = .ok u ∧
      read (lineOf source) source u = .error f := by
  induction sources generalizing w with
  | nil => cases h
  | cons s sources ih =>
    rw [attachAll] at h
    obtain hread | ⟨⟨u, child⟩, hread, h⟩ := bind_error h
    · exact ⟨0, s.1, s.2, w, rfl, rfl, hread⟩
    · obtain hattach | ⟨v, hattach, h⟩ := bind_error h
      · exact absurd hf (attach_error hattach).2
      · obtain ⟨i, input, source, u', hsource, hbefore, hstop⟩ := ih h
        refine ⟨i + 1, input, source, u', hsource, ?_, hstop⟩
        rw [List.take_succ_cons, attachAll, hread]
        show (attach u (lineOf s.2) parent s.1 s.2 child >>= _) = _
        rw [hattach]
        exact hbefore

theorem attachBody_error {text : List Char} {parent : NodeId} {input : String}
    {children : List NodeId} (h : attachBody line text parent input children w = .error f) :
    f.reason ≠ .unsupportedExpression := by
  induction children generalizing w with
  | nil => cases h
  | cons child children ih =>
    rw [attachBody] at h
    generalize w.linkStatement parent input none child = linked at h
    obtain ⟨u, _ | _⟩ := linked
    · cases h
      intro he
      cases he
    · exact ih h

/-- If blocks cannot be read, there is a first one that fails. -/
theorem attachBodies_stops {text : List Char} {parent : NodeId}
    {bodies : List (String × List Item)}
    (h : attachBodies readBlock line text parent bodies w = .error f)
    (hf : f.reason = .unsupportedExpression) :
    ∃ j input inner u, bodies[j]? = some (input, inner) ∧
      attachBodies readBlock line text parent (bodies.take j) w = .ok u ∧
      readBlock inner u = .error f := by
  induction bodies generalizing w with
  | nil => cases h
  | cons b bodies ih =>
    rw [attachBodies] at h
    obtain hread | ⟨⟨u, children⟩, hread, h⟩ := bind_error h
    · exact ⟨0, b.1, b.2, w, rfl, rfl, hread⟩
    · obtain hattach | ⟨v, hattach, h⟩ := bind_error h
      · exact absurd hf (attachBody_error hattach)
      · obtain ⟨j, input, inner, u', hinner, hbefore, hstop⟩ := ih h
        refine ⟨j + 1, input, inner, u', hinner, ?_, hstop⟩
        rw [List.take_succ_cons, attachBodies, hread]
        show (attachBody line text parent b.1 children u >>= _) = _
        rw [hattach]
        exact hbefore

/-- If a unit cannot be read, its node is made and either an expression or a block fails. -/
theorem readUnit_stops (h : readUnit r readBlock m w = .error f)
    (hf : f.reason = .unsupportedExpression) :
    ∃ u x, w.make r m.blueprint = (u, .ok x) ∧
      (attachAll (readExpression r) (lineOf m.covered m.start.1) x m.extraction.values u =
          .error f ∨
        ∃ u', attachAll (readExpression r) (lineOf m.covered m.start.1) x m.extraction.values u =
            .ok u' ∧
          attachBodies readBlock m.start.1 m.start.2 x
            (m.extraction.bodies.zip (blocks m.covered)) u' = .error f) := by
  unfold readUnit at h
  rw [show (m.covered.head?.map Item.firstLine).getD (0, []) = m.start from rfl] at h
  dsimp only at h
  generalize w.make r m.blueprint = made at h ⊢
  obtain ⟨u, _ | x⟩ := made
  · cases h
    cases hf
  · refine ⟨u, x, rfl, ?_⟩
    obtain h | ⟨u', hvalues, h⟩ := bind_error h
    · exact .inl h
    · obtain h | ⟨u'', -, h⟩ := bind_error h
      · exact .inr ⟨u', hvalues, h⟩
      · cases h

theorem unmatched_reason (item : Item) : (unmatched item).reason ≠ .unsupportedExpression := by
  cases item <;> exact Reason.noConfusion

/-- If a level cannot be read, there is a first unit that fails. -/
theorem readUnits_stops {bound : Nat} (h : readUnits r top readBlock bound items w = .error f)
    (hf : f.reason = .unsupportedExpression) :
    ∃ rest v m, Reaches r top readBlock items w rest v ∧ matchUnit r top rest = some m ∧
      readUnit r readBlock m v = .error f := by
  induction bound generalizing items w with
  | zero =>
    cases items with
    | nil => cases h
    | cons item items =>
      cases h
      exact absurd hf (unmatched_reason item)
  | succ bound ih =>
    cases items with
    | nil => cases h
    | cons item items =>
      rw [readUnits] at h
      cases hmatch : matchUnit r top (item :: items) with
      | none =>
        rw [hmatch] at h
        cases h
        exact absurd hf (unmatched_reason item)
      | some m =>
        rw [hmatch] at h
        obtain hread | ⟨⟨u, x⟩, hread, h⟩ := bind_error h
        · exact ⟨_, w, m, .here, hmatch, hread⟩
        · obtain h | ⟨_, -, h⟩ := bind_error h
          · obtain ⟨rest, v, m', hreaches, hmatch', hstop⟩ := ih h
            exact ⟨rest, v, m', .unit hmatch hread hreaches, hmatch', hstop⟩
          · cases h

/-- A level that cannot be read for an expression stops at an input of a unit. -/
theorem readLevel_stops (h : readLevel r o depth top items w = .error f)
    (hf : f.reason = .unsupportedExpression) : ∃ m i, StopsAt r o m i f depth top items w := by
  induction depth generalizing top items w with
  | zero =>
    rw [readLevel_eq] at h
    obtain ⟨rest, v, m, hreaches, hmatch, hunit⟩ := readUnits_stops h hf
    obtain ⟨u, x, hmake, hvalues | ⟨u', -, hbodies⟩⟩ := readUnit_stops hunit hf
    · obtain ⟨i, input, source, u', hsource, hbefore, hstop⟩ := attachAll_stops hvalues hf
      exact ⟨m, i, .value hreaches hmatch hmake hbefore hsource hstop⟩
    · obtain ⟨_, _, _, _, -, -, hstop⟩ := attachBodies_stops hbodies hf
      cases hstop
  | succ depth ih =>
    rw [readLevel_eq] at h
    obtain ⟨rest, v, m, hreaches, hmatch, hunit⟩ := readUnits_stops h hf
    obtain ⟨u, x, hmake, hvalues | ⟨u', hvalues, hbodies⟩⟩ := readUnit_stops hunit hf
    · obtain ⟨i, input, source, u', hsource, hbefore, hstop⟩ := attachAll_stops hvalues hf
      exact ⟨m, i, .value hreaches hmatch hmake hbefore hsource hstop⟩
    · obtain ⟨j, input, inner, u'', hinner, hbefore, hstop⟩ := attachBodies_stops hbodies hf
      obtain ⟨m', i, hstops⟩ := ih hstop
      exact ⟨m', i, .body hreaches hmatch hmake hvalues hbefore hinner hstops⟩

/-- An expression fails on the line that it is read on. -/
theorem line_of_readExpressionUpTo (h : readExpressionUpTo r depth line source w = .error f) :
    f.line = line := by
  induction depth generalizing source w with
  | zero =>
    cases h
    rfl
  | succ depth ih =>
    have hoperands {sources : List (String × List Char)} {parent : NodeId} {w : Workspace}
        (h : attachAll (readExpressionUpTo r depth) (fun _ => line) parent sources w = .error f) :
        f.line = line := by
      induction sources generalizing w with
      | nil => cases h
      | cons s sources ihs =>
        rw [attachAll] at h
        obtain hread | ⟨_, -, h⟩ := bind_error h
        · exact ih hread
        · obtain hattach | ⟨_, -, h⟩ := bind_error h
          · exact (attach_error hattach).1
          · exact ihs h
    rw [readExpressionUpTo] at h
    split at h
    · cases h
      rfl
    · split at h
      · cases h
        rfl
      · obtain h | ⟨_, -, h⟩ := bind_error h
        · exact hoperands h
        · cases h

/-! ## The lines of a unit -/

/-- The lines of a unit with their numbers, without those in its blocks. -/
def Match.lines (m : Match) : List (Nat × List Char) := m.covered.filterMap Item.line?

theorem own_eq_map (items : List Item) : own items = (items.filterMap Item.line?).map (·.2) := by
  induction items with
  | nil => rfl
  | cons item items ih =>
    cases item with
    | line number text => exact congrArg (text :: ·) ih
    | block inner => exact ih

/-- Among lines in order, the first with a property has the number of a given one exactly if none
before that one has the property. -/
theorem find?_number_iff {ls : List (Nat × List Char)} (hls : ls.Pairwise (·.1 < ·.1))
    {p : Nat × List Char → Bool} {j : Nat} {l : Nat × List Char} (hl : ls[j]? = some l)
    (hp : p l = true) :
    (ls.find? p).map (·.1) = some l.1 ↔ ∀ l' ∈ ls.take j, p l' = false := by
  induction ls generalizing j with
  | nil => cases hl
  | cons a ls ih =>
    rw [List.pairwise_cons] at hls
    cases j with
    | zero =>
      obtain rfl : a = l := Option.some.inj hl
      simp [hp]
    | succ j =>
      have hmem : l ∈ ls := List.mem_of_getElem? hl
      rw [List.take_succ_cons, List.forall_mem_cons]
      cases ha : p a with
      | true =>
        -- the search stops here, at a smaller number
        have hlt := hls.1 l hmem
        rw [List.find?_cons_of_pos ha]
        simp [Nat.ne_of_lt hlt]
      | false =>
        rw [List.find?_cons_of_neg (by simp [ha]), ih hls.2 hl]
        simp

/-! ## Headers -/

/-- The word that starts the header of a branch. -/
def keyword (i : Nat) : List Char := if i = 0 then "if ".toList else "elif ".toList

/-- The place of the header of input `i` among the lines of a unit: a conditional has a header for
each condition, and any other statement has its inputs on its first line. -/
def Match.row (m : Match) (i : Nat) : Nat := if m.blueprint.kind = .ifElse then i else 0

/-- The line `header` is the one on which input `i` of a unit is written. It is the line of the
branch for a condition of a conditional, and the only line of the unit otherwise. -/
structure Match.Heads (m : Match) (i : Nat) (source : List Char) (header : Nat × List Char) :
    Prop where
  line : m.lines[m.row i]? = some header
  part : source <:+: header.2
  branch : m.blueprint.kind = .ifElse →
    ∃ condition, header.2 = keyword i ++ (condition ++ [':']) ∧ trim condition = source
  only : m.blueprint.kind ≠ .ifElse → m.lines = [header]

theorem legible_ne_blockMark {l : List Char} (h : Legible l) : l ≠ blockMark := by
  rintro rfl
  have htab := h (Char.ofNat 1) List.mem_cons_self (by decide)
  revert htab
  decide

/-- The lines of a level are what it shows besides marks. -/
theorem own_eq_filter (h : ∀ l ∈ own items, l ≠ blockMark) :
    own items = (items.map Item.shown).filter (· != blockMark) := by
  induction items with
  | nil => rfl
  | cons item items ih =>
    cases item with
    | block inner =>
      rw [List.map_cons, List.filter_cons_of_neg (by simp [Item.shown])]
      exact ih h
    | line number text =>
      rw [own, List.forall_mem_cons] at h
      rw [List.map_cons, List.filter_cons_of_pos (by simpa [Item.shown] using h.1), own, ih h.2]
      rfl

theorem map_text_eq_filter {rows : List Row} (h : ∀ r ∈ rows, r.text ≠ blockMark) :
    rows.map Row.text = (rows.flatMap Row.shown).filter (· != blockMark) := by
  induction rows with
  | nil => rfl
  | cons r rows ih =>
    rw [List.forall_mem_cons] at h
    have hbody : ((r.body.map fun _ => blockMark).toList).filter (· != blockMark) = [] := by
      cases r.body <;> simp
    rw [List.flatMap_cons, List.filter_append, ← ih h.2, Row.shown,
      List.filter_cons_of_pos (by simpa using h.1), hbody]
    rfl

section Conditional

variable {piece condition : List Char} {pieces : List (List Char)} {mutation : Mutation}

theorem text_conditionalRows_ne_blockMark :
    ∀ r ∈ conditionalRows piece pieces mutation, r.text ≠ blockMark := by
  have hstart {front text : List Char} (hf : ¬ front <+: blockMark) : front ++ text ≠ blockMark :=
    fun he => hf ⟨text, he⟩
  rw [conditionalRows, List.forall_mem_cons, List.forall_mem_append]
  refine ⟨hstart (by decide), fun r hr => ?_, fun r hr => ?_⟩
  · obtain ⟨s, -, rfl⟩ := List.mem_map.mp hr
    exact hstart (by decide)
  · unfold elseRows at hr
    split at hr
    · obtain rfl := List.mem_singleton.mp hr
      decide
    · cases hr

/-- The header of a branch has the condition between its keyword and a colon. -/
theorem getElem?_conditionalRows (h : (piece :: pieces)[i]? = some condition) :
    ((conditionalRows piece pieces mutation).map Row.text)[i]? =
      some (keyword i ++ (condition ++ [':'])) := by
  cases i with
  | zero =>
    obtain rfl : piece = condition := Option.some.inj h
    rfl
  | succ i =>
    rw [List.getElem?_cons_succ] at h
    have hlength : i < pieces.length := (List.getElem?_eq_some_iff.mp h).1
    rw [conditionalRows, List.map_cons, List.getElem?_cons_succ, List.map_append,
      List.getElem?_append_left (by simpa [branchRows] using hlength), branchRows, List.map_map,
      List.getElem?_map, List.getElem?_zipIdx, h]
    rfl

theorem conditionalExtraction_getElem? {input : String}
    (h : (conditionalExtraction piece pieces mutation).values[i]? = some (input, source)) :
    ∃ condition, (piece :: pieces)[i]? = some condition ∧ trim condition = source := by
  rw [conditionalExtraction, List.getElem?_map, List.getElem?_zipIdx] at h
  cases hi : (piece :: pieces)[i]? with
  | none =>
    rw [hi] at h
    cases h
  | some condition =>
    rw [hi] at h
    cases h
    exact ⟨condition, rfl, rfl⟩

end Conditional

/-! ## The header of an input -/

theorem Item.numberedAll_sublist {items' : List Item} (h : items.Sublist items') :
    (numberedAll items).Sublist (numberedAll items') := by
  induction h with
  | slnil => exact .slnil
  | cons item _ ih => exact ih.trans (List.sublist_append_right _ _)
  | cons_cons item _ ih => exact ih.append_left _

theorem Item.numberedAll_of_mem_blocks {inner : List Item} (h : inner ∈ blocks items) :
    (numberedAll inner).Sublist (numberedAll items) := by
  induction items with
  | nil => cases h
  | cons item items ih =>
    cases item with
    | line number text => exact (ih h).trans (List.sublist_append_right _ _)
    | block inner' =>
      rcases List.mem_cons.mp h with rfl | h
      · exact List.sublist_append_left _ _
      · exact (ih h).trans (List.sublist_append_right _ _)

theorem Item.filterMap_line?_sublist (items : List Item) :
    (items.filterMap line?).Sublist (numberedAll items) := by
  induction items with
  | nil => exact .slnil
  | cons item items ih =>
    cases item with
    | line number text => exact ih.cons_cons _
    | block inner => exact ih.trans (List.sublist_append_right _ _)

theorem Item.newline_of_legible (h : ∀ l ∈ numberedAll items, Legible l.2) :
    ∀ l ∈ linesAll items, '\n' ∉ l := by
  rw [linesAll_eq_map]
  exact List.forall_mem_map.mpr fun l hl => (h l hl).newline

section Units

variable {k : Kind} {cs : List Char} {b : Blueprint} {e : Extraction} {input : String}

/-- The lines of a conditional are its rows. -/
theorem own_conditional {piece : List Char} {pieces : List (List Char)} {mutation : Mutation}
    (hpieces : ∀ t ∈ piece :: pieces, FitsHole t)
    (hspell : spell covered = spellRows (conditionalRows piece pieces mutation))
    (hlegible : ∀ l ∈ Item.numberedAll covered, Legible l.2) :
    own covered = (conditionalRows piece pieces mutation).map Row.text := by
  have hown : ∀ l ∈ own covered, l ≠ blockMark := by
    rw [own_eq_map]
    refine List.forall_mem_map.mpr fun l hl => legible_ne_blockMark ?_
    exact hlegible l ((Item.filterMap_line?_sublist covered).subset hl)
  rw [own_eq_filter hown, map_text_eq_filter text_conditionalRows_ne_blockMark,
    (clause_conditional hpieces).shown_eq hspell
      (newline_shown (Item.newline_of_legible hlegible))]

/-- A statement with inputs has one header line, unless it is a conditional. -/
theorem headerLines_of_valueInputs (hrole : k.definition.shape.role.isValue = false)
    (hk : k ≠ .ifElse) (h : k.definition.shape.valueInputs none ≠ []) :
    k ≠ .showString ∧ k.headerLines none = 1 := by
  cases k with
  | ifElse => exact absurd rfl hk
  | mathNumber | text | logicBoolean | logicCompare | logicOperation | logicNegate
  | mathArithmetic | mathRandom | buttonIsPressed | temperature | acceleration | variablesGet =>
    cases hrole
  | showNumber | pause | displayShow | plot | unplot | playTone | setVariable | changeVariable
  | repeatTimes | whileLoop => exact ⟨by decide, rfl⟩
  -- the others have no inputs
  | _ => exact absurd rfl h

/-- A unit with inputs that is no conditional has a single line. -/
theorem length_own_of_recover (hrole : k.definition.shape.role.isValue = false)
    (hk : k ≠ .ifElse) (h : k.definition.recover cs = some (e, b, spell covered))
    (hclean : ∀ l ∈ covered.map Item.shown, '\n' ∉ l)
    (hblocks : (blocks covered).length = e.bodies.length) (hvalues : e.values ≠ []) :
    (own covered).length = 1 := by
  have hfills := k.fills_of_recover h
  have hmutation : e.mutation = none := by
    refine hfills.mutation_none ?_
    cases k with
    | ifElse => exact absurd rfl hk
    | _ => rfl
  have hinputs : k.definition.shape.valueInputs none ≠ [] := by
    rw [← hmutation, ← hfills.values]
    exact fun hnil => hvalues (List.map_eq_nil_iff.mp hnil)
  obtain ⟨hshow, hheaders⟩ := headerLines_of_valueInputs hrole hk hinputs
  obtain ⟨rows, hspell, hclause⟩ := k.clause_of_recover hrole hshow h
  rw [hclause.length_own hspell hclean hblocks, hmutation, hheaders]

/-- Every input of a unit has a header. -/
theorem exists_heads (hr : r.Selected) (hlegible : ∀ l ∈ Item.numberedAll items, Legible l.2)
    (h : matchUnit r top items = some m) (hi : m.extraction.values[i]? = some (input, source)) :
    ∃ header, m.Heads i source header := by
  obtain ⟨k, hrole, hrecover, hblocks, hcovered⟩ :=
    matchUnit_some hr (Item.newline_of_legible hlegible) h
  replace hlegible : ∀ l ∈ Item.numberedAll m.covered, Legible l.2 :=
    fun l hl => hlegible l ((Item.numberedAll_sublist hcovered.sublist).subset hl)
  have hkind : m.blueprint.kind = k := by
    obtain ⟨_, _, _, _, -, -, -, -, hb, -, -⟩ := k.recover_some hrecover
    rw [hb]
  by_cases hk : k = .ifElse
  · -- the header of a condition is its row
    subst hk
    obtain ⟨piece, pieces, mutation, hpieces, hspell, he⟩ :=
      Kind.conditional_of_recover hrecover
    rw [he] at hi
    obtain ⟨condition, hcondition, rfl⟩ := conditionalExtraction_getElem? hi
    have htext : (own m.covered)[i]? = some (keyword i ++ (condition ++ [':'])) := by
      rw [own_conditional hpieces hspell hlegible]
      exact getElem?_conditionalRows hcondition
    rw [own_eq_map, List.getElem?_map, Option.map_eq_some_iff] at htext
    obtain ⟨header, hheader, htext⟩ := htext
    refine ⟨header, ?_, ?_, fun _ => ⟨condition, htext, rfl⟩, fun hne => absurd hkind hne⟩
    · rw [Match.row, if_pos hkind]
      exact hheader
    · rw [htext]
      exact (infix_trim condition).trans ⟨keyword i, [':'], List.append_assoc _ _ _⟩
  · -- the source is on some line, and there is only one
    have hmem := List.mem_of_getElem? hi
    have hlength := length_own_of_recover (isValue_of_role hrole) hk hrecover
      (newline_shown (Item.newline_of_legible hlegible)) hblocks (List.ne_nil_of_mem hmem)
    rw [own_eq_map, List.length_map, List.length_eq_one_iff] at hlength
    obtain ⟨header, hlines⟩ := hlength
    obtain ⟨number, text, hline, hpart⟩ :=
      line_of_onLine (k.onLine_of_recover (isValue_of_role hrole) hrecover _ hmem)
    have hheader : (number, text) ∈ m.covered.filterMap Item.line? :=
      List.mem_filterMap.mpr ⟨_, hline, rfl⟩
    rw [hlines, List.mem_singleton] at hheader
    refine ⟨header, ?_, hheader ▸ hpart, fun he => absurd (hkind.symm.trans he) hk,
      fun _ => hlines⟩
    rw [Match.row, if_neg fun he => hk (hkind.symm.trans he), Match.lines, hlines]
    rfl

end Units

/-! ## The line that is blamed -/

theorem Reaches.suffix (h : Reaches r top readBlock items w rest v) : rest <:+ items := by
  induction h with
  | here => exact List.suffix_rfl
  | unit _ _ _ ih => exact ih.trans (List.drop_suffix _ _)

/-- Where reading stops is a unit whose lines are lines of the level, and the line that is blamed is
the one that is found for the source. -/
theorem StopsAt.exists_unit (hr : r.Selected)
    (hlegible : ∀ l ∈ Item.numberedAll items, Legible l.2)
    (h : StopsAt r o m i f depth top items w) :
    ∃ top rest input source, matchUnit r top rest = some m ∧
      m.extraction.values[i]? = some (input, source) ∧
      f.line = lineOf m.covered m.start.1 source ∧
      (Item.numberedAll rest).Sublist (Item.numberedAll items) := by
  induction h with
  | value hreaches hmatch _ _ hsource hstop =>
    refine ⟨_, _, _, _, hmatch, hsource, line_of_readExpressionUpTo hstop, ?_⟩
    exact Item.numberedAll_sublist (hreaches.suffix.sublist.trans List.filter_sublist)
  | body hreaches hmatch _ _ _ hinner _ ih =>
    have hrest := Item.numberedAll_sublist (hreaches.suffix.sublist.trans List.filter_sublist)
    obtain ⟨-, -, -, -, hcovered⟩ := matchUnit_some hr
      (Item.newline_of_legible fun l hl => hlegible l (hrest.subset hl)) hmatch
    have hinner := Item.numberedAll_of_mem_blocks (List.of_mem_zip (List.mem_of_getElem? hinner)).2
    have hsub := (hinner.trans (Item.numberedAll_sublist hcovered.sublist)).trans hrest
    obtain ⟨top, rest, input, source, hmatch, hsource, hline, hlines⟩ :=
      ih fun l hl => hlegible l (hsub.subset hl)
    exact ⟨top, rest, input, source, hmatch, hsource, hline, hlines.trans hsub⟩

/-- Lines are numbered upwards. -/
theorem Outline.pairwise_numberedFrom (number : Nat) (raws : List (List Char)) :
    (numberedFrom number raws).Pairwise (·.1 < ·.1) := by
  have hall : (raws.zipIdx number).Pairwise (·.2 < ·.2) := by
    rw [← List.pairwise_map, List.zipIdx_map_snd]
    exact List.pairwise_lt_range'
  rw [numberedFrom, List.pairwise_map]
  exact hall.filter _

/-- The search finds the header of an input exactly if no line before it has the source. -/
theorem Match.Heads.line_iff {header : Nat × List Char} (h : m.Heads i source header)
    (hlines : m.lines.Pairwise (·.1 < ·.1)) (line : Nat) :
    lineOf m.covered line source = header.1 ↔
      ∀ l ∈ m.lines.take (m.row i), ¬ source <:+: l.2 := by
  have hpart : hasPart source header.2 = true := hasPart_iff.mpr h.part
  have hfound : (m.lines.find? fun l => hasPart source l.2).isSome = true :=
    List.find?_isSome.mpr ⟨header, List.mem_of_getElem? h.line, hpart⟩
  obtain ⟨l, hl⟩ := Option.isSome_iff_exists.mp hfound
  have hiff := find?_number_iff hlines (p := fun l => hasPart source l.2) h.line hpart
  rw [hl, Option.map_some, Option.some.injEq] at hiff
  rw [lineOf_eq_find?, ← Match.lines, hl]
  refine hiff.trans (forall₂_congr fun l _ => ?_)
  rw [← hasPart_iff, Bool.not_eq_true]

namespace Outline

variable {ls : Levels}

theorem reason_of_addLine {width : Nat} {item : Item} {reason : Reason}
    (h : addLine ls width item = .error reason) : reason ≠ .unsupportedExpression := by
  unfold addLine at h
  dsimp only at h
  split at h <;> split at h <;> cases h <;> exact Reason.noConfusion

theorem reason_of_addSource {raw : List Char} {number : Nat}
    (h : addSource ls raw number = .error f) : f.reason ≠ .unsupportedExpression := by
  unfold addSource at h
  dsimp only at h
  split at h
  · cases h
  · split at h
    · cases h
      exact Reason.noConfusion
    · split at h
      · cases h
        exact Reason.noConfusion
      · cases hadd : addLine ls (raw.length - (raw.dropWhile (· == ' ')).length)
            (.line number (trimEnd (raw.dropWhile (· == ' ')))) with
        | ok ls' =>
          rw [hadd] at h
          cases h
        | error reason =>
          rw [hadd] at h
          cases h
          exact reason_of_addLine hadd

theorem reason_of_addSources {raws : List (List Char)} {number : Nat}
    (h : addSources raws number ls = .error f) : f.reason ≠ .unsupportedExpression := by
  induction raws generalizing number ls with
  | nil => cases h
  | cons raw raws ih =>
    rw [addSources] at h
    cases hadd : addSource ls raw number with
    | ok ls' =>
      rw [hadd] at h
      exact ih h
    | error f' =>
      rw [hadd] at h
      cases h
      exact reason_of_addSource hadd

/-- A source without an outline fails for its lines, not for an expression. -/
theorem reason_of_ofSource {source : List Char} (h : ofSource source = .error f) :
    f.reason ≠ .unsupportedExpression := by
  unfold ofSource at h
  cases hadd : addSources (Text.lines source) 1 ⟨⟨0, []⟩, []⟩ with
  | ok ls =>
    rw [hadd] at h
    cases h
  | error f' =>
    rw [hadd] at h
    cases h
    exact reason_of_addSources hadd

end Outline

/-- A program that is refused for an expression has an outline, and its top level cannot be read. -/
theorem readLevel_of_read_error {s : Setup} {source : String} (h : read s source = .error f)
    (hf : f.reason = .unsupportedExpression) :
    ∃ outline, ofSource source.toList = .ok outline ∧
      readLevel s.registry s.options (Item.heightAll outline) true outline {} = .error f := by
  obtain houtline | ⟨outline, houtline, h⟩ := bind_error h
  · exact absurd hf (reason_of_ofSource houtline)
  · refine ⟨outline, houtline, ?_⟩
    obtain hbuild | ⟨_, -, h⟩ := bind_error h
    · unfold build at hbuild
      cases hlevel : readLevel s.registry s.options (Item.heightAll outline) true outline {} with
      | ok p =>
        rw [hlevel] at hbuild
        cases hbuild
      | error f' =>
        rw [hlevel] at hbuild
        cases hbuild
        rfl
    · cases h

/-- With any selection of the built-in kinds, any rules and any layout options, a program that is
refused for an expression is refused at an input of a unit, and the failure names the line of the
header of that input exactly if no earlier line of the unit has the source of the input as a part.
Only a conditional has earlier lines: the headers of the branches before. -/
theorem read_unsupported_line_iff {r : Registry} (hr : r.Selected) (rules : Rules)
    (options : Options) (source : String) (f : Failure)
    (h : read ⟨r, rules, options⟩ source = .error f) (hf : f.reason = .unsupportedExpression) :
    ∃ outline, ofSource source.toList = .ok outline ∧
      (∃ m i, StopsAt r options m i f (Item.heightAll outline) true outline {}) ∧
      ∀ m i, StopsAt r options m i f (Item.heightAll outline) true outline {} →
        ∃ input expression header, m.extraction.values[i]? = some (input, expression) ∧
          m.Heads i expression header ∧ header ∈ numberedFrom 1 (Text.lines source.toList) ∧
          (f.line = header.1 ↔ ∀ l ∈ m.lines.take (m.row i), ¬ expression <:+: l.2) := by
  obtain ⟨outline, houtline, hlevel⟩ := readLevel_of_read_error h hf
  obtain ⟨hnumbered, hlegible⟩ := numberedAll_ofSource houtline
  refine ⟨outline, houtline, readLevel_stops hlevel hf, fun m i hstops => ?_⟩
  obtain ⟨top, rest, input, expression, hmatch, hsource, hline, hrest⟩ :=
    hstops.exists_unit hr hlegible
  have hrestLegible : ∀ l ∈ Item.numberedAll rest, Legible l.2 :=
    fun l hl => hlegible l (hrest.subset hl)
  obtain ⟨header, hheads⟩ := exists_heads hr hrestLegible hmatch hsource
  -- the lines of the unit are lines of the source, so they are in order
  obtain ⟨-, -, -, -, hcovered⟩ :=
    matchUnit_some hr (Item.newline_of_legible hrestLegible) hmatch
  have hlines : m.lines.Sublist (numberedFrom 1 (Text.lines source.toList)) := by
    rw [← hnumbered]
    exact ((Item.filterMap_line?_sublist _).trans
      (Item.numberedAll_sublist hcovered.sublist)).trans hrest
  refine ⟨input, expression, header, hsource, hheads,
    hlines.subset (List.mem_of_getElem? hheads.line), ?_⟩
  rw [hline]
  exact hheads.line_iff ((pairwise_numberedFrom _ _).sublist hlines) _

/-- A condition in the second branch of a conditional, inside of a loop: its line is the fourth. -/
theorem read_unsupported_line_iff_nested : ∃ f, f.reason = .unsupportedExpression ∧ f.line = 4 ∧
    read {} "while True:\n  if True:\n    pass\n  elif foo(1):\n    pass\n" = .error f ∧
    ∃ outline, ofSource
        "while True:\n  if True:\n    pass\n  elif foo(1):\n    pass\n".toList = .ok outline ∧
      (∃ m i, StopsAt .builtin {} m i f (Item.heightAll outline) true outline {}) ∧
      ∀ m i, StopsAt .builtin {} m i f (Item.heightAll outline) true outline {} →
        ∃ input expression header, m.extraction.values[i]? = some (input, expression) ∧
          m.Heads i expression header ∧
          header ∈ numberedFrom 1 (Text.lines
            "while True:\n  if True:\n    pass\n  elif foo(1):\n    pass\n".toList) ∧
          (f.line = header.1 ↔ ∀ l ∈ m.lines.take (m.row i), ¬ expression <:+: l.2) := by
  have hread : read {} "while True:\n  if True:\n    pass\n  elif foo(1):\n    pass\n" =
      .error ⟨4, "foo(1)".toList, .unsupportedExpression⟩ :=
    error_of_map (by decide +kernel)
  exact ⟨_, rfl, rfl, hread,
    read_unsupported_line_iff Registry.selected_builtin .standard {} _ _ hread rfl⟩

/-- The condition of the second branch is part of the header of the first, which is blamed. -/
theorem read_blames_earlier_branch : ∃ outline m f,
    ofSource "if (a < b):\n    pass\nelif a < b:\n    pass\n".toList = .ok outline ∧
    read {} "if (a < b):\n    pass\nelif a < b:\n    pass\n" = .error f ∧
    f.reason = .unsupportedExpression ∧
    StopsAt .builtin {} m 1 f (Item.heightAll outline) true outline {} ∧
    m.Heads 1 "a < b".toList (3, "elif a < b:".toList) ∧ f.line = 1 := by
  have hread : read {} "if (a < b):\n    pass\nelif a < b:\n    pass\n" =
      .error ⟨1, "a < b".toList, .unsupportedExpression⟩ :=
    error_of_map (by decide +kernel)
  let outline : List Item := [.line 1 "if (a < b):".toList, .block [.line 2 "pass".toList],
    .line 3 "elif a < b:".toList, .block [.line 4 "pass".toList]]
  have houtline : ofSource "if (a < b):\n    pass\nelif a < b:\n    pass\n".toList =
      .ok outline := rfl
  have hunit : (matchUnit .builtin true outline).map (fun m => (m.lines, m.extraction.values)) =
      some ([(1, "if (a < b):".toList), (3, "elif a < b:".toList)],
        [("IF0", "(a < b)".toList), ("IF1", "a < b".toList)]) := by
    decide +kernel
  -- the node of the unit is made, and the first condition is read
  have hbegun : (matchUnit .builtin true outline).map (fun m => (m.blueprint.kind,
      (({} : Workspace).make .builtin m.blueprint).2,
      (attachAll (readExpression .builtin) (lineOf m.covered m.start.1) 0
        (m.extraction.values.take 1) (({} : Workspace).make .builtin m.blueprint).1).isOk)) =
      some (.ifElse, .ok 0, true) := by
    decide +kernel
  obtain ⟨m, hmatch, hm⟩ := Option.map_eq_some_iff.mp hunit
  obtain ⟨hlines, hvalues⟩ := Prod.mk.inj hm
  rw [hmatch, Option.map_some, Option.some.injEq] at hbegun
  obtain ⟨hkind, hbegun⟩ := Prod.mk.inj hbegun
  obtain ⟨hmake, hfirst⟩ := Prod.mk.inj hbegun
  cases hbefore : attachAll (readExpression .builtin) (lineOf m.covered m.start.1) 0
      (m.extraction.values.take 1) (({} : Workspace).make .builtin m.blueprint).1 with
  | error f =>
    rw [hbefore] at hfirst
    cases hfirst
  | ok u =>
    -- the second one fails in any workspace, on the line that is found
    have hline : lineOf m.covered m.start.1 "a < b".toList = 1 := by
      rw [lineOf_eq_find?, ← Match.lines, hlines]
      rfl
    refine ⟨outline, m, _, houtline, hread, rfl,
      .value .here hmatch (Prod.ext rfl hmake) hbefore (by rw [hvalues]; rfl) ?_,
      ⟨?_, ⟨"elif ".toList, [':'], rfl⟩, fun _ => ⟨"a < b".toList, rfl, rfl⟩,
        fun hne => absurd hkind hne⟩, rfl⟩
    · rw [hline]
      rfl
    · rw [Match.row, if_pos hkind, hlines]
      rfl

end BlockText.Program

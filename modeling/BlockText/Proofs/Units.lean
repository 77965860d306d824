import BlockText.Proofs.Reading

/-!
# Reading sequences

The text of a sequence of statements has an outline in which every block of the sequence is a unit:
its lines with their bodies, and nothing else. The reader takes the units one after the other. It
leaves out the placeholders, which are the only lines that no block wrote, as long as no line of a
block is spelled like a placeholder. So the sequence stands in the workspace that was read.
-/

namespace BlockText

open Workspace Program

variable {w v : Workspace} {lo hi x : NodeId}

/-! ## The lines of a sequence -/

namespace Script

/-- The lines that the blocks of a sequence write, without the placeholders of empty bodies. -/
def lines : Script → List (List Char)
  | done => []
  | block kind fields mutation value body next =>
    Text.lines (kind.definition.render
      (shownParts kind fields mutation (fun i => (value i).text) fun _ => []))
    ++ (kind.definition.shape.statementInputs mutation).flatMap (fun i => (body i).lines)
    ++ next.lines

variable {kind : Kind} {fields : SortedMap String FieldValue} {mutation : Option Mutation}
  {value : String → Expr} {body : String → Script} {next t : Script} {top : Bool}

/-- The rows of a block without their bodies are its lines. -/
theorem Proper.lines_rows (h : (block kind fields mutation value body next).Proper top) :
    Text.lines (kind.definition.render
      (shownParts kind fields mutation (fun i => (value i).text) fun _ => [])) =
    (sentenceRows kind
      (shownParts kind fields mutation (fun i => (value i).text) fun _ => [])).map Row.text := by
  have hsentence := h.sentence
  have hrender := hsentence.render fun _ => []
  have hrows (rows : List Row) :
      rows.flatMap (Row.write fun _ => []) = Text.unlines (rows.map Row.text) := by
    rw [Text.unlines, List.flatMap_map]
    refine List.flatMap_congr fun r _ => ?_
    cases hr : r.body <;> simp [Row.write, hr]
  rw [hrows] at hrender
  refine (congrArg Text.lines hrender).trans (Text.lines_unlines ?_ ?_)
  · intro l hl
    obtain ⟨r, hr, rfl⟩ := List.mem_map.mp hl
    exact (hsentence.lines r hr).oneLine.ne_newline
  · intro l hl he
    obtain ⟨r, hr, rfl⟩ := List.mem_map.mp hl
    have := (hsentence.lines r hr).trimmed.2.2 _ he
    cases this

/-- A line of the level of a sequence is one that its blocks write. -/
theorem mem_lines_of_items {noop : List Char} {items : List Item} (h : t.Proper top)
    (hitems : (t.sheet noop).Items items) {number : Nat} {l : List Char}
    (hl : .line number l ∈ items) : l ∈ t.lines := by
  induction t generalizing top items with
  | done =>
    rw [show items = [] from hitems] at hl
    cases hl
  | block kind fields mutation value body next _ ih =>
    obtain ⟨covered, rest, rfl, hrest, -, hcovered, -⟩ := Sheet.items_ofRows hitems
    rw [lines]
    rcases List.mem_append.mp hl with hl | hl
    · obtain ⟨r, hr, rfl⟩ := hcovered number l hl
      refine List.mem_append_left _ (List.mem_append_left _ ?_)
      rw [h.lines_rows]
      exact List.mem_map_of_mem hr
    · obtain ⟨-, -, -, -, -, hnext⟩ := h
      exact List.mem_append_right _ (ih hnext hrest hl)

end Script

/-! ## Sequences that were read -/

/-- A sequence was read, as one more loose node for each of its blocks. -/
structure Script.Reads (t : Script) (w : Workspace) (loose : List NodeId) (v : Workspace)
    (ids : List NodeId) : Prop where
  grown : w.Extends v
  tidy : Tidy .builtin v (ids ++ loose)
  real : ∀ x ∈ ids, v.IsReal x
  nodup : ids.Nodup
  stands : t.Stands v w.nextId v.nextId ids

/-- The blocks of a sequence stand in its range, at nodes of their kinds. -/
theorem Script.Stands.role {t : Script} {top : Bool} {ids : List NodeId} (h : t.Stands w lo hi ids)
    (hp : t.Ranked top) : ∀ x ∈ ids, lo ≤ x ∧ x < hi ∧
      (w.role? .builtin x = some .statement ∨ top = true ∧ w.role? .builtin x = some .root) := by
  induction t generalizing ids with
  | done =>
    rw [show ids = [] from h]
    exact nofun
  | block kind fields mutation value body next _ ih =>
    obtain ⟨x, rest, rfl, hlo, hhi, ⟨n, hn, rfl, -⟩, hnext⟩ := h
    obtain ⟨hrole, hp⟩ := hp
    rw [List.forall_mem_cons]
    refine ⟨⟨hlo, hhi, ?_⟩, ih hnext hp⟩
    rw [role?, hn, Option.bind_some, Registry.find?_builtin, Option.map_some, Option.some.injEq,
      Option.some.injEq]
    exact hrole

namespace Growing

variable {b : Draft} {loose : List NodeId} {pending : List String} {input : String}

/-- What was read for a statement input is attached to it. -/
theorem attachBody (h : Growing b w loose lo (input :: pending) v) (hinput : input ∉ pending)
    (hbody : input ∈ b.bodies) (hranked : (b.body input).Ranked false) {u : Workspace}
    {children : List NodeId} (hread : (b.body input).Reads v (w.nextId :: loose) u children)
    (line : Nat) (text : List Char) :
    ∃ u', Program.attachBody line text w.nextId input children u = .ok u' ∧
      Growing b w loose lo pending u' := by
  obtain ⟨n, hn, -, -, -, -, hblank, -⟩ := h.node
  have hslot := (hblank input List.mem_cons_self).body hbody
  have hid : w.nextId < v.nextId := Nat.lt_of_lt_of_le h.start h.lo_le
  have hn' : u.get? w.nextId = some n := (hread.grown.below _ hid).trans hn
  have hrole := hread.stands.role hranked
  have hfree : ∀ c ∈ children, c ∉ loose := by
    intro c hc hl
    obtain ⟨k, hk, -⟩ := h.tidy.forest.loose_there (List.mem_cons_of_mem _ hl)
    exact Nat.not_lt.mpr (hrole c hc).1 (h.tidy.conforms.stored c k hk).2
  obtain ⟨u', hattach, htidy, hroots, hnext, hbelow, hagree, m, hm, hsame, hfilled⟩ :=
    attachBody_ok u.nextId hread.tidy hread.nodup hfree hn' hslot hread.real
      (fun c hc => (hrole c hc).2.2.resolve_right (by simp)) h.start
      (fun c hc => Nat.le_trans h.lo_le (hrole c hc).1) line text
  refine ⟨u', hattach, h.fill hinput htidy (hroots.trans hread.grown.roots) ?_ (fun y hy => ?_) ?_
    hn hm hsame ⟨fun hv => ?_, fun _ => ⟨children, hfilled, ?_⟩⟩⟩
  · rw [hnext]
    exact hread.grown.next_le
  · rw [hbelow y hy, hread.grown.below y (Nat.lt_trans hy hid)]
  · refine (hread.grown.agreeOn lo).trans fun y k hlo hhi hk => ?_
    exact hagree y k hlo (Nat.lt_of_lt_of_le hhi hread.grown.next_le) hk
  · exact absurd hbody ((List.nodup_append'.mp (nodup_inputs b)).2.2 hv)
  · refine hread.stands.mono (fun y k hy => hagree y k (Nat.le_trans h.lo_le hy)) h.lo_le ?_
    rw [hnext]

/-- All statement inputs are read and attached. -/
theorem attachBodies {readBlock : List Item → Workspace → Except Failure (Workspace × List NodeId)}
    {inputs : List String} {inners : List (List Item)}
    (h : Growing b w loose lo (inputs ++ pending) v) (hnd : (inputs ++ pending).Nodup)
    (hbodies : ∀ i ∈ inputs, i ∈ b.bodies) (hranked : ∀ i ∈ inputs, (b.body i).Ranked false)
    (hread : List.Forall₂ (fun i inner => ∀ u ls, Tidy .builtin u ls →
      ∃ u' ids, readBlock inner u = .ok (u', ids) ∧ (b.body i).Reads u ls u' ids) inputs inners)
    (line : Nat) (text : List Char) :
    ∃ u, Program.attachBodies readBlock line text w.nextId (inputs.zip inners) v = .ok u ∧
      Growing b w loose lo pending u := by
  induction hread generalizing v with
  | nil => exact ⟨v, rfl, h⟩
  | cons hone _ ih =>
    rw [List.cons_append, List.nodup_cons] at hnd
    rw [List.forall_mem_cons] at hbodies hranked
    obtain ⟨u, ids, hu, hreads⟩ := hone v (w.nextId :: loose) h.tidy
    obtain ⟨u', hu', hgrowing⟩ := h.attachBody hnd.1 hbodies.1 hranked.1 hreads line text
    obtain ⟨u'', hu'', hdone⟩ := ih hgrowing hnd.2 hbodies.2 hranked.2
    refine ⟨u'', ?_, hdone⟩
    rw [List.zip_cons_cons, Program.attachBodies]
    simp only [hu, hu', bind, Except.bind]
    exact hu''

/-- A block with all its inputs and the sequence after it were read. -/
theorem reads_block {kind : Kind} {fields : SortedMap String FieldValue}
    {mutation : Option Mutation} {value : String → Expr} {body : String → Script} {next : Script}
    {top : Bool} {u : Workspace} {ids : List NodeId}
    (h : Growing ⟨kind, fields, mutation, value, body⟩ w loose lo [] u)
    (hnext : next.Reads u (w.nextId :: loose) v ids) (hranked : next.Ranked top) :
    (Script.block kind fields mutation value body next).Reads w loose v (w.nextId :: ids) := by
  obtain ⟨hgrown, htidy, hstart, hlo, n, hn, hkind, hfields, hmut, hshadow, -, hfilled⟩ := h
  have hid : w.nextId < u.nextId := Nat.lt_of_lt_of_le hstart hlo
  have hn' : v.get? w.nextId = some n := (hnext.grown.below _ hid).trans hn
  have hagree : u.AgreeOn lo u.nextId v := hnext.grown.agreeOn lo
  refine ⟨hgrown.trans hnext.grown, ?_, ?_, ?_, ?_⟩
  · exact hnext.tidy.loose_congr fun x => List.perm_middle.symm.mem_iff
  · rw [List.forall_mem_cons]
    exact ⟨isReal_of_get? hn' hshadow, hnext.real⟩
  · refine List.nodup_cons.mpr ⟨fun hm => ?_, hnext.nodup⟩
    exact Nat.not_lt.mpr (hnext.stands.role hranked _ hm).1 hid
  · refine ⟨w.nextId, ids, rfl, Nat.le_refl _, Nat.lt_of_lt_of_le hid hnext.grown.next_le,
      ⟨n, hn', hkind, hfields, hmut, fun i hi => ?_, fun i hi => ?_⟩, ?_⟩
    · obtain ⟨y, hy, hstands⟩ := (hfilled i List.not_mem_nil).value hi
      exact ⟨y, hy, hstands.mono hagree (Nat.le_of_lt hstart) hnext.grown.next_le⟩
    · obtain ⟨children, hc, hstands⟩ := (hfilled i List.not_mem_nil).body hi
      exact ⟨children, hc, hstands.mono hagree (Nat.le_of_lt hstart) hnext.grown.next_le⟩
    · exact hnext.stands.mono (fun x m _ _ hm => ⟨m, hm, .refl m⟩) (Nat.le_of_lt hid)
        (Nat.le_refl _)

end Growing

/-! ## Units -/

/-- What reads the blocks of a level. -/
def blockReader (r : Registry) (options : Options) :
    Nat → List Item → Workspace → Except Failure (Workspace × List NodeId)
  | 0 => fun _ w => .ok (w, [])
  | depth + 1 => readLevel r options depth false

theorem readLevel_eq (r : Registry) (options : Options) (depth : Nat) (top : Bool)
    (items : List Item) (w : Workspace) : readLevel r options depth top items w =
      readUnits r top (blockReader r options depth) (items.filter fun i => !isNoop options i).length
        (items.filter fun i => !isNoop options i) w := by
  cases depth <;> rfl

theorem statementIdioms_nested (r : Registry) : r.statementIdioms false =
    (r.statementIdioms true).filter fun d => d.shape.role = .statement := by
  unfold Registry.statementIdioms
  rw [List.filter_filter]
  refine List.filter_congr fun d _ => ?_
  by_cases h : d.shape.role = .statement <;> simp [h]

/-- The lines and blocks of a level are spelled on a line each. -/
theorem count_spell {items : List Item} (h : ∀ number t, .line number t ∈ items → '\n' ∉ t) :
    (spell items).count '\n' = items.length := by
  induction items with
  | nil => rfl
  | cons item items ih =>
    have hrest := ih fun number t ht => h number t (List.mem_cons_of_mem _ ht)
    cases item with
    | line number t =>
      have ht := List.count_eq_zero_of_not_mem (h number t List.mem_cons_self)
      rw [spell_line, List.count_append, List.count_cons_self, ht, hrest, List.length_cons,
        Nat.zero_add]
    | block inner =>
      have hmark : blockMark.count '\n' = 0 := by decide
      rw [spell_block, List.count_append, List.count_cons_self, hmark, hrest, List.length_cons,
        Nat.zero_add]

/-- The first idiom that fits a level which starts with a sentence is that of the sentence. -/
theorem Sentence.matchUnit {d : Definition} {p : Parts} {rows : List Row} (h : Sentence d p rows)
    (top : Bool) (hrole : d.shape.role = .statement ∨ top = true ∧ d.shape.role = .root)
    {covered rest : List Item} (hspell : spell covered = spellRows rows)
    (hlines : ∀ number t, .line number t ∈ covered → '\n' ∉ t)
    (hblocks : (blocks covered).length = (d.shape.statementInputs p.node.mutation).length)
    (hfresh : Fresh (spell rest)) : ∃ e, e.Gives d.shape p ∧
      matchUnit .builtin top (covered ++ rest) =
        some ⟨e, ⟨d.kind, e.fields, e.mutation⟩, covered⟩ := by
  have htext : spell (covered ++ rest) = spellRows rows ++ spell rest := by
    rw [← hspell]
    exact List.flatMap_append
  obtain ⟨before, after, hlist, hbefore⟩ := h.first (spell rest)
  obtain ⟨e, hrecover, hgives⟩ := h.found _ hfresh
  -- a unit covers as many items as its text has ends of lines
  have hcount : (spellRows rows).count '\n' = covered.length := by
    rw [← hspell]
    exact count_spell hlines
  have hmem : '\n' ∈ spellRows rows := List.mem_of_getLast? (getLast?_spellRows h.ne_nil)
  have hone : matchOne (covered ++ rest) (spellRows rows ++ spell rest) d =
      some ⟨e, ⟨d.kind, e.fields, e.mutation⟩, covered⟩ := by
    simp [matchOne, hrecover, hcount, hmem, hblocks, hgives.bodies]
  have hnone {ds : List Definition} (hds : ∀ d' ∈ ds, d' ∈ before) :
      ds.findSome? (matchOne (covered ++ rest) (spellRows rows ++ spell rest)) = none := by
    rw [List.findSome?_eq_none_iff]
    intro d' hd'
    rw [matchOne, hbefore d' (hds d' hd')]
    rfl
  refine ⟨e, hgives, ?_⟩
  unfold Program.matchUnit
  simp only [htext]
  cases top with
  | true =>
    rw [hlist, List.findSome?_append, hnone fun _ => id, List.findSome?_cons, hone]
    rfl
  | false =>
    have hstatement : d.shape.role = .statement := hrole.resolve_right (by simp)
    rw [statementIdioms_nested, hlist, List.filter_append, List.findSome?_append,
      hnone fun _ hd => List.mem_of_mem_filter hd,
      List.filter_cons_of_pos (by simpa using hstatement), List.findSome?_cons, hone]
    rfl

/-- The node of a unit is made and all its inputs are filled. -/
theorem readUnit_ok {b : Draft} {loose : List NodeId} {m : Match}
    {readBlock : List Item → Workspace → Except Failure (Workspace × List NodeId)}
    {fields : List (String × FieldValue)} (hblueprint : m.blueprint = ⟨b.kind, fields, b.mutation⟩)
    (hf : fillFields b.kind.definition.shape w.nextId fields
      (defaultFields b.kind.definition.shape) = .ok b.fields)
    (hm : b.mutation.isSome = b.kind.definition.shape.isBranching)
    (hvalues : m.extraction.values = b.values.map fun i => (i, (b.value i).text))
    (hbodies : m.extraction.bodies = b.bodies) (hpv : ∀ i ∈ b.values, (b.value i).Proper)
    (hpb : ∀ i ∈ b.bodies, (b.body i).Proper false)
    (hread : List.Forall₂ (fun i inner => ∀ u ls, Tidy .builtin u ls →
      ∃ u' ids, readBlock inner u = .ok (u', ids) ∧ (b.body i).Reads u ls u' ids) b.bodies
        (blocks m.covered))
    (ht : Tidy .builtin w loose) :
    ∃ v lo, readUnit .builtin readBlock m w = .ok (v, w.nextId) ∧ Growing b w loose lo [] v := by
  obtain ⟨v, hmake, hgrowing⟩ := growing_make ht hf hm
  obtain ⟨u, hattach, hgrowing⟩ := hgrowing.attachAll (readExpression .builtin)
    (Growing.nodup_inputs b) (fun _ hi => hi) (fun i hi => (hpv i hi).valued)
    (fun i hi line u ls hu => (b.value i).read_ok (hpv i hi) (Nat.lt_succ_self _) hu line)
    (lineOf m.covered ((m.covered.head?.map Item.firstLine).getD (0, [])).1)
  have hnd := (List.nodup_append'.mp (Growing.nodup_inputs b)).2.1
  rw [← List.append_nil b.bodies] at hgrowing hnd
  obtain ⟨u', hattach', hdone⟩ := hgrowing.attachBodies hnd (fun _ hi => hi)
    (fun i hi => (hpb i hi).ranked) hread
    ((m.covered.head?.map Item.firstLine).getD (0, [])).1
    ((m.covered.head?.map Item.firstLine).getD (0, [])).2
  refine ⟨u', v.nextId, ?_, hdone⟩
  rw [readUnit]
  simp only [hblueprint, hmake, hvalues, hbodies, bind, Except.bind, hattach, hattach']
  rfl

/-! ## Levels -/

theorem heightAll_lt_of_mem_blocks {items inner : List Item} (h : inner ∈ blocks items) :
    Item.heightAll inner < Item.heightAll items := by
  induction items with
  | nil => cases h
  | cons item items ih =>
    cases item with
    | line number t => exact Nat.lt_of_lt_of_le (ih h) (Nat.le_max_right _ _)
    | block inner' =>
      rcases List.mem_cons.mp h with rfl | h
      · exact Nat.lt_of_lt_of_le (Nat.lt_succ_self _) (Nat.le_max_left _ _)
      · exact Nat.lt_of_lt_of_le (ih h) (Nat.le_max_right _ _)

theorem heightAll_append (items items' : List Item) : Item.heightAll (items ++ items') =
    max (Item.heightAll items) (Item.heightAll items') := by
  induction items with
  | nil => simp [Item.heightAll]
  | cons item items ih => rw [List.cons_append, Item.heightAll, ih, Item.heightAll, Nat.max_assoc]

theorem blocks_append (items items' : List Item) :
    blocks (items ++ items') = blocks items ++ blocks items' := by
  induction items with
  | nil => rfl
  | cons item items ih => cases item <;> simp [blocks, ih]

namespace Script

variable {t : Script} {top : Bool} {options : Options} {items : List Item}

/-- No further branch of a conditional is at the front of a sequence. -/
theorem fresh_items {noop : List Char} (h : t.Proper top) (hitems : (t.sheet noop).Items items) :
    Fresh (spell items) := by
  cases t with
  | done =>
    rw [show items = [] from hitems]
    intro o ho
    rw [spell, List.flatMap_nil, List.prefix_nil]
    rintro rfl
    exact absurd ho (by decide)
  | block kind fields mutation value body next =>
    obtain ⟨covered, rest, rfl, -, hspell, -⟩ := Sheet.items_ofRows hitems
    have htext : spell (covered ++ rest) = spell covered ++ spell rest := List.flatMap_append
    rw [htext, hspell]
    exact h.sentence.fresh _

/-- Without the placeholders a level has the units of its sequence, and nothing else. -/
theorem filter_items (h : t.Proper top) (hnoop : options.noop.toList ∉ t.lines)
    (hitems : (t.sheet options.noop.toList).Items items ∨
      ((t.sheet options.noop.toList).orLine options.noop.toList).Items items) :
    (t.sheet options.noop.toList).Items (items.filter fun i => !isNoop options i) ∧
      Item.heightAll (items.filter fun i => !isNoop options i) ≤ Item.heightAll items := by
  have hkept (hitems : (t.sheet options.noop.toList).Items items) :
      (t.sheet options.noop.toList).Items (items.filter fun i => !isNoop options i) ∧
        Item.heightAll (items.filter fun i => !isNoop options i) ≤ Item.heightAll items := by
    have hall : (items.filter fun i => !isNoop options i) = items := by
      refine List.filter_eq_self.mpr fun item hitem => ?_
      cases item with
      | block inner => rfl
      | line number l =>
        have hl := mem_lines_of_items h hitems hitem
        have : l ≠ options.noop.toList := fun he => hnoop (he ▸ hl)
        simpa [isNoop] using this
    rw [hall]
    exact ⟨hitems, Nat.le_refl _⟩
  rcases hitems with hitems | hitems
  · exact hkept hitems
  · cases t with
    | done =>
      obtain ⟨number, rest, rfl, hrest⟩ := hitems
      obtain rfl : rest = [] := hrest
      have hnone :
          ([Item.line number options.noop.toList].filter fun i => !isNoop options i) = [] := by
        simp [isNoop]
      rw [hnone]
      exact ⟨rfl, Nat.zero_le _⟩
    | block kind fields mutation value body next =>
      -- a sequence with a block has a line, so no placeholder was written for it
      refine hkept ?_
      cases hs : (block kind fields mutation value body next).sheet options.noop.toList with
      | done => exact absurd hs (sheet_ne_done h _)
      | _ =>
        rw [hs] at hitems
        exact hitems

/-- The units of a level are read one after the other. -/
theorem readUnits_ok (h : t.Proper top) (hnoop : options.noop.toList ∉ t.lines)
    (hitems : (t.sheet options.noop.toList).Items items) {depth : Nat}
    (hdepth : Item.heightAll items ≤ depth) {bound : Nat} (hbound : items.length ≤ bound)
    {loose : List NodeId} (ht : Tidy .builtin w loose) :
    ∃ v ids, readUnits .builtin top (blockReader .builtin options depth) bound items w =
      .ok (v, ids) ∧ t.Reads w loose v ids := by
  induction t generalizing top items depth bound w loose with
  | done =>
    obtain rfl : items = [] := hitems
    exact ⟨w, [], by cases bound <;> rfl, .refl w, ht, nofun, .nil, rfl⟩
  | block kind fields mutation value body next ihb ih =>
    have hsentence := h.sentence
    obtain ⟨covered, rest, rfl, hrest, hspell, hlines, hblocks⟩ := Sheet.items_ofRows hitems
    obtain ⟨hrole, hmutation, hadmits, hvalues, hbodies, hnext⟩ := h
    have hheight := heightAll_append covered rest
    rw [hsentence.bodies] at hblocks
    rw [lines, List.mem_append, List.mem_append, not_or, not_or] at hnoop
    have hnoopBody : ∀ i ∈ kind.definition.shape.statementInputs mutation,
        options.noop.toList ∉ (body i).lines :=
      fun i hi hm => hnoop.1.2 (List.mem_flatMap.mpr ⟨i, hi, hm⟩)
    obtain ⟨e, hgives, hmatch⟩ := hsentence.matchUnit top hrole hspell
      (fun number l hl => by
        obtain ⟨r, hr, rfl⟩ := hlines number l hl
        exact (hsentence.lines r hr).oneLine.ne_newline)
      hblocks.length_eq.symm (fresh_items hnext hrest)
    -- the blocks of the unit are read as its bodies
    have hread : List.Forall₂ (fun i inner => ∀ u ls, Tidy .builtin u ls →
        ∃ u' ids, blockReader .builtin options depth inner u = .ok (u', ids) ∧
          (body i).Reads u ls u' ids)
        (kind.definition.shape.statementInputs mutation) (blocks covered) := by
      rw [List.forall₂_iff_zip] at hblocks ⊢
      refine ⟨hblocks.1, fun {i inner} hzip u ls hu => ?_⟩
      obtain ⟨hi, hinner⟩ := List.of_mem_zip hzip
      have hlt := heightAll_lt_of_mem_blocks hinner
      obtain ⟨d, rfl⟩ : ∃ d, depth = d + 1 := ⟨depth - 1, by omega⟩
      obtain ⟨hsheet, hle⟩ := filter_items (hbodies i hi) (hnoopBody i hi)
        (.inr (hblocks.2 hzip))
      obtain ⟨v, ids, hv, hreads⟩ := ihb i (hbodies i hi) (hnoopBody i hi) hsheet
        (show _ ≤ d by omega) (Nat.le_refl _) hu
      refine ⟨v, ids, ?_, hreads⟩
      rw [blockReader, readLevel_eq]
      exact hv
    obtain ⟨u, lo, hunit, hgrowing⟩ := readUnit_ok
      (b := ⟨kind, fields, mutation, value, body⟩)
      (m := ⟨e, ⟨kind.definition.kind, e.fields, e.mutation⟩, covered⟩)
      (by rw [kind.kind_definition, hgives.mutation]; rfl) (hgives.fields _) hmutation
      hgives.values hgives.bodies hvalues hbodies hread ht
    have hcovered : 0 < covered.length := by
      refine List.length_pos_iff.mpr ?_
      rintro rfl
      have := getLast?_spellRows hsentence.ne_nil
      rw [← hspell] at this
      cases this
    obtain ⟨bound, rfl⟩ : ∃ d, bound = d + 1 :=
      ⟨bound - 1, by rw [List.length_append] at hbound; omega⟩
    obtain ⟨v, ids, hv, hreads⟩ := ih hnext hnoop.2 hrest (show _ ≤ depth by omega)
      (show rest.length ≤ bound by rw [List.length_append] at hbound; omega) hgrowing.tidy
    refine ⟨v, w.nextId :: ids, ?_, hgrowing.reads_block hreads hnext.ranked⟩
    obtain ⟨item, tail, hcons⟩ := List.exists_cons_of_length_pos
      (show 0 < (covered ++ rest).length by rw [List.length_append]; omega)
    rw [hcons, readUnits, ← hcons, hmatch]
    simp only [hunit, List.drop_left, hv, bind, Except.bind]
    rfl

end Script

/-! ## Programs -/

/-- Loose nodes become the last roots. -/
theorem foldl_pushRoot {r : Registry} {ids loose : List NodeId} (h : Tidy r w (ids ++ loose))
    (hnd : ids.Nodup) (hfree : ∀ x ∈ ids, x ∉ loose) (hreal : ∀ x ∈ ids, w.IsReal x) :
    ids.foldl pushRoot w = { w with roots := w.roots ++ ids } ∧
      Tidy r { w with roots := w.roots ++ ids } loose := by
  induction ids generalizing w with
  | nil =>
    rw [List.append_nil]
    exact ⟨rfl, h⟩
  | cons c ids ih =>
    rw [List.nodup_cons] at hnd
    rw [List.forall_mem_cons] at hfree hreal
    obtain ⟨n, hn, hp⟩ := h.forest.loose_there (List.mem_append_left _ List.mem_cons_self)
    have hpush : w.pushRoot c = { w with roots := w.roots ++ [c] } := by
      rw [pushRoot, hn]
      refine eq_of_get? (fun x => ?_) rfl rfl
      show (w.update c _).get? x = w.get? x
      rw [get?_update]
      split
      · next hx =>
        rw [hx, hn, Option.map_some, ← hp]
      · rfl
    have hnot : c ∉ ids ++ loose := by
      rw [List.mem_append, not_or]
      exact ⟨hnd.1, hfree.1⟩
    have hroots := List.append_assoc w.roots [c] ids
    obtain ⟨hfold, htidy⟩ := ih (h.addRoot hnot hreal.1) hnd.2 hfree.2 hreal.2
    rw [List.foldl_cons, hpush]
    rw [hroots] at hfold htidy
    exact ⟨hfold, htidy⟩

/-- A program that was read into nothing stands at the roots. -/
theorem Script.Reads.pushed {t : Script} {ids : List NodeId} (h : t.Reads {} [] v ids) :
    Tidy .builtin (ids.foldl pushRoot v) ∧
      t.Stands (ids.foldl pushRoot v) 0 (ids.foldl pushRoot v).nextId
        (ids.foldl pushRoot v).roots := by
  obtain ⟨hfold, htidy⟩ := foldl_pushRoot h.tidy h.nodup (fun _ _ => List.not_mem_nil) h.real
  have hroots : v.roots ++ ids = ids := congrArg (· ++ ids) h.grown.roots
  rw [hroots] at hfold htidy
  rw [hfold]
  refine ⟨htidy, ?_⟩
  exact h.stands.mono (fun x n _ _ hn => ⟨n, hn, .refl n⟩) (Nat.le_refl _) (Nat.le_refl _)

/-- From the outline of a program comes a workspace in which the program stands. -/
theorem Script.build_ok {t : Script} {s : Setup} {items : List Item} (hr : s.registry = .builtin)
    (h : t.Proper true) (hnoop : s.options.noop.toList ∉ t.lines)
    (hitems : (t.sheet s.options.noop.toList).Items items) :
    ∃ w, build s items = .ok w ∧ Tidy .builtin w ∧ t.Stands w 0 w.nextId w.roots := by
  obtain ⟨hsheet, hheight⟩ := filter_items h hnoop (.inl hitems)
  obtain ⟨v, ids, hv, hreads⟩ := readUnits_ok h hnoop hsheet hheight (Nat.le_refl _)
    (Tidy.empty (r := .builtin))
  refine ⟨_, ?_, hreads.pushed⟩
  rw [build, hr, readLevel_eq, hv]

end BlockText

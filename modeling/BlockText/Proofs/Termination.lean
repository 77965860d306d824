import BlockText.Proofs.Attribution

/-!
# Reading comes to an end

The reader counts down: expressions are read to a depth, levels unit by unit up to a number, blocks
to a depth. This module says what reading is without the counters. A run is a finite derivation: an
expression is read by reading its operands, a level by reading the unit at its front and then what
the unit leaves, a unit by reading its expressions and its blocks. No rule is for a counter that has
run out. Every expression and every level has exactly one run, and its outcome is what the reader
answers. That is so since an operand is shorter than its expression, a unit takes at least one item,
and a block is less deep than the level it stands in.
-/

namespace BlockText.Program

open Text

/-! ## Runs -/

/-- What the first value idiom that fits makes of a source. -/
def recovered (r : Registry) (source : List Char) : Option (Extraction × Blueprint × List Char) :=
  r.valueIdioms.findSome? fun d => d.recover (trim source)

mutual

/-- Reading an expression comes to an outcome. -/
inductive ExpressionRun (r : Registry) :
    Nat → List Char → Workspace → Except Failure (Workspace × NodeId) → Prop where
  | unsupported {line : Nat} {source : List Char} {w : Workspace}
      (hfit : recovered r source = none) :
      ExpressionRun r line source w (.error ⟨line, trim source, .unsupportedExpression⟩)
  | refused {line : Nat} {source matched : List Char} {w u : Workspace} {e : Extraction}
      {b : Blueprint} {cause : EditError} (hfit : recovered r source = some (e, b, matched))
      (hmake : w.make r b = (u, .error cause)) :
      ExpressionRun r line source w (.error ⟨line, trim source, .misplaced cause⟩)
  | node {line : Nat} {source matched : List Char} {w u : Workspace} {e : Extraction}
      {b : Blueprint} {x : NodeId} {outcome : Except Failure Workspace}
      (hfit : recovered r source = some (e, b, matched)) (hmake : w.make r b = (u, .ok x))
      (hoperands : SourcesRun r (fun _ => line) x e.values u outcome) :
      ExpressionRun r line source w (outcome.map fun v => (v, x))

/-- Reading the sources of some inputs of a node, and attaching what was read, comes to an
outcome. -/
inductive SourcesRun (r : Registry) : (List Char → Nat) → NodeId → List (String × List Char) →
    Workspace → Except Failure Workspace → Prop where
  | nil {lineOf : List Char → Nat} {x : NodeId} {w : Workspace} : SourcesRun r lineOf x [] w (.ok w)
  | failed {lineOf : List Char → Nat} {x : NodeId} {input : String} {source : List Char}
      {sources : List (String × List Char)} {w : Workspace} {f : Failure}
      (hread : ExpressionRun r (lineOf source) source w (.error f)) :
      SourcesRun r lineOf x ((input, source) :: sources) w (.error f)
  | refused {lineOf : List Char → Nat} {x child : NodeId} {input : String} {source : List Char}
      {sources : List (String × List Char)} {w u : Workspace} {f : Failure}
      (hread : ExpressionRun r (lineOf source) source w (.ok (u, child)))
      (hattach : attach u (lineOf source) x input source child = .error f) :
      SourcesRun r lineOf x ((input, source) :: sources) w (.error f)
  | cons {lineOf : List Char → Nat} {x child : NodeId} {input : String} {source : List Char}
      {sources : List (String × List Char)} {w u v : Workspace}
      {outcome : Except Failure Workspace}
      (hread : ExpressionRun r (lineOf source) source w (.ok (u, child)))
      (hattach : attach u (lineOf source) x input source child = .ok v)
      (hrest : SourcesRun r lineOf x sources v outcome) :
      SourcesRun r lineOf x ((input, source) :: sources) w outcome

end

mutual

/-- Reading the units of a level, which has no placeholders, comes to an outcome. -/
inductive UnitsRun (r : Registry) (o : Options) :
    Bool → List Item → Workspace → Except Failure (Workspace × List NodeId) → Prop where
  | nil {top : Bool} {w : Workspace} : UnitsRun r o top [] w (.ok (w, []))
  | unmatched {top : Bool} {item : Item} {items : List Item} {w : Workspace}
      (hmatch : matchUnit r top (item :: items) = none) :
      UnitsRun r o top (item :: items) w (.error (unmatched item))
  | failed {top : Bool} {item : Item} {items : List Item} {w : Workspace} {m : Match} {f : Failure}
      (hmatch : matchUnit r top (item :: items) = some m) (hunit : UnitRun r o m w (.error f)) :
      UnitsRun r o top (item :: items) w (.error f)
  | cons {top : Bool} {item : Item} {items : List Item} {w u : Workspace} {m : Match} {x : NodeId}
      {outcome : Except Failure (Workspace × List NodeId)}
      (hmatch : matchUnit r top (item :: items) = some m) (hunit : UnitRun r o m w (.ok (u, x)))
      (hrest : UnitsRun r o top ((item :: items).drop m.covered.length) u outcome) :
      UnitsRun r o top (item :: items) w (outcome.map fun p => (p.1, x :: p.2))

/-- Reading a unit comes to an outcome. -/
inductive UnitRun (r : Registry) (o : Options) :
    Match → Workspace → Except Failure (Workspace × NodeId) → Prop where
  | refused {m : Match} {w u : Workspace} {cause : EditError}
      (hmake : w.make r m.blueprint = (u, .error cause)) :
      UnitRun r o m w (.error ⟨m.start.1, m.start.2, .misplaced cause⟩)
  | failed {m : Match} {w u : Workspace} {x : NodeId} {f : Failure}
      (hmake : w.make r m.blueprint = (u, .ok x))
      (hvalues : SourcesRun r (lineOf m.covered m.start.1) x m.extraction.values u (.error f)) :
      UnitRun r o m w (.error f)
  | node {m : Match} {w u v : Workspace} {x : NodeId} {outcome : Except Failure Workspace}
      (hmake : w.make r m.blueprint = (u, .ok x))
      (hvalues : SourcesRun r (lineOf m.covered m.start.1) x m.extraction.values u (.ok v))
      (hbodies : BlocksRun r o m.start x (m.extraction.bodies.zip (blocks m.covered)) v outcome) :
      UnitRun r o m w (outcome.map fun v => (v, x))

/-- Reading the blocks of a unit, and attaching what was read, comes to an outcome. -/
inductive BlocksRun (r : Registry) (o : Options) : Nat × List Char → NodeId →
    List (String × List Item) → Workspace → Except Failure Workspace → Prop where
  | nil {start : Nat × List Char} {x : NodeId} {w : Workspace} : BlocksRun r o start x [] w (.ok w)
  | failed {start : Nat × List Char} {x : NodeId} {input : String} {inner : List Item}
      {bodies : List (String × List Item)} {w : Workspace} {f : Failure}
      (hread : UnitsRun r o false (level o inner) w (.error f)) :
      BlocksRun r o start x ((input, inner) :: bodies) w (.error f)
  | refused {start : Nat × List Char} {x : NodeId} {children : List NodeId} {input : String}
      {inner : List Item} {bodies : List (String × List Item)} {w u : Workspace} {f : Failure}
      (hread : UnitsRun r o false (level o inner) w (.ok (u, children)))
      (hattach : attachBody start.1 start.2 x input children u = .error f) :
      BlocksRun r o start x ((input, inner) :: bodies) w (.error f)
  | cons {start : Nat × List Char} {x : NodeId} {children : List NodeId} {input : String}
      {inner : List Item} {bodies : List (String × List Item)} {w u v : Workspace}
      {outcome : Except Failure Workspace}
      (hread : UnitsRun r o false (level o inner) w (.ok (u, children)))
      (hattach : attachBody start.1 start.2 x input children u = .ok v)
      (hrest : BlocksRun r o start x bodies v outcome) :
      BlocksRun r o start x ((input, inner) :: bodies) w outcome

end

variable {r : Registry} {o : Options} {top : Bool} {line depth : Nat} {source matched : List Char}
  {w u v : Workspace} {x : NodeId} {e : Extraction} {b : Blueprint} {m : Match} {f : Failure}
  {items inner : List Item}

/-! ## Expressions -/

section Expressions

variable {read read' : Nat → List Char → Workspace → Except Failure (Workspace × NodeId)}
  {lineOf : List Char → Nat} {sources : List (String × List Char)}

/-- Only the sources matter to how they are read. -/
theorem attachAll_congr (h : ∀ s ∈ sources, ∀ line w, read line s.2 w = read' line s.2 w)
    (w : Workspace) : attachAll read lineOf x sources w = attachAll read' lineOf x sources w := by
  induction sources generalizing w with
  | nil => rfl
  | cons s sources ih =>
    rw [List.forall_mem_cons] at h
    rw [attachAll, attachAll, h.1]
    refine congrArg (_ >>= ·) (funext fun p => ?_)
    exact congrArg (_ >>= ·) (funext (ih h.2))

/-- An operand is shorter than its expression. -/
theorem length_lt_of_recovered (hr : r.Selected)
    (hfit : recovered r source = some (e, b, matched)) :
    ∀ s ∈ e.values, s.2.length < source.length := by
  intro s hs
  obtain ⟨d, hd, hrecover⟩ := List.exists_of_findSome?_eq_some hfit
  rw [Registry.valueIdioms, List.mem_filter, Bool.and_eq_true] at hd
  obtain ⟨k, rfl⟩ := hr.exists_kind hd.1
  have hproper := k.isProper_of_recover hd.2.2 hrecover s hs
  exact Nat.lt_of_lt_of_le hproper.2 (infix_trim source).length_le

theorem readExpressionUpTo_unsupported (hfit : recovered r source = none) :
    readExpressionUpTo r (depth + 1) line source w =
      .error ⟨line, trim source, .unsupportedExpression⟩ := by
  rw [recovered] at hfit
  rw [readExpressionUpTo]
  simp only [hfit]

theorem readExpressionUpTo_refused {cause : EditError}
    (hfit : recovered r source = some (e, b, matched)) (hmake : w.make r b = (u, .error cause)) :
    readExpressionUpTo r (depth + 1) line source w =
      .error ⟨line, trim source, .misplaced cause⟩ := by
  rw [recovered] at hfit
  rw [readExpressionUpTo]
  simp only [hfit, hmake]

theorem readExpressionUpTo_node (hfit : recovered r source = some (e, b, matched))
    (hmake : w.make r b = (u, .ok x)) : readExpressionUpTo r (depth + 1) line source w =
      (attachAll (readExpressionUpTo r depth) (fun _ => line) x e.values u).map
        fun v => (v, x) := by
  rw [recovered] at hfit
  rw [readExpressionUpTo]
  simp only [hfit, hmake]
  cases attachAll (readExpressionUpTo r depth) (fun _ => line) x e.values u <;> rfl

/-- Depths that are greater than the length of a source read it alike. -/
theorem readExpressionUpTo_of_lt (hr : r.Selected) {depth' : Nat} (h : source.length < depth)
    (h' : source.length < depth') (line : Nat) (w : Workspace) :
    readExpressionUpTo r depth line source w = readExpressionUpTo r depth' line source w := by
  induction depth generalizing depth' source line w with
  | zero => cases h
  | succ depth ih =>
    obtain ⟨depth', rfl⟩ := Nat.exists_eq_succ_of_ne_zero (Nat.ne_zero_of_lt h')
    cases hfit : recovered r source with
    | none => rw [readExpressionUpTo_unsupported hfit, readExpressionUpTo_unsupported hfit]
    | some p =>
      obtain ⟨e, b, matched⟩ := p
      cases hmake : w.make r b with
      | mk u made =>
        cases made with
        | error cause =>
          rw [readExpressionUpTo_refused hfit hmake, readExpressionUpTo_refused hfit hmake]
        | ok x =>
          rw [readExpressionUpTo_node hfit hmake, readExpressionUpTo_node hfit hmake]
          refine congrArg (Except.map _) (attachAll_congr (fun s hs line w => ?_) u)
          have hlt := length_lt_of_recovered hr hfit s hs
          exact ih (by omega) (by omega) line w

/-- The operands of an expression are read as expressions, and no depth is left to be seen. -/
theorem readExpression_node (hr : r.Selected) (hfit : recovered r source = some (e, b, matched))
    (hmake : w.make r b = (u, .ok x)) : readExpression r line source w =
      (attachAll (readExpression r) (fun _ => line) x e.values u).map fun v => (v, x) := by
  rw [readExpression, readExpressionUpTo_node hfit hmake]
  refine congrArg (Except.map _) (attachAll_congr (fun s hs line w => ?_) u)
  have hlt := length_lt_of_recovered hr hfit s hs
  exact readExpressionUpTo_of_lt hr hlt (Nat.lt_succ_self _) line w

theorem attachAll_failed {input : String} (hread : read (lineOf source) source w = .error f) :
    attachAll read lineOf x ((input, source) :: sources) w = .error f := by
  rw [attachAll, hread]
  rfl

theorem attachAll_refused {input : String} {child : NodeId}
    (hread : read (lineOf source) source w = .ok (u, child))
    (hattach : attach u (lineOf source) x input source child = .error f) :
    attachAll read lineOf x ((input, source) :: sources) w = .error f := by
  rw [attachAll, hread]
  exact congrArg (· >>= _) hattach

theorem attachAll_cons {input : String} {child : NodeId}
    (hread : read (lineOf source) source w = .ok (u, child))
    (hattach : attach u (lineOf source) x input source child = .ok v) :
    attachAll read lineOf x ((input, source) :: sources) w =
      attachAll read lineOf x sources v := by
  rw [attachAll, hread]
  exact congrArg (· >>= _) hattach

/-- Sources whose expressions have one run each have one run. -/
theorem sourcesRun_iff (h : ∀ s ∈ sources, ∀ line w outcome,
      ExpressionRun r line s.2 w outcome ↔ readExpression r line s.2 w = outcome)
    {outcome : Except Failure Workspace} : SourcesRun r lineOf x sources w outcome ↔
      attachAll (readExpression r) lineOf x sources w = outcome := by
  induction sources generalizing w outcome with
  | nil =>
    constructor
    · intro hrun
      cases hrun
      rfl
    · rintro rfl
      exact .nil
  | cons s sources ih =>
    obtain ⟨input, source⟩ := s
    rw [List.forall_mem_cons] at h
    have hsource := h.1 (lineOf source) w
    constructor
    · intro hrun
      cases hrun with
      | failed hread => exact attachAll_failed ((hsource _).mp hread)
      | refused hread hattach => exact attachAll_refused ((hsource _).mp hread) hattach
      | cons hread hattach hrest =>
        rw [attachAll_cons ((hsource _).mp hread) hattach]
        exact (ih h.2).mp hrest
    · rintro rfl
      cases hread : readExpression r (lineOf source) source w with
      | error f =>
        rw [attachAll_failed hread]
        exact .failed ((hsource _).mpr hread)
      | ok p =>
        obtain ⟨u, child⟩ := p
        have hrun := (hsource _).mpr hread
        cases hattach : attach u (lineOf source) x input source child with
        | error f =>
          rw [attachAll_refused hread hattach]
          exact .refused hrun hattach
        | ok v =>
          rw [attachAll_cons hread hattach]
          exact .cons hrun hattach ((ih h.2).mpr rfl)

/-- Every expression has one run, and its outcome is what the reader answers. -/
theorem expressionRun_iff (hr : r.Selected) {outcome : Except Failure (Workspace × NodeId)} :
    ExpressionRun r line source w outcome ↔ readExpression r line source w = outcome := by
  -- by induction on the length of the source: the operands are shorter
  induction hn : source.length using Nat.strongRecOn generalizing line source w outcome with
  | ind n ih =>
    subst hn
    have hoperands {e : Extraction} {b : Blueprint} {matched : List Char}
        (hfit : recovered r source = some (e, b, matched)) {x : NodeId} {u : Workspace}
        {outcome : Except Failure Workspace} : SourcesRun r (fun _ => line) x e.values u outcome ↔
          attachAll (readExpression r) (fun _ => line) x e.values u = outcome :=
      sourcesRun_iff fun s hs line w outcome =>
        ih s.2.length (length_lt_of_recovered hr hfit s hs) rfl
    constructor
    · intro hrun
      cases hrun with
      | unsupported hfit => exact readExpressionUpTo_unsupported hfit
      | refused hfit hmake => exact readExpressionUpTo_refused hfit hmake
      | node hfit hmake hrun => rw [readExpression_node hr hfit hmake, (hoperands hfit).mp hrun]
    · rintro rfl
      cases hfit : recovered r source with
      | none =>
        rw [readExpression, readExpressionUpTo_unsupported hfit]
        exact .unsupported hfit
      | some p =>
        obtain ⟨e, b, matched⟩ := p
        cases hmake : w.make r b with
        | mk u made =>
          cases made with
          | error cause =>
            rw [readExpression, readExpressionUpTo_refused hfit hmake]
            exact .refused hfit hmake
          | ok x =>
            rw [readExpression_node hr hfit hmake]
            exact .node hfit hmake ((hoperands hfit).mpr rfl)

end Expressions

/-! ## Units -/

section Units

variable {readBlock : List Item → Workspace → Except Failure (Workspace × List NodeId)}
  {start : Nat × List Char} {bodies : List (String × List Item)}

/-- A unit and what it leaves make up the level, and it leaves less. -/
theorem rest_of_matchUnit (h : matchUnit r top items = some m) :
    blocks items = blocks m.covered ++ blocks (items.drop m.covered.length) ∧
      (items.drop m.covered.length).length < items.length := by
  obtain ⟨d, -, matched, -, hpos, hle, hcovered, -⟩ := exists_of_matchUnit h
  rw [hcovered, List.length_take_of_le hle, ← blocks_append, List.take_append_drop,
    List.length_drop]
  exact ⟨rfl, by omega⟩

theorem attachBodies_failed {input : String} (hread : readBlock inner w = .error f) :
    attachBodies readBlock start.1 start.2 x ((input, inner) :: bodies) w = .error f := by
  rw [attachBodies, hread]
  rfl

theorem attachBodies_refused {input : String} {children : List NodeId}
    (hread : readBlock inner w = .ok (u, children))
    (hattach : attachBody start.1 start.2 x input children u = .error f) :
    attachBodies readBlock start.1 start.2 x ((input, inner) :: bodies) w = .error f := by
  rw [attachBodies, hread]
  exact congrArg (· >>= _) hattach

theorem attachBodies_cons {input : String} {children : List NodeId}
    (hread : readBlock inner w = .ok (u, children))
    (hattach : attachBody start.1 start.2 x input children u = .ok v) :
    attachBodies readBlock start.1 start.2 x ((input, inner) :: bodies) w =
      attachBodies readBlock start.1 start.2 x bodies v := by
  rw [attachBodies, hread]
  exact congrArg (· >>= _) hattach

/-- Blocks that have one run each, as levels, have one run. -/
theorem blocksRun_iff (h : ∀ p ∈ bodies, ∀ w outcome,
      UnitsRun r o false (level o p.2) w outcome ↔ readBlock p.2 w = outcome)
    {outcome : Except Failure Workspace} : BlocksRun r o start x bodies w outcome ↔
      attachBodies readBlock start.1 start.2 x bodies w = outcome := by
  induction bodies generalizing w outcome with
  | nil =>
    constructor
    · intro hrun
      cases hrun
      rfl
    · rintro rfl
      exact .nil
  | cons p bodies ih =>
    obtain ⟨input, inner⟩ := p
    rw [List.forall_mem_cons] at h
    have hinner := h.1 w
    constructor
    · intro hrun
      cases hrun with
      | failed hread => exact attachBodies_failed ((hinner _).mp hread)
      | refused hread hattach => exact attachBodies_refused ((hinner _).mp hread) hattach
      | cons hread hattach hrest =>
        rw [attachBodies_cons ((hinner _).mp hread) hattach]
        exact (ih h.2).mp hrest
    · rintro rfl
      cases hread : readBlock inner w with
      | error f =>
        rw [attachBodies_failed hread]
        exact .failed ((hinner _).mpr hread)
      | ok p =>
        obtain ⟨u, children⟩ := p
        have hrun := (hinner _).mpr hread
        cases hattach : attachBody start.1 start.2 x input children u with
        | error f =>
          rw [attachBodies_refused hread hattach]
          exact .refused hrun hattach
        | ok v =>
          rw [attachBodies_cons hread hattach]
          exact .cons hrun hattach ((ih h.2).mpr rfl)

theorem readUnit_refused {cause : EditError} (hmake : w.make r m.blueprint = (u, .error cause)) :
    readUnit r readBlock m w = .error ⟨m.start.1, m.start.2, .misplaced cause⟩ := by
  simp only [readUnit, hmake]
  rfl

theorem readUnit_failed (hmake : w.make r m.blueprint = (u, .ok x))
    (hvalues : attachAll (readExpression r) (lineOf m.covered m.start.1) x m.extraction.values u =
      .error f) : readUnit r readBlock m w = .error f := by
  simp only [readUnit, hmake]
  exact congrArg (· >>= _) hvalues

theorem readUnit_node (hmake : w.make r m.blueprint = (u, .ok x))
    (hvalues : attachAll (readExpression r) (lineOf m.covered m.start.1) x m.extraction.values u =
      .ok v) : readUnit r readBlock m w = (attachBodies readBlock m.start.1 m.start.2 x
        (m.extraction.bodies.zip (blocks m.covered)) v).map fun v => (v, x) := by
  simp only [readUnit, hmake]
  refine (congrArg (· >>= _) hvalues).trans ?_
  show (attachBodies readBlock m.start.1 m.start.2 x
    (m.extraction.bodies.zip (blocks m.covered)) v >>= _) = _
  cases attachBodies readBlock m.start.1 m.start.2 x
    (m.extraction.bodies.zip (blocks m.covered)) v <;> rfl

/-- A unit whose blocks have one run each has one run. -/
theorem unitRun_iff (hr : r.Selected) (h : ∀ inner ∈ blocks m.covered, ∀ w outcome,
      UnitsRun r o false (level o inner) w outcome ↔ readBlock inner w = outcome)
    {outcome : Except Failure (Workspace × NodeId)} : UnitRun r o m w outcome ↔
      readUnit r readBlock m w = outcome := by
  have hsources {u : Workspace} {x : NodeId} {outcome : Except Failure Workspace} :
      SourcesRun r (lineOf m.covered m.start.1) x m.extraction.values u outcome ↔
        attachAll (readExpression r) (lineOf m.covered m.start.1) x m.extraction.values u =
          outcome :=
    sourcesRun_iff fun _ _ _ _ _ => expressionRun_iff hr
  have hblocks {v : Workspace} {x : NodeId} {outcome : Except Failure Workspace} :
      BlocksRun r o m.start x (m.extraction.bodies.zip (blocks m.covered)) v outcome ↔
        attachBodies readBlock m.start.1 m.start.2 x
          (m.extraction.bodies.zip (blocks m.covered)) v = outcome :=
    blocksRun_iff fun p hp => h p.2 (List.of_mem_zip hp).2
  constructor
  · intro hrun
    cases hrun with
    | refused hmake => exact readUnit_refused hmake
    | failed hmake hvalues => exact readUnit_failed hmake (hsources.mp hvalues)
    | node hmake hvalues hbodies =>
      rw [readUnit_node hmake (hsources.mp hvalues), hblocks.mp hbodies]
  · rintro rfl
    cases hmake : w.make r m.blueprint with
    | mk u made =>
      cases made with
      | error cause =>
        rw [readUnit_refused hmake]
        exact .refused hmake
      | ok x =>
        cases hvalues : attachAll (readExpression r) (lineOf m.covered m.start.1) x
            m.extraction.values u with
        | error f =>
          rw [readUnit_failed hmake hvalues]
          exact .failed hmake (hsources.mpr hvalues)
        | ok v =>
          rw [readUnit_node hmake hvalues]
          exact .node hmake (hsources.mpr hvalues) (hblocks.mpr rfl)

end Units

/-! ## Levels -/

section Levels

variable {readBlock : List Item → Workspace → Except Failure (Workspace × List NodeId)}
  {bound : Nat} {item : Item}

theorem readUnits_unmatched (hmatch : matchUnit r top (item :: items) = none) :
    readUnits r top readBlock bound (item :: items) w = .error (unmatched item) := by
  cases bound with
  | zero => rfl
  | succ bound =>
    rw [readUnits]
    simp only [hmatch]

theorem readUnits_failed (hmatch : matchUnit r top (item :: items) = some m)
    (hunit : readUnit r readBlock m w = .error f) :
    readUnits r top readBlock (bound + 1) (item :: items) w = .error f := by
  rw [readUnits]
  simp only [hmatch, hunit]
  rfl

theorem readUnits_cons (hmatch : matchUnit r top (item :: items) = some m)
    (hunit : readUnit r readBlock m w = .ok (u, x)) :
    readUnits r top readBlock (bound + 1) (item :: items) w =
      (readUnits r top readBlock bound ((item :: items).drop m.covered.length) u).map
        fun p => (p.1, x :: p.2) := by
  rw [readUnits]
  simp only [hmatch, hunit]
  show (readUnits r top readBlock bound ((item :: items).drop m.covered.length) u >>= _) = _
  cases readUnits r top readBlock bound ((item :: items).drop m.covered.length) u <;> rfl

/-- The units of a level have one run if its blocks do, and no bound that is as great as the level
is long makes a difference. -/
theorem unitsRun_iff (hr : r.Selected) (h : ∀ inner ∈ blocks items, ∀ w outcome,
      UnitsRun r o false (level o inner) w outcome ↔ readBlock inner w = outcome)
    (hbound : items.length ≤ bound) {outcome : Except Failure (Workspace × List NodeId)} :
    UnitsRun r o top items w outcome ↔ readUnits r top readBlock bound items w = outcome := by
  induction bound generalizing items w outcome with
  | zero =>
    obtain rfl := List.eq_nil_of_length_eq_zero (Nat.le_zero.mp hbound)
    constructor
    · intro hrun
      cases hrun
      rfl
    · rintro rfl
      exact .nil
  | succ bound ih =>
    cases items with
    | nil =>
      constructor
      · intro hrun
        cases hrun
        rfl
      · rintro rfl
        exact .nil
    | cons item items =>
      have hunit {m : Match} (hmatch : matchUnit r top (item :: items) = some m)
          {outcome : Except Failure (Workspace × NodeId)} :
          UnitRun r o m w outcome ↔ readUnit r readBlock m w = outcome := by
        rw [(rest_of_matchUnit hmatch).1, List.forall_mem_append] at h
        exact unitRun_iff hr h.1
      -- a unit takes one item at least, so the bound is enough for what it leaves
      have hrest {m : Match} (hmatch : matchUnit r top (item :: items) = some m) {u : Workspace}
          {outcome : Except Failure (Workspace × List NodeId)} :
          UnitsRun r o top ((item :: items).drop m.covered.length) u outcome ↔
            readUnits r top readBlock bound ((item :: items).drop m.covered.length) u =
              outcome := by
        obtain ⟨hblocks, hlt⟩ := rest_of_matchUnit hmatch
        rw [hblocks, List.forall_mem_append] at h
        exact ih h.2 (by omega)
      constructor
      · intro hrun
        cases hrun with
        | unmatched hmatch => exact readUnits_unmatched hmatch
        | failed hmatch hrun => exact readUnits_failed hmatch ((hunit hmatch).mp hrun)
        | cons hmatch hrun hruns =>
          rw [readUnits_cons hmatch ((hunit hmatch).mp hrun), (hrest hmatch).mp hruns]
      · rintro rfl
        cases hmatch : matchUnit r top (item :: items) with
        | none =>
          rw [readUnits_unmatched hmatch]
          exact .unmatched hmatch
        | some m =>
          cases hread : readUnit r readBlock m w with
          | error f =>
            rw [readUnits_failed hmatch hread]
            exact .failed hmatch ((hunit hmatch).mpr hread)
          | ok p =>
            obtain ⟨u, x⟩ := p
            rw [readUnits_cons hmatch hread]
            exact .cons hmatch ((hunit hmatch).mpr hread) ((hrest hmatch).mpr rfl)

/-- Every level has one run, and its outcome is what the reader answers. A depth that is as great
as blocks are nested makes no difference. -/
theorem levelRun_iff (hr : r.Selected) (hdepth : Item.heightAll items ≤ depth)
    {outcome : Except Failure (Workspace × List NodeId)} :
    UnitsRun r o top (level o items) w outcome ↔ readLevel r o depth top items w = outcome := by
  induction depth generalizing top items w outcome with
  | zero =>
    rw [readLevel_eq]
    refine unitsRun_iff hr (fun inner hinner => ?_) (Nat.le_refl _)
    have hlt := heightAll_lt_of_mem_blocks hinner
    have hle := heightAll_level_le o items
    omega
  | succ depth ih =>
    rw [readLevel_eq]
    refine unitsRun_iff hr (fun inner hinner w outcome => ih ?_) (Nat.le_refl _)
    have hlt := heightAll_lt_of_mem_blocks hinner
    have hle := heightAll_level_le o items
    omega

end Levels

/-- Reading ends on every text, however malformed. The operands that a value definition hands back
are shorter than the text it recovers, in characters and in bytes; a unit takes one item at least,
and no more than are left. So every expression and every level has a run, which is the only one: its
outcome is the answer of the reader. In particular the reader builds an outline from a run. -/
theorem reading_ends (hr : r.Selected) (rules : Rules) (o : Options) :
    (∀ k : Kind, k.definition.shape.role.isValue = true → ∀ source e b matched,
      k.definition.recover source = some (e, b, matched) →
        ∀ s ∈ e.values, s.2.length < source.length ∧ byteLength s.2 < byteLength source) ∧
    (∀ top items m, matchUnit r top items = some m →
      ∃ d ∈ r.statementIdioms top, ∃ matched : List Char,
        d.recover (spell items) = some (m.extraction, m.blueprint, matched) ∧
        0 < matched.count '\n' ∧ matched.count '\n' ≤ items.length ∧
        m.covered = items.take (matched.count '\n')) ∧
    (∀ line source w outcome,
      ExpressionRun r line source w outcome ↔ readExpression r line source w = outcome) ∧
    (∀ top items w outcome, UnitsRun r o top (level o items) w outcome ↔
      readLevel r o (Item.heightAll items) top items w = outcome) ∧
    ∀ items, ∃ outcome, UnitsRun r o true (level o items) {} outcome ∧
      build ⟨r, rules, o⟩ items = outcome.map fun p => p.2.foldl Workspace.pushRoot p.1 := by
  refine ⟨fun k hrole source e b matched hrecover s hs => ?_,
    fun top items m hmatch => ?_, fun line source w outcome => expressionRun_iff hr,
    fun top items w outcome => levelRun_iff hr (Nat.le_refl _), fun items => ?_⟩
  · have hproper := k.isProper_of_recover hrole hrecover s hs
    exact ⟨hproper.2, byteLength_lt_of_infix hproper.1 hproper.2⟩
  · obtain ⟨d, hd, matched, hrecover, hpos, hle, hcovered, -⟩ := exists_of_matchUnit hmatch
    exact ⟨d, hd, matched, hrecover, hpos, hle, hcovered⟩
  · refine ⟨_, (levelRun_iff hr (Nat.le_refl _)).mpr rfl, ?_⟩
    rw [build]
    cases readLevel r o (Item.heightAll items) true items {} <;> rfl

/-- An operand that is no expression, and a condition whose parenthesis is left open: reading ends
with a failure at the text that is at fault. -/
theorem reading_ends_malformed :
    ExpressionRun .builtin 1 "((1 + foo(2)) < (not x))".toList {}
      (.error ⟨1, "foo(2)".toList, .unsupportedExpression⟩) ∧
    UnitsRun .builtin {} true
      (level {} [.line 1 "while (not x:".toList, .block [.line 2 "basic.pause(".toList]]) {}
      (.error ⟨1, "(not x".toList, .unsupportedExpression⟩) := by
  obtain ⟨-, -, hexpressions, hlevels, -⟩ :=
    reading_ends Registry.selected_builtin .standard {}
  exact ⟨(hexpressions _ _ _ _).mpr (error_of_map (by decide +kernel)),
    (hlevels _ _ _ _).mpr (error_of_map (by decide +kernel))⟩

end BlockText.Program

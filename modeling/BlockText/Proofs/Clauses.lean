import BlockText.Proofs.Sentences

/-!
# Clauses

What a statement idiom takes from the front of any level, and not only of one that was written. It
takes rows of one line each, as many as its kind has header lines, with a block after those that
have a body, and it fills all inputs of its kind. There is one exception: the literal in a
`basic.show_string` may run over line ends, and then the lines that it takes are more than one.
-/

namespace BlockText

open Text Catalogue

theorem take_front {cs front rest : List Char} (h : cs = front ++ rest) :
    cs.take (cs.length - rest.length) = front := by
  rw [h, List.length_append, Nat.add_sub_cancel, List.take_left]

/-! ## What the parts of a pattern took -/

namespace Pattern

variable {p q : Pattern} {cs rest : List Char} {c : Captures} {name : String}

theorem scan_append_some (h : (p ++ q).scan cs = some (c, rest)) :
    ∃ c₁ mid c₂, p.scan cs = some (c₁, mid) ∧ q.scan mid = some (c₂, rest) ∧ c = c₁ ++ c₂ := by
  rw [scan_seq] at h
  obtain ⟨⟨c₁, mid⟩, hp, h⟩ := Option.bind_eq_some_iff.mp h
  obtain ⟨⟨c₂, rest'⟩, hq, he⟩ := Option.map_eq_some_iff.mp h
  cases he
  exact ⟨c₁, mid, c₂, hp, hq, rfl⟩

theorem scan_silent_some (h : (silent p).scan cs = some (c, rest)) :
    c = [] ∧ ∃ c', p.scan cs = some (c', rest) := by
  rw [scan] at h
  obtain ⟨r, hr, he⟩ := Option.map_eq_some_iff.mp h
  cases he
  exact ⟨rfl, r.1, hr⟩

theorem scan_whole_some (h : (whole name p).scan cs = some (c, rest)) :
    ∃ c', p.scan cs = some (c', rest) ∧
      c = (name, cs.take (cs.length - rest.length)) :: c' := by
  rw [scan] at h
  obtain ⟨r, hr, he⟩ := Option.map_eq_some_iff.mp h
  cases he
  exact ⟨r.1, hr, rfl⟩

theorem scan_lits_some {s : String} (h : (lits s).scan cs = some (c, rest)) :
    c = [] ∧ cs = s.toList ++ rest := by
  rw [lits, scan] at h
  obtain ⟨rest', hrest, he⟩ := Option.map_eq_some_iff.mp h
  cases he
  exact ⟨rfl, dropStart?_eq_some.mp hrest⟩

theorem scan_block_some (h : block.scan cs = some (c, rest)) : c = [] ∧ cs = blockMark ++ rest := by
  rw [scan] at h
  obtain ⟨rest', hrest, he⟩ := Option.map_eq_some_iff.mp h
  cases he
  exact ⟨rfl, dropStart?_eq_some.mp hrest⟩

theorem named_some {piece rest rest' : List Char} (h : named name piece rest = some (c, rest')) :
    c = [(name, piece)] ∧ rest' = rest ∧ piece ≠ [] := by
  unfold named at h
  split at h
  · cases h
  · next hempty =>
    cases h
    exact ⟨rfl, rfl, by simpa using hempty⟩

/-- A pattern for a part of a line. -/
def Inline (p : Pattern) : Prop :=
  ∀ cs c rest, p.scan cs = some (c, rest) → ∃ text, cs = text ++ rest ∧ '\n' ∉ text

theorem inline_lits {s : String} (h : '\n' ∉ s.toList) : (lits s).Inline := by
  intro cs c rest hs
  exact ⟨s.toList, (scan_lits_some hs).2, h⟩

theorem Inline.append (hp : p.Inline) (hq : q.Inline) : (p ++ q).Inline := by
  intro cs c rest h
  obtain ⟨c₁, mid, c₂, h₁, h₂, -⟩ := scan_append_some h
  obtain ⟨t₁, rfl, ht₁⟩ := hp _ _ _ h₁
  obtain ⟨t₂, rfl, ht₂⟩ := hq _ _ _ h₂
  refine ⟨t₁ ++ t₂, (List.append_assoc t₁ t₂ rest).symm, fun hn => ?_⟩
  exact (List.mem_append.mp hn).elim ht₁ ht₂

theorem scan_hole_some {ending : List Char} (h : (hole name ending).scan cs = some (c, rest)) :
    ∃ piece, c = [(name, piece)] ∧ cs = piece ++ rest ∧ FitsHole piece := by
  rw [scan] at h
  split at h
  · next piece hpiece =>
    obtain ⟨rfl, rfl, hne⟩ := named_some h
    -- the piece and the ending are the rest of the line
    obtain ⟨ts, hts, rfl⟩ := Option.map_eq_some_iff.mp hpiece
    have hline : cs.takeWhile (· != '\n') = ts.reverse ++ ending := by
      have := congrArg List.reverse (dropStart?_eq_some.mp hts)
      simpa using this
    refine ⟨ts.reverse, rfl, ?_, hne, fun hn => ?_⟩
    · rw [← List.append_assoc, ← hline, List.takeWhile_append_dropWhile]
    · have hmem : '\n' ∈ cs.takeWhile (· != '\n') := by
        rw [hline]
        exact List.mem_append_left _ hn
      have := List.all_eq_true.mp List.all_takeWhile _ hmem
      simp at this
  · cases h

theorem inline_hole (name : String) (ending : List Char) : (hole name ending).Inline := by
  intro cs c rest h
  obtain ⟨piece, -, hcs, hpiece⟩ := scan_hole_some h
  exact ⟨piece, hcs, hpiece.2⟩

theorem inline_run (name : String) {ranges : List (Char × Char)}
    (h : inRanges ranges '\n' = false) : (run name ranges).Inline := by
  intro cs c rest hs
  rw [scan] at hs
  obtain ⟨-, rfl, -⟩ := named_some hs
  refine ⟨_, List.takeWhile_append_dropWhile.symm, fun hn => ?_⟩
  rw [List.all_eq_true.mp List.all_takeWhile _ hn] at h
  cases h

theorem inline_oneOf (name : String) {options : List (List Char)}
    (h : ∀ o ∈ options, '\n' ∉ o) : (oneOf name options).Inline := by
  intro cs c rest hs
  rw [scan] at hs
  obtain ⟨⟨o, rest'⟩, ho, he⟩ := Option.map_eq_some_iff.mp hs
  cases he
  obtain ⟨hmem, hcs⟩ := firstOption?_eq_some ho
  exact ⟨o, hcs, h o hmem⟩

/-- A word has no character that ends one. -/
theorem scan_word_some (h : (word name).scan cs = some (c, rest)) :
    ∃ piece, c = [(name, piece)] ∧ cs = piece ++ rest ∧ ∀ d ∈ piece, Word.isPart d = true := by
  rw [scan] at h
  split at h
  · obtain ⟨rfl, rfl, -⟩ := named_some h
    exact ⟨_, rfl, List.takeWhile_append_dropWhile.symm, List.all_eq_true.mp List.all_takeWhile⟩
  · cases h

theorem inline_word (name : String) : (word name).Inline := by
  intro cs c rest h
  obtain ⟨piece, -, hcs, hpiece⟩ := scan_word_some h
  refine ⟨piece, hcs, fun hn => ?_⟩
  cases hpiece _ hn

theorem scan_literal_some (h : (literal name).scan cs = some (c, rest)) :
    ∃ piece, c = [(name, piece)] ∧ Quoted.span cs = some (piece, rest) := by
  rw [scan] at h
  obtain ⟨⟨piece, rest'⟩, hspan, he⟩ := Option.map_eq_some_iff.mp h
  cases he
  exact ⟨piece, rfl, hspan⟩

end Pattern

/-! ## Rows that were taken -/

/-- How a statement starts that shows a text. -/
def stringOpening : List Char := "basic.show_string(".toList

/-- A row of one line that shows no text. -/
structure Row.Plain (r : Row) : Prop where
  line : '\n' ∉ r.text
  opening : ¬ stringOpening <+: r.text

instance (r : Row) : Decidable r.Plain :=
  decidable_of_iff ('\n' ∉ r.text ∧ ¬ stringOpening <+: r.text)
    ⟨fun h => ⟨h.1, h.2⟩, fun h => ⟨h.line, h.opening⟩⟩

/-- How an item starts that goes on with a unit: a block, a further branch of a conditional, or the
line that registers a handler. -/
def furtherStarts : List (List Char) :=
  blockMark :: continuations ++
    ["on_start()".toList, "basic.forever(on_forever)".toList, "input.".toList]

/-- A text goes on with a unit. -/
def Continues (l : List Char) : Prop := ∃ o ∈ furtherStarts, o <+: l

instance (l : List Char) : Decidable (Continues l) := inferInstanceAs (Decidable (∃ o ∈ _, _))

theorem continues_append {start : List Char} (h : Continues start) (t : List Char) :
    Continues (start ++ t) := by
  obtain ⟨o, ho, hstart⟩ := h
  exact ⟨o, ho, hstart.trans (List.prefix_append start t)⟩

theorem Row.plain_start {start t : List Char} {body : Option String}
    (hstart : Apart start stringOpening) (hs : '\n' ∉ start) (ht : '\n' ∉ t) :
    Row.Plain ⟨start ++ t, body⟩ where
  line hn := (List.mem_append.mp hn).elim hs ht
  opening := hstart.not_startsWith (List.prefix_append _ _)

/-- The header lines of a block: a root also has the line that registers its handler, and a
conditional has one for each branch. -/
def Kind.headerLines (k : Kind) (m : Option Mutation) : Nat :=
  match k.definition.shape.role with
  | .root => 2
  | .statement => m.elim 1 fun m => 1 + m.elseIfs + if m.hasElse then 1 else 0
  | _ => 0

/-- An extraction has a source for each value input, in order, and names all statement inputs. -/
structure Extraction.Fills (e : Extraction) (s : Shape) : Prop where
  values : e.values.map (·.1) = s.valueInputs e.mutation
  bodies : e.bodies = s.statementInputs e.mutation
  mutation : e.mutation.isSome = s.isBranching

theorem Extraction.Fills.mutation_none {e : Extraction} {s : Shape} (h : e.Fills s)
    (hs : s.isBranching = false) : e.mutation = none := by
  rw [← Option.not_isSome_iff_eq_none, h.mutation, hs]
  exact Bool.false_ne_true

/-- What a statement idiom took, in rows. -/
structure Clause (k : Kind) (e : Extraction) (rows : List Row) : Prop where
  length : rows.length = k.headerLines e.mutation
  bodies : rows.filterMap Row.body = e.bodies
  plain : ∀ r ∈ rows, r.Plain
  further : ∀ r ∈ rows.tail, Continues r.text

namespace Catalogue

open Pattern Row

variable {cs rest : List Char} {c : Captures} {e : Extraction} {name : String}

/-- An idiom of one line takes its line. -/
theorem scan_line {p : Pattern} {close : String} {ending : List Char} (hp : p.Inline)
    (hclose : close.toList = ending ++ ['\n']) (hending : '\n' ∉ ending)
    (hstart : ¬ stringOpening <+: cs) (h : (p ++ lits close).scan cs = some (c, rest)) :
    ∃ text, cs = spellRows [⟨text, none⟩] ++ rest ∧ Row.Plain ⟨text, none⟩ := by
  obtain ⟨c₁, mid, c₂, h₁, h₂, -⟩ := scan_append_some h
  obtain ⟨text, rfl, htext⟩ := hp _ _ _ h₁
  obtain ⟨-, rfl⟩ := scan_lits_some h₂
  refine ⟨text ++ ending, by simp [spellRows, hclose], fun hn => ?_, fun hopening => hstart ?_⟩
  · exact (List.mem_append.mp hn).elim htext hending
  · refine hopening.trans ⟨'\n' :: rest, ?_⟩
    rw [hclose]
    simp

/-- A header with a body takes its line and the mark of the body. -/
theorem scan_header {start close : String} {ending : List Char}
    (hclose : close.toList = ending ++ ['\n'])
    (h : (lits start ++ hole name ending ++ lits close ++ block ++ lits "\n").scan cs =
      some (c, rest)) : ∃ piece, c = [(name, piece)] ∧ FitsHole piece ∧
        ∀ input, cs = spellRows [⟨start.toList ++ (piece ++ ending), some input⟩] ++ rest := by
  obtain ⟨c₄, m₄, c₅, h₄, h₅, rfl⟩ := scan_append_some h
  obtain ⟨c₃, m₃, _, h₃, hblock, rfl⟩ := scan_append_some h₄
  obtain ⟨c₂, m₂, _, h₂, hclosing, rfl⟩ := scan_append_some h₃
  obtain ⟨c₁, m₁, _, h₁, hhole, rfl⟩ := scan_append_some h₂
  obtain ⟨rfl, rfl⟩ := scan_lits_some h₁
  obtain ⟨piece, rfl, rfl, hpiece⟩ := scan_hole_some hhole
  obtain ⟨rfl, rfl⟩ := scan_lits_some hclosing
  obtain ⟨rfl, rfl⟩ := scan_block_some hblock
  obtain ⟨rfl, rfl⟩ := scan_lits_some h₅
  refine ⟨piece, rfl, hpiece, fun input => ?_⟩
  simp [spellRows, hclose, markedBody]

/-- A handler takes its header, the mark of its body and the line that registers it. -/
theorem scan_handler {event values : String} {p : String → Pattern} {q : Pattern}
    (hevent : '\n' ∉ event.toList) (hvalues : '\n' ∉ values.toList) (hp : ∀ n, (p n).Inline)
    (hq : q.Inline) (h : (handlerIdiom event values p q).scan cs = some (c, rest)) :
    ∃ handled registered, '\n' ∉ handled ∧ '\n' ∉ registered ∧ ∀ input, cs = spellRows
      [⟨"def ".toList ++ handled, some input⟩, ⟨"input.".toList ++ registered, none⟩] ++ rest := by
  obtain ⟨c₈, m₈, _, h₈, hend, -⟩ := scan_append_some h
  obtain ⟨c₇, m₇, _, h₇, hregistered, -⟩ := scan_append_some h₈
  obtain ⟨c₆, m₆, _, h₆, hcomma, -⟩ := scan_append_some h₇
  obtain ⟨c₅, m₅, _, h₅, hchoice, -⟩ := scan_append_some h₆
  obtain ⟨c₄, m₄, _, h₄, hinput, -⟩ := scan_append_some h₅
  obtain ⟨c₃, m₃, _, h₃, hblock, -⟩ := scan_append_some h₄
  obtain ⟨c₂, m₂, _, h₂, hcolon, -⟩ := scan_append_some h₃
  obtain ⟨c₁, m₁, _, h₁, hname, -⟩ := scan_append_some h₂
  obtain ⟨-, rfl⟩ := scan_lits_some h₁
  obtain ⟨t₂, rfl, ht₂⟩ := hp _ _ _ _ hname
  obtain ⟨-, rfl⟩ := scan_lits_some hcolon
  obtain ⟨-, rfl⟩ := scan_block_some hblock
  obtain ⟨-, rfl⟩ := scan_lits_some hinput
  obtain ⟨t₅, rfl, ht₅⟩ := hq _ _ _ hchoice
  obtain ⟨-, rfl⟩ := scan_lits_some hcomma
  obtain ⟨t₇, rfl, ht₇⟩ := hp _ _ _ _ hregistered
  obtain ⟨-, rfl⟩ := scan_lits_some hend
  refine ⟨event.toList ++ ('_' :: t₂ ++ "():".toList), event.toList ++ ('(' :: values.toList ++
    ('.' :: t₅ ++ (", ".toList ++ event.toList ++ ('_' :: t₇ ++ [')'])))), ?_, ?_, fun input => ?_⟩
  · simp [hevent, ht₂]
  · simp [hevent, hvalues, ht₅, ht₇]
  · simp [spellRows, markedBody]

theorem plain_handler {handled registered : List Char} {input : String} (hh : '\n' ∉ handled)
    (hr : '\n' ∉ registered) : ∀ r ∈ [(⟨"def ".toList ++ handled, some input⟩ : Row),
      ⟨"input.".toList ++ registered, none⟩], r.Plain := by
  rw [List.forall_mem_cons, List.forall_mem_singleton]
  exact ⟨plain_start (by decide) (by decide) hh, plain_start (by decide) (by decide) hr⟩

/-! ## What the extractors give -/

theorem readArguments_some {inputs : List String} (h : readArguments name inputs c = some e) :
    e.fields = [] ∧ e.values.map (·.1) = inputs ∧ e.bodies = [] ∧ e.mutation = none := by
  unfold readArguments at h
  simp only [Option.bind_eq_bind, Option.bind_eq_some_iff, Option.guard_eq_some', beq_iff_eq] at h
  obtain ⟨source, -, arguments, -, -, hlength, he⟩ := h
  obtain rfl := Option.some.inj he
  rw [foldl_value]
  refine ⟨rfl, ?_, rfl, rfl⟩
  rw [List.nil_append, List.map_map]
  exact List.map_fst_zip (Nat.le_of_eq hlength.symm)

/-- The extraction of a kind with fixed inputs fills them. -/
theorem fills_of_extract {k : Kind} (hk : k ≠ .ifElse) {extractor : Captures → Option Extraction}
    (hd : k.definition.extractor = some extractor) (h : extractor c = some e) :
    e.Fills k.definition.shape := by
  have arguments {inputs : List InputSpec} (hs : k.definition.shape.layout = .fixed inputs)
      (hv : inputs.filterMap InputSpec.value? = inputs.map InputSpec.name)
      (hb : inputs.filterMap InputSpec.statement? = [])
      (h : readArguments "args" (inputs.map InputSpec.name) c = some e) :
      e.Fills k.definition.shape := by
    obtain ⟨-, hvalues, hbodies, hmutation⟩ := readArguments_some h
    refine ⟨?_, ?_, ?_⟩
    · rw [hvalues, Shape.valueInputs, Shape.inputsFor, hs, hv]
    · rw [hbodies, Shape.statementInputs, Shape.inputsFor, hs, hb]
    · rw [hmutation, Shape.isBranching, hs]
      rfl
  cases k with
  | ifElse => exact absurd rfl hk
  | ifElseElseIf | ifElseElse => cases hd
  | onStart | forever | clearScreen | temperature =>
    obtain rfl := Option.some.inj hd
    cases h
    exact ⟨rfl, rfl, rfl⟩
  | showNumber | pause | displayShow | plot | unplot | playTone | mathRandom =>
    obtain rfl := Option.some.inj hd
    exact arguments rfl rfl rfl h
  | repeatTimes | whileLoop | logicBoolean | buttonIsPressed | acceleration =>
    obtain rfl := Option.some.inj hd
    obtain ⟨_, -, h⟩ := Option.bind_eq_some_iff.mp h
    cases h
    exact ⟨rfl, rfl, rfl⟩
  | showString | showIcon | showLeds | text | logicNegate | variablesGet =>
    obtain rfl := Option.some.inj hd
    obtain ⟨_, -, h⟩ := Option.bind_eq_some_iff.mp h
    obtain ⟨_, -, h⟩ := Option.bind_eq_some_iff.mp h
    cases h
    exact ⟨rfl, rfl, rfl⟩
  | setVariable | changeVariable | mathNumber =>
    obtain rfl := Option.some.inj hd
    obtain ⟨_, -, h⟩ := Option.bind_eq_some_iff.mp h
    obtain ⟨_, -, h⟩ := Option.bind_eq_some_iff.mp h
    obtain ⟨_, -, h⟩ := Option.bind_eq_some_iff.mp h
    cases h
    exact ⟨rfl, rfl, rfl⟩
  | logicCompare | logicOperation | mathArithmetic =>
    obtain rfl := Option.some.inj hd
    obtain ⟨_, -, h⟩ := Option.bind_eq_some_iff.mp h
    obtain ⟨_, -, h⟩ := Option.bind_eq_some_iff.mp h
    obtain ⟨_, -, h⟩ := Option.bind_eq_some_iff.mp h
    obtain ⟨_, -, h⟩ := Option.bind_eq_some_iff.mp h
    cases h
    exact ⟨rfl, rfl, rfl⟩
  | onButtonPressed | onGesture =>
    obtain rfl := Option.some.inj hd
    obtain ⟨_, -, h⟩ := Option.bind_eq_some_iff.mp h
    obtain ⟨_, -, h⟩ := Option.bind_eq_some_iff.mp h
    obtain ⟨_, -, h⟩ := Option.bind_eq_some_iff.mp h
    obtain ⟨_, -, h⟩ := Option.bind_eq_some_iff.mp h
    obtain ⟨_, -, h⟩ := Option.bind_eq_some_iff.mp h
    cases h
    exact ⟨rfl, rfl, rfl⟩

/-! ## The conditional -/

/-- Further branches are taken one after the other. -/
theorem iterate_branches {fuel : Nat}
    (h : iterate (branchIdiom "elif " "elif").scan fuel cs = (c, rest)) :
    ∃ pieces : List (List Char), (∀ t ∈ pieces, FitsHole t) ∧
      ∀ i, cs = spellRows (branchRows i pieces) ++ rest := by
  induction fuel generalizing cs c with
  | zero =>
    cases h
    exact ⟨[], by simp, fun _ => rfl⟩
  | succ fuel ih =>
    rw [iterate] at h
    split at h
    · cases h
      exact ⟨[], by simp, fun _ => rfl⟩
    · next c₁ mid hstep =>
      split at h
      · obtain ⟨piece, rfl, hpiece, hcs⟩ := scan_header rfl hstep
        generalize hmore : iterate _ fuel mid = r at h
        cases h
        obtain ⟨pieces, hpieces, hmid⟩ := ih hmore
        refine ⟨piece :: pieces, List.forall_mem_cons.mpr ⟨hpiece, hpieces⟩, fun i => ?_⟩
        rw [hcs (Conditional.body i), hmid (i + 1), ← List.append_assoc, spellRows, spellRows,
          ← List.flatMap_append]
        rfl
      · cases h
        exact ⟨[], by simp, fun _ => rfl⟩

theorem scan_elseIdiom_some (h : elseIdiom.scan cs = some (c, rest)) :
    c = [] ∧ cs = "else:\n".toList ++ (blockMark ++ '\n' :: rest) := by
  obtain ⟨c₂, m₂, _, h₂, hend, rfl⟩ := scan_append_some h
  obtain ⟨c₁, m₁, _, h₁, hblock, rfl⟩ := scan_append_some h₂
  obtain ⟨rfl, rfl⟩ := scan_lits_some h₁
  obtain ⟨rfl, rfl⟩ := scan_block_some hblock
  obtain ⟨rfl, rfl⟩ := scan_lits_some hend
  exact ⟨rfl, rfl⟩

theorem scan_else_some (h : (opt elseIdiom).scan cs = some (c, rest)) :
    c = [] ∧ ∃ m : Mutation, cs = spellRows (elseRows m) ++ rest := by
  rw [scan] at h
  cases hs : elseIdiom.scan cs with
  | none =>
    rw [hs] at h
    cases h
    exact ⟨rfl, ⟨0, false⟩, rfl⟩
  | some r =>
    rw [hs] at h
    cases h
    obtain ⟨hc, rfl⟩ := scan_elseIdiom_some hs
    exact ⟨hc, ⟨0, true⟩, by simp [spellRows, elseRows, markedBody]⟩

/-- A conditional takes its rows, whatever of them the pattern keeps. -/
theorem scan_conditional_some (h : conditionalIdiom.scan cs = some (c, rest)) :
    ∃ piece pieces m, (∀ t ∈ piece :: pieces, FitsHole t) ∧
      cs = spellRows (conditionalRows piece pieces m) ++ rest ∧
      c = conditionalCaptures piece pieces m := by
  obtain ⟨c₃, h₃, rfl⟩ := scan_whole_some h
  obtain ⟨c₂, m₂, _, h₂, helse, rfl⟩ := scan_append_some h₃
  obtain ⟨c₁, m₁, _, h₁, hsilent, rfl⟩ := scan_append_some h₂
  obtain ⟨piece, rfl, hpiece, hcs⟩ := scan_header rfl h₁
  obtain ⟨rfl, c', hmany⟩ := scan_silent_some hsilent
  rw [scan, Option.some.injEq] at hmany
  obtain ⟨pieces, hpieces, hm₁⟩ := iterate_branches hmany
  obtain ⟨rfl, m, rfl⟩ := scan_else_some helse
  have hrows : cs = spellRows (conditionalRows piece pieces m) ++ rest := by
    rw [hcs (Conditional.body 0), hm₁ 1]
    simp [conditionalRows, spellRows]
  refine ⟨piece, pieces, m, List.forall_mem_cons.mpr ⟨hpiece, hpieces⟩, hrows, ?_⟩
  rw [take_front hrows]
  rfl

/-- Whatever the pattern took, the second reading does not fail: it finds a branch for each row. -/
theorem readConditional_of_scan (h : conditionalIdiom.scan cs = some (c, rest)) :
    ∃ piece pieces m, (∀ t ∈ piece :: pieces, FitsHole t) ∧
      cs = spellRows (conditionalRows piece pieces m) ++ rest ∧
      readConditional c = some (conditionalExtraction piece pieces m) := by
  obtain ⟨piece, pieces, m, hpieces, hcs, rfl⟩ := scan_conditional_some h
  exact ⟨piece, pieces, m, hpieces, hcs, readConditional_captures hpieces⟩

variable {piece : List Char} {pieces : List (List Char)} {m : Mutation}

theorem fills_conditional : (conditionalExtraction piece pieces m).Fills ifElse.shape := by
  refine ⟨?_, ?_, rfl⟩
  · show List.map _ (List.map _ _) = (Conditional.inputs _).filterMap InputSpec.value?
    rw [Conditional.valueInputs_inputs, List.map_map]
    refine (map_zipIdx_snd Conditional.condition (piece :: pieces) 0).trans ?_
    simp [conditionalExtraction, Mutation.branches]
  · exact (Conditional.statementInputs_inputs ⟨pieces.length, m.hasElse⟩).symm

theorem clause_conditional (hpieces : ∀ t ∈ piece :: pieces, FitsHole t) :
    Clause .ifElse (conditionalExtraction piece pieces m) (conditionalRows piece pieces m) := by
  obtain ⟨hpiece, hpieces⟩ := List.forall_mem_cons.mp hpieces
  refine ⟨?_, ?_, ?_, ?_⟩
  · show _ = 1 + pieces.length + _
    rw [conditionalRows, List.length_cons, List.length_append, branchRows, List.length_map,
      List.length_zipIdx, elseRows]
    split <;> simp only [List.length_cons, List.length_nil] <;> omega
  · exact bodies_conditionalRows
  · rw [conditionalRows, List.forall_mem_cons, List.forall_mem_append]
    refine ⟨plain_start (by decide) (by decide) (by simp [hpiece.2]), fun r hr => ?_, fun r hr => ?_⟩
    · obtain ⟨s, hs, rfl⟩ := List.mem_map.mp hr
      have hline := hpieces s.1 (List.fst_mem_of_mem_zipIdx hs)
      exact plain_start (by decide) (by decide) (by simp [hline.2])
    · unfold elseRows at hr
      split at hr
      · obtain rfl := List.mem_singleton.mp hr
        exact ⟨by decide, by decide⟩
      · cases hr
  · rw [conditionalRows, List.tail_cons, List.forall_mem_append]
    refine ⟨fun r hr => ?_, fun r hr => ?_⟩
    · obtain ⟨s, -, rfl⟩ := List.mem_map.mp hr
      exact continues_append (by decide) _
    · unfold elseRows at hr
      split at hr
      · obtain rfl := List.mem_singleton.mp hr
        show Continues "else:".toList
        decide
      · cases hr

/-! ## All statements -/

/-- Only one statement starts with the opening of a shown text. -/
theorem not_stringOpening {k : Kind} (hrole : k.definition.shape.role.isValue = false)
    (hk : k ≠ .showString) {idiom : Pattern} (hi : k.definition.idiom = some idiom)
    (h : idiom.scan cs = some (c, rest)) : ¬ stringOpening <+: cs := by
  have hopening := startsWith_opening h
  have assigned {operator input : String} (h : (word "VAR" ++ lits (" " ++ operator ++ " ") ++
      hole input [] ++ lits "\n").scan cs = some (c, rest)) : ¬ stringOpening <+: cs := by
    obtain ⟨c₃, m₃, _, h₃, hend, -⟩ := scan_append_some h
    obtain ⟨c₂, m₂, _, h₂, hhole, -⟩ := scan_append_some h₃
    obtain ⟨c₁, m₁, _, h₁, hsign, -⟩ := scan_append_some h₂
    obtain ⟨piece, -, rfl, hpiece⟩ := scan_word_some h₁
    obtain ⟨-, rfl⟩ := scan_lits_some hsign
    intro hstring
    -- a name is followed by a blank, and no blank is in the opening
    have hspace : piece ++ [' '] <+: piece ++ ((" " ++ operator ++ " ").toList ++ m₂) :=
      ⟨operator.toList ++ ' ' :: m₂, by simp⟩
    rcases List.prefix_or_prefix_of_prefix hstring hspace with hp | hp
    · have hpoint : '.' ∈ piece ++ [' '] := hp.subset (by decide)
      rcases List.mem_append.mp hpoint with hm | hm
      · cases hpiece _ hm
      · cases List.mem_singleton.mp hm
    · have hblank : ' ' ∈ stringOpening := hp.subset (by simp)
      exact absurd hblank (by decide)
  cases k with
  | showString => exact absurd rfl hk
  | ifElseElseIf | ifElseElse => cases hi
  | setVariable | changeVariable =>
    obtain rfl := Option.some.inj hi
    exact assigned h
  | mathNumber | text | logicBoolean | logicCompare | logicOperation | logicNegate
  | mathArithmetic | mathRandom | buttonIsPressed | temperature | acceleration | variablesGet =>
    cases hrole
  | _ =>
    obtain rfl := Option.some.inj hi
    exact (by decide : Apart _ stringOpening).not_startsWith hopening

/-- A statement with fixed inputs takes its rows. -/
theorem rows_of_scan {k : Kind} (hrole : k.definition.shape.role.isValue = false)
    (hk : k ≠ .showString) (hb : k ≠ .ifElse) {idiom : Pattern}
    (hi : k.definition.idiom = some idiom) (h : idiom.scan cs = some (c, rest)) :
    ∃ rows, cs = spellRows rows ++ rest ∧ rows.length = k.headerLines none ∧
      rows.filterMap Row.body = k.definition.shape.statementInputs none ∧
      (∀ r ∈ rows, r.Plain) ∧ ∀ r ∈ rows.tail, Continues r.text := by
  have hstart := not_stringOpening hrole hk hi h
  have line {p : Pattern} {close : String} (ending : List Char) (hp : p.Inline)
      (hclose : close.toList = ending ++ ['\n']) (hending : '\n' ∉ ending)
      (h : (p ++ lits close).scan cs = some (c, rest)) :
      ∃ rows, cs = spellRows rows ++ rest ∧ rows.length = 1 ∧ rows.filterMap Row.body = [] ∧
        (∀ r ∈ rows, r.Plain) ∧ ∀ r ∈ rows.tail, Continues r.text := by
    obtain ⟨text, hcs, hplain⟩ := scan_line hp hclose hending hstart h
    exact ⟨_, hcs, rfl, rfl, List.forall_mem_singleton.mpr hplain, by simp⟩
  -- the two handlers without a choice are fixed texts around their block
  have framed {define register : String}
      (h : (lits define ++ block ++ lits register).scan cs = some (c, rest)) :
      cs = define.toList ++ (blockMark ++ register.toList) ++ rest := by
    obtain ⟨_, _, _, h₂, hregister, -⟩ := scan_append_some h
    obtain ⟨_, _, _, hdefine, hblock, -⟩ := scan_append_some h₂
    obtain ⟨-, rfl⟩ := scan_lits_some hdefine
    obtain ⟨-, rfl⟩ := scan_block_some hblock
    obtain ⟨-, rfl⟩ := scan_lits_some hregister
    simp
  cases k with
  | showNumber | pause | displayShow | plot | unplot | playTone =>
    obtain rfl := Option.some.inj hi
    exact line [] (((inline_lits (by decide)).append (inline_hole _ _)).append
      (inline_lits (by decide))) rfl (by simp) h
  | showIcon =>
    obtain rfl := Option.some.inj hi
    exact line [')'] ((inline_lits (by decide)).append (inline_run _ (by decide))) rfl (by decide) h
  | showLeds =>
    obtain rfl := Option.some.inj hi
    exact line ['"', ')'] ((inline_lits (by decide)).append (inline_run _ (by decide))) rfl
      (by decide) h
  | setVariable | changeVariable =>
    obtain rfl := Option.some.inj hi
    exact line [] (((inline_word _).append (inline_lits (by decide))).append (inline_hole _ _))
      rfl (by simp) h
  | clearScreen =>
    obtain rfl := Option.some.inj hi
    obtain ⟨-, rfl⟩ := scan_lits_some h
    exact ⟨[⟨"basic.clear_screen()".toList, none⟩], rfl, rfl, rfl,
      List.forall_mem_singleton.mpr ⟨by decide, by decide⟩, by simp⟩
  | repeatTimes | whileLoop =>
    obtain rfl := Option.some.inj hi
    obtain ⟨piece, -, hpiece, hcs⟩ := scan_header rfl h
    refine ⟨_, hcs "DO", rfl, rfl, List.forall_mem_singleton.mpr ?_, by simp⟩
    exact plain_start (by decide) (by decide) (by simp [hpiece.2])
  | onStart =>
    obtain rfl := Option.some.inj hi
    exact ⟨[⟨"def on_start():".toList, some "DO"⟩, ⟨"on_start()".toList, none⟩], framed h, rfl, rfl,
      by decide, by decide⟩
  | forever =>
    obtain rfl := Option.some.inj hi
    exact ⟨[⟨"def on_forever():".toList, some "DO"⟩, ⟨"basic.forever(on_forever)".toList, none⟩],
      framed h, rfl, rfl, by decide, by decide⟩
  | onButtonPressed =>
    obtain rfl := Option.some.inj hi
    obtain ⟨handled, registered, hh, hr, hcs⟩ := scan_handler (by decide) (by decide)
      (fun n => inline_run n (by decide)) (inline_oneOf _ (by decide)) h
    exact ⟨_, hcs "DO", rfl, rfl, plain_handler hh hr,
      List.forall_mem_singleton.mpr (continues_append (by decide) registered)⟩
  | onGesture =>
    obtain rfl := Option.some.inj hi
    obtain ⟨handled, registered, hh, hr, hcs⟩ := scan_handler (by decide) (by decide)
      (fun n => inline_run n (by decide)) (inline_run _ (by decide)) h
    exact ⟨_, hcs "DO", rfl, rfl, plain_handler hh hr,
      List.forall_mem_singleton.mpr (continues_append (by decide) registered)⟩
  | ifElse => exact absurd rfl hb
  | showString => exact absurd rfl hk
  | ifElseElseIf | ifElseElse => cases hi
  | mathNumber | text | logicBoolean | logicCompare | logicOperation | logicNegate
  | mathArithmetic | mathRandom | buttonIsPressed | temperature | acceleration | variablesGet =>
    cases hrole

end Catalogue

/-! ## What a definition read -/

variable {k : Kind} {cs matched : List Char} {e : Extraction} {b : Blueprint}

/-- What was read of a kind was scanned and extracted, and it is the front of the text. -/
theorem Kind.recover_some (h : k.definition.recover cs = some (e, b, matched)) :
    ∃ idiom extractor c rest, k.definition.idiom = some idiom ∧
      k.definition.extractor = some extractor ∧ idiom.scan cs = some (c, rest) ∧
      extractor c = some e ∧ b = ⟨k, e.fields, e.mutation⟩ ∧
      matched = cs.take (cs.length - rest.length) ∧
      if k.definition.shape.role.isValue then rest = [] else matched.getLast? = some '\n' := by
  have hconstructor : ∀ constructor, k.definition.constructor = some constructor →
      constructor = .ofExtraction := by
    intro constructor hc
    cases k with
    | ifElseElseIf | ifElseElse => cases hc
    | _ => exact (Option.some.inj hc).symm
  unfold Definition.recover at h
  simp only [Option.bind_eq_bind, Option.bind_eq_some_iff] at h
  obtain ⟨idiom, hi, ⟨c, rest⟩, hs, h⟩ := h
  split at h <;> rename_i hrole
  all_goals
    simp only [Option.bind_eq_some_iff] at h
    obtain ⟨_, hguard, extractor, he, e', hx, constructor, hc, hresult⟩ := h
    cases hresult
    obtain rfl := hconstructor constructor hc
    refine ⟨idiom, extractor, c, rest, hi, he, hs, hx, ?_, rfl, ?_⟩
    · rw [Blueprint.ofExtraction, k.kind_definition]
    · simpa [hrole] using hguard

open Pattern in
/-- An assignment starts with a variable name, and its operator stands between blanks after it. -/
theorem Kind.assigned_of_recover {description operator input : String} {check : Check} {x : Double}
    (hk : k.definition = assignment k description operator input check x)
    (h : k.definition.recover cs = some (e, b, matched)) :
    ∃ name value, Word.isIdentifier name = true ∧
      cs = name ++ ' ' :: (operator.toList ++ ' ' :: value) := by
  obtain ⟨idiom, extractor, c, rest, hi, he, hs, hx, -, -, -⟩ := k.recover_some h
  rw [hk] at hi he
  obtain rfl := Option.some.inj hi
  obtain rfl := Option.some.inj he
  obtain ⟨_, _, _, h₃, -, rfl⟩ := scan_append_some hs
  obtain ⟨_, value, _, h₂, -, rfl⟩ := scan_append_some h₃
  obtain ⟨_, _, _, h₁, hsign, rfl⟩ := scan_append_some h₂
  obtain ⟨name, rfl, rfl, -⟩ := scan_word_some h₁
  obtain ⟨-, rfl⟩ := scan_lits_some hsign
  -- the name that is extracted is the word at the front
  obtain ⟨name', hname, hx⟩ := Option.bind_eq_some_iff.mp hx
  obtain rfl : name = name' := Option.some.inj hname
  obtain ⟨_, -, hx⟩ := Option.bind_eq_some_iff.mp hx
  obtain ⟨_, hguard, -⟩ := Option.bind_eq_some_iff.mp hx
  exact ⟨name, value, (Option.guard_eq_some' _).mp hguard, by simp⟩

/-- A conditional takes a row for each branch, and one for the `else`. -/
theorem Kind.conditional_of_recover
    (h : Kind.ifElse.definition.recover cs = some (e, b, matched)) :
    ∃ piece pieces m, (∀ t ∈ piece :: pieces, FitsHole t) ∧
      matched = spellRows (conditionalRows piece pieces m) ∧
      e = conditionalExtraction piece pieces m := by
  obtain ⟨idiom, extractor, c, rest, hi, he, hs, hx, -, rfl, -⟩ := Kind.recover_some h
  obtain rfl := Option.some.inj hi
  obtain rfl := Option.some.inj he
  obtain ⟨piece, pieces, m, hpieces, hcs, hread⟩ := readConditional_of_scan hs
  exact ⟨piece, pieces, m, hpieces, take_front hcs, Option.some.inj (hx.symm.trans hread)⟩

/-- Every input of a block that was read is filled. -/
theorem Kind.fills_of_recover (h : k.definition.recover cs = some (e, b, matched)) :
    e.Fills k.definition.shape := by
  by_cases hk : k = .ifElse
  · subst hk
    obtain ⟨piece, pieces, m, -, -, rfl⟩ := conditional_of_recover h
    exact fills_conditional
  · obtain ⟨idiom, extractor, c, rest, hi, he, hs, hx, -, -, -⟩ := k.recover_some h
    exact fills_of_extract hk he hx

/-- A statement takes its rows, unless it shows a text. -/
theorem Kind.clause_of_recover (hrole : k.definition.shape.role.isValue = false)
    (hk : k ≠ .showString) (h : k.definition.recover cs = some (e, b, matched)) :
    ∃ rows, matched = spellRows rows ∧ Clause k e rows := by
  by_cases hb : k = .ifElse
  · subst hb
    obtain ⟨piece, pieces, m, hpieces, hmatched, rfl⟩ := conditional_of_recover h
    exact ⟨_, hmatched, clause_conditional hpieces⟩
  · have hfills := k.fills_of_recover h
    obtain ⟨idiom, extractor, c, rest, hi, he, hs, hx, -, rfl, -⟩ := k.recover_some h
    obtain ⟨rows, hcs, hlength, hbodies, hplain, hfurther⟩ := rows_of_scan hrole hk hb hi hs
    have hmutation : e.mutation = none := by
      refine hfills.mutation_none ?_
      cases k with
      | ifElse => exact absurd rfl hb
      | _ => rfl
    refine ⟨rows, take_front hcs, ?_, ?_, hplain, hfurther⟩
    · rw [hlength, hmutation]
    · rw [hbodies, hfills.bodies, hmutation]

/-- A statement that shows a text takes its literal, wherever that ends. -/
theorem Kind.literal_of_recover (h : Kind.showString.definition.recover cs = some (e, b, matched)) :
    ∃ t, matched = stringOpening ++ (t ++ ")\n".toList) ∧
      ∀ rest, Quoted.span (t ++ rest) = some (t, rest) := by
  obtain ⟨idiom, extractor, c, rest, hi, he, hs, hx, -, rfl, -⟩ := Kind.recover_some h
  obtain rfl := Option.some.inj hi
  obtain ⟨_, _, _, h₂, hend, -⟩ := Pattern.scan_append_some hs
  obtain ⟨_, m₁, _, hopen, hliteral, -⟩ := Pattern.scan_append_some h₂
  obtain ⟨-, rfl⟩ := Pattern.scan_lits_some hopen
  obtain ⟨t, -, hspan⟩ := Pattern.scan_literal_some hliteral
  obtain ⟨-, rfl⟩ := Pattern.scan_lits_some hend
  refine ⟨t, take_front ?_, Quoted.span_front hspan⟩
  rw [← Lexeme.span_append hspan, List.append_assoc, List.append_assoc]
  rfl

end BlockText

import BlockText.Program.Outline
import BlockText.Proofs.Texts

/-!
# Grouping lines

The outline of a source keeps every line that is not blank, under its number and in order. Its
nesting is the indentation of the lines: the lines of one level are indented alike, a block stands
right after a line and starts with one, and its lines are indented deeper than those around it. The
levels that are open while lines are added are an outline that is not closed yet, so both parts are
invariants of the open levels: what they hold in order are the lines so far, and each level is
deeper than the one around it, which ends with the line that opened it.
-/

namespace BlockText.Program

open Text

/-! ## Lines and levels of an outline -/

theorem Item.exists_line_of_any {item? : Option Item} (h : item?.any isLine = true) :
    ∃ number text, item? = some (.line number text) := by
  cases item? with
  | none => cases h
  | some item =>
    cases item with
    | line number text => exact ⟨number, text, rfl⟩
    | block inner => cases h

mutual

/-- The lines of an item with their numbers, from the first to the last. -/
def Item.numbered : Item → List (Nat × List Char)
  | .line number text => [(number, text)]
  | .block items => Item.numberedAll items

/-- The lines of some items with their numbers, from the first to the last. -/
def Item.numberedAll : List Item → List (Nat × List Char)
  | [] => []
  | item :: items => Item.numbered item ++ Item.numberedAll items

end

theorem Item.numberedAll_append (items items' : List Item) :
    numberedAll (items ++ items') = numberedAll items ++ numberedAll items' := by
  induction items with
  | nil => rfl
  | cons item items ih => rw [List.cons_append, numberedAll, ih, numberedAll, List.append_assoc]

/-- The levels of an outline: its items at the top, and the items of every block. -/
inductive IsLevel (outline : List Item) : Bool → List Item → Prop where
  | top : IsLevel outline true outline
  | block {top : Bool} {level inner : List Item} (h : IsLevel outline top level)
      (hmem : .block inner ∈ level) : IsLevel outline false inner

namespace Outline

/-- A source line without its indentation and without blanks at its end. -/
def stripped (raw : List Char) : List Char := trimEnd (raw.dropWhile (· == ' '))

/-- The spaces by which a source line is indented. -/
def indentation (raw : List Char) : Nat := (raw.takeWhile (· == ' ')).length

/-- The lines of a source that are not blank, stripped, with their numbers. The first line has the
given number. -/
def numberedFrom (number : Nat) (raws : List (List Char)) : List (Nat × List Char) :=
  ((raws.zipIdx number).filter fun s => !s.1.all isBlank).map fun s => (s.2, stripped s.1)

/-- The spaces by which the line with a number is indented. Lines count from one. -/
def indentAt (raws : List (List Char)) (number : Nat) : Nat :=
  indentation ((raws[number - 1]?).getD [])

/-- A text that an outline takes as a line: its only control characters are tabs. -/
def Legible (text : List Char) : Prop := ∀ c ∈ text, isControl c = true → c = '\t'

theorem Legible.newline {text : List Char} (h : Legible text) : '\n' ∉ text := by
  intro hmem
  cases h _ hmem (by decide)

theorem Legible.stripped {raw : List Char} (h : Legible raw) : Legible (stripped raw) :=
  fun c hc => h c (List.dropWhile_subset _ ((Text.trimEnd_prefix _).subset hc))

/-! ## What one line does -/

variable {ls ls' : Levels} {raw : List Char} {number width : Nat} {item : Item}

/-- A line that is added either opens a level after a line, or it ends the deeper levels and goes on
with one of its width. -/
theorem addLine_ok (h : addLine ls width item = .ok ls') :
    (ls.current.width < width ∧ ls.current.items.getLast?.any Item.isLine = true ∧
      ls' = ⟨⟨width, [item]⟩, ls.current :: ls.outer⟩) ∨
    ∃ level outer, closeTo width ls.current ls.outer = ⟨level, outer⟩ ∧ level.width = width ∧
      ls' = ⟨{ level with items := level.items ++ [item] }, outer⟩ := by
  unfold addLine at h
  by_cases hwider : ls.current.width < width
  · rw [if_pos hwider] at h
    by_cases hline : ls.current.items.getLast?.any Item.isLine = true
    · rw [if_pos hline] at h
      cases h
      exact .inl ⟨hwider, hline, rfl⟩
    · rw [if_neg hline] at h
      cases h
  · rw [if_neg hwider] at h
    dsimp only at h
    by_cases hwidth : (closeTo width ls.current ls.outer).current.width = width
    · rw [if_pos hwidth] at h
      cases h
      exact .inr ⟨_, _, rfl, hwidth, rfl⟩
    · rw [if_neg hwidth] at h
      cases h

/-- A source line is taken when it is blank and adds nothing, or when it is legible, has no tab after
its spaces and is added stripped, at its indentation. -/
theorem addSource_eq_ok : addSource ls raw number = .ok ls' ↔
    (raw.all isBlank = true ∧ ls' = ls) ∨
    (raw.all isBlank = false ∧ Legible raw ∧ (raw.dropWhile (· == ' ')).head? ≠ some '\t' ∧
      addLine ls (indentation raw) (.line number (stripped raw)) = .ok ls') := by
  have hwidth : raw.length - (raw.dropWhile (· == ' ')).length = indentation raw := by
    have hlength := congrArg List.length
      (List.takeWhile_append_dropWhile (p := (· == ' ')) (l := raw))
    rw [List.length_append] at hlength
    unfold indentation
    omega
  have hlegible : Legible raw ↔ (raw.any fun c => isControl c && c != '\t') = false := by
    simp [Legible]
  unfold addSource
  dsimp only
  rw [hlegible, hwidth, stripped]
  cases raw.all isBlank with
  | true => simpa using eq_comm
  | false =>
    cases (raw.any fun c => isControl c && c != '\t') with
    | true => simp
    | false =>
      by_cases htab : (raw.dropWhile (· == ' ')).head? = some '\t'
      · simp [htab]
      · cases addLine ls (indentation raw) (.line number (trimEnd (raw.dropWhile (· == ' ')))) <;>
          simp [htab]

theorem addSources_cons_ok {raws : List (List Char)}
    (h : addSources (raw :: raws) number ls = .ok ls') :
    ∃ ls₁, addSource ls raw number = .ok ls₁ ∧ addSources raws (number + 1) ls₁ = .ok ls' := by
  rw [addSources] at h
  cases hadd : addSource ls raw number with
  | error f =>
    rw [hadd] at h
    cases h
  | ok ls₁ =>
    rw [hadd] at h
    exact ⟨ls₁, rfl, h⟩

theorem ofSource_ok {source : List Char} {items : List Item} (h : ofSource source = .ok items) :
    ∃ ls, addSources (Text.lines source) 1 ⟨⟨0, []⟩, []⟩ = .ok ls ∧
      items = closeAll ls.current ls.outer := by
  unfold ofSource at h
  cases hadd : addSources (Text.lines source) 1 ⟨⟨0, []⟩, []⟩ with
  | error f =>
    rw [hadd] at h
    cases h
  | ok ls =>
    rw [hadd] at h
    exact ⟨ls, rfl, (Except.ok.inj h).symm⟩

/-- What closing a level keeps, closing down to a width keeps. -/
theorem closeTo_induction {P : Level → List Level → Prop}
    (hclose : ∀ inner level outer, P inner (level :: outer) → P (close inner level) outer)
    {current : Level} {outer : List Level} (h : P current outer) (width : Nat) :
    P (closeTo width current outer).current (closeTo width current outer).outer := by
  induction outer generalizing current with
  | nil => exact h
  | cons around outer ih =>
    rw [closeTo]
    split
    · exact ih (hclose current around outer h)
    · exact h

/-- What closing a level keeps holds of the level in which all others are closed. -/
theorem closeAll_induction {P : Level → List Level → Prop}
    (hclose : ∀ inner level outer, P inner (level :: outer) → P (close inner level) outer)
    {current : Level} {outer : List Level} (h : P current outer) :
    ∃ level, closeAll current outer = level.items ∧ P level [] := by
  induction outer generalizing current with
  | nil => exact ⟨current, rfl, h⟩
  | cons around outer ih => exact ih (hclose current around outer h)

/-! ## No line is lost -/

/-- The lines in open levels with their numbers, from the first to the last. -/
def openLines : Level → List Level → List (Nat × List Char)
  | current, [] => Item.numberedAll current.items
  | current, around :: outer => openLines around outer ++ Item.numberedAll current.items

theorem openLines_append (level : Level) (more : List Item) (outer : List Level) :
    openLines { level with items := level.items ++ more } outer =
      openLines level outer ++ Item.numberedAll more := by
  cases outer with
  | nil => exact Item.numberedAll_append _ _
  | cons around outer => rw [openLines, openLines, Item.numberedAll_append, List.append_assoc]

theorem openLines_close (inner level : Level) (outer : List Level) :
    openLines (close inner level) outer = openLines inner (level :: outer) := by
  rw [close, openLines_append, openLines]
  simp [Item.numberedAll, Item.numbered]

theorem openLines_addLine {text : List Char}
    (h : addLine ls width (.line number text) = .ok ls') :
    openLines ls'.current ls'.outer = openLines ls.current ls.outer ++ [(number, text)] := by
  obtain ⟨-, -, rfl⟩ | ⟨level, outer, hclosed, -, rfl⟩ := addLine_ok h
  · rfl
  · have hlines := closeTo_induction (P := fun current outer =>
      openLines current outer = openLines ls.current ls.outer)
      (fun inner level outer h => (openLines_close inner level outer).trans h) rfl width
    rw [hclosed] at hlines
    rw [openLines_append, hlines]
    rfl

theorem numberedFrom_cons (number : Nat) (raw : List Char) (raws : List (List Char)) :
    numberedFrom number (raw :: raws) =
      (if raw.all isBlank then [] else [(number, stripped raw)]) ++
        numberedFrom (number + 1) raws := by
  unfold numberedFrom
  rw [List.zipIdx_cons, List.filter_cons]
  cases raw.all isBlank <;> rfl

/-- Source lines that are taken add themselves, and all are legible. -/
theorem openLines_addSources {raws : List (List Char)}
    (h : addSources raws number ls = .ok ls') :
    openLines ls'.current ls'.outer =
      openLines ls.current ls.outer ++ numberedFrom number raws ∧
      ∀ l ∈ numberedFrom number raws, Legible l.2 := by
  induction raws generalizing number ls with
  | nil =>
    cases h
    exact ⟨(List.append_nil _).symm, by simp [numberedFrom]⟩
  | cons raw raws ih =>
    obtain ⟨ls₁, hadd, h⟩ := addSources_cons_ok h
    obtain ⟨hmore, hlines⟩ := ih h
    rw [numberedFrom_cons]
    obtain ⟨hblank, rfl⟩ | ⟨hblank, hlegible, -, hadd⟩ := addSource_eq_ok.mp hadd
    · rw [hblank, if_pos rfl]
      exact ⟨hmore, hlines⟩
    · rw [hblank, if_neg Bool.false_ne_true, hmore, openLines_addLine hadd, List.append_assoc,
        List.singleton_append, List.forall_mem_cons]
      exact ⟨rfl, hlegible.stripped, hlines⟩

/-- The lines of an outline are those of its source, and all are legible. -/
theorem numberedAll_ofSource {source : List Char} {items : List Item}
    (h : ofSource source = .ok items) :
    Item.numberedAll items = numberedFrom 1 (Text.lines source) ∧
      ∀ l ∈ Item.numberedAll items, Legible l.2 := by
  obtain ⟨ls, hadd, rfl⟩ := ofSource_ok h
  obtain ⟨hlines, hlegible⟩ := openLines_addSources hadd
  obtain ⟨level, hitems, hlevel⟩ := closeAll_induction (P := fun current outer =>
    openLines current outer = openLines ls.current ls.outer)
    (fun inner level outer h => (openLines_close inner level outer).trans h) rfl
  have hall : Item.numberedAll level.items = numberedFrom 1 (Text.lines source) :=
    hlevel.trans hlines
  rw [hitems, hall]
  exact ⟨rfl, hlegible⟩

/-! ## Nesting is indentation -/

variable {indent : Nat → Nat} {items inner : List Item}

/-- Items of a level of some width, in the order in which they are added: a line that is indented by
that width, or after a line a block that starts with a line and is a wider level. -/
inductive Layered (indent : Nat → Nat) : Nat → List Item → Prop where
  | nil {width : Nat} : Layered indent width []
  | line {width number : Nat} {text : List Char} {items : List Item}
      (h : Layered indent width items) (hwidth : indent number = width) :
      Layered indent width (items ++ [.line number text])
  | block {width inside : Nat} {items inner : List Item} (h : Layered indent width items)
      (hlast : items.getLast?.any Item.isLine = true) (hinner : Layered indent inside inner)
      (hfirst : inner.head?.any Item.isLine = true) (hwidth : width < inside) :
      Layered indent width (items ++ [.block inner])

theorem Layered.indent_eq (h : Layered indent width items) {text : List Char}
    (hmem : .line number text ∈ items) : indent number = width := by
  induction h with
  | nil => cases hmem
  | line _ hwidth ih =>
    rcases List.mem_append.mp hmem with hmem | hmem
    · exact ih hmem
    · cases List.mem_singleton.mp hmem
      exact hwidth
  | block _ _ _ _ _ ih =>
    rcases List.mem_append.mp hmem with hmem | hmem
    · exact ih hmem
    · cases List.mem_singleton.mp hmem

/-- A block stands after a line, starts with a line and is a wider level. -/
theorem Layered.of_block (h : Layered indent width items) {before after : List Item}
    (hitems : items = before ++ .block inner :: after) :
    before.getLast?.any Item.isLine = true ∧ inner.head?.any Item.isLine = true ∧
      ∃ inside, width < inside ∧ Layered indent inside inner := by
  induction h generalizing after with
  | nil => simp at hitems
  | @line width number text items _ _ ih =>
    rcases List.eq_nil_or_concat after with rfl | ⟨after, last, rfl⟩
    · cases (List.append_inj' hitems rfl).2
    · rw [List.concat_eq_append, ← List.cons_append, ← List.append_assoc] at hitems
      exact ih (List.append_inj' hitems rfl).1
  | @block width inside items inner' _ hlast hinner hfirst hwidth ih =>
    rcases List.eq_nil_or_concat after with rfl | ⟨after, last, rfl⟩
    · obtain ⟨rfl, hlasts⟩ := List.append_inj' hitems rfl
      cases hlasts
      exact ⟨hlast, hfirst, inside, hwidth, hinner⟩
    · rw [List.concat_eq_append, ← List.cons_append, ← List.append_assoc] at hitems
      exact ih (List.append_inj' hitems rfl).1

theorem Layered.of_isLevel {top : Bool} {level : List Item} (h : Layered indent width items)
    (hlevel : IsLevel items top level) : ∃ width, Layered indent width level := by
  induction hlevel with
  | top => exact ⟨width, h⟩
  | block _ hmem ih =>
    obtain ⟨width, h⟩ := ih
    obtain ⟨before, after, hlevel⟩ := List.append_of_mem hmem
    obtain ⟨-, -, inside, -, hinner⟩ := h.of_block hlevel
    exact ⟨inside, hinner⟩

/-- Open levels are layered. A level inside of another starts with a line, is wider, and stands
after the line with which the other ends so far. -/
def Open (indent : Nat → Nat) : Level → List Level → Prop
  | current, [] => Layered indent current.width current.items
  | current, around :: outer => Layered indent current.width current.items ∧
      current.items.head?.any Item.isLine = true ∧ around.width < current.width ∧
      around.items.getLast?.any Item.isLine = true ∧ Open indent around outer

variable {current : Level} {outer : List Level}

theorem Open.layered (h : Open indent current outer) :
    Layered indent current.width current.items := by
  cases outer with
  | nil => exact h
  | cons around outer => exact h.1

/-- A level stays open when items are added to it. -/
theorem Open.add {more : List Item} (h : Open indent current outer)
    (hmore : Layered indent current.width (current.items ++ more)) :
    Open indent { current with items := current.items ++ more } outer := by
  cases outer with
  | nil => exact hmore
  | cons around outer =>
    obtain ⟨-, hfirst, hrest⟩ := h
    refine ⟨hmore, ?_, hrest⟩
    cases hitems : current.items with
    | nil =>
      rw [hitems] at hfirst
      cases hfirst
    | cons first items =>
      rw [hitems] at hfirst
      exact hfirst

theorem Open.close (inner level : Level) (outer : List Level)
    (h : Open indent inner (level :: outer)) : Open indent (close inner level) outer := by
  obtain ⟨hinner, hfirst, hwidth, hlast, h⟩ := h
  exact h.add (.block h.layered hlast hinner hfirst hwidth)

/-- A line of its indentation keeps the levels layered. -/
theorem Open.addLine {text : List Char} (h : Open indent ls.current ls.outer)
    (hindent : indent number = width) (hadd : addLine ls width (.line number text) = .ok ls') :
    Open indent ls'.current ls'.outer := by
  obtain ⟨hwider, hlast, rfl⟩ | ⟨level, outer, hclosed, hwidth, rfl⟩ := addLine_ok hadd
  · exact ⟨.line .nil hindent, rfl, hwider, hlast, h⟩
  · have hlevel : Open indent level outer := by
      have hclosedOpen := closeTo_induction Open.close h width
      rwa [hclosed] at hclosedOpen
    exact hlevel.add (.line hlevel.layered (hindent.trans hwidth.symm))

theorem Open.addSources {raws : List (List Char)} (h : Open indent ls.current ls.outer)
    (hindent : ∀ i raw, raws[i]? = some raw → indent (number + i) = indentation raw)
    (hadd : addSources raws number ls = .ok ls') : Open indent ls'.current ls'.outer := by
  induction raws generalizing number ls with
  | nil =>
    cases hadd
    exact h
  | cons raw raws ih =>
    obtain ⟨ls₁, hone, hmore⟩ := addSources_cons_ok hadd
    refine ih ?_ (fun i raw' hraw => ?_) hmore
    · obtain ⟨-, rfl⟩ | ⟨-, -, -, hline⟩ := addSource_eq_ok.mp hone
      · exact h
      · exact h.addLine (hindent 0 raw rfl) hline
    · rw [Nat.add_right_comm]
      exact hindent (i + 1) raw' hraw

theorem layered_ofSource {source : List Char} (h : ofSource source = .ok items) :
    ∃ width, Layered (indentAt (Text.lines source)) width items := by
  obtain ⟨ls, hadd, rfl⟩ := ofSource_ok h
  have hindent : ∀ i raw, (Text.lines source)[i]? = some raw →
      indentAt (Text.lines source) (1 + i) = indentation raw := by
    intro i raw hraw
    rw [indentAt, Nat.add_sub_cancel_left, hraw]
    rfl
  have hopen : Open (indentAt (Text.lines source)) ⟨0, []⟩ [] := .nil
  obtain ⟨level, hitems, hlevel⟩ := closeAll_induction Open.close (hopen.addSources hindent hadd)
  exact ⟨level.width, hitems ▸ hlevel⟩

/-- An outline keeps all lines of its source that are not blank, in order, under their numbers and
stripped. At every level a block starts with a line and stands right after one; the lines of a level
are indented alike, and those of a block deeper than those of the level around it. -/
theorem ofSource_groups {source : List Char} {items : List Item}
    (h : ofSource source = .ok items) :
    Item.numberedAll items = numberedFrom 1 (Text.lines source) ∧
    ∀ top level, IsLevel items top level →
      (∀ before inner after, level = before ++ .block inner :: after →
        (∃ number text rest, inner = .line number text :: rest) ∧
        ∃ number text, before.getLast? = some (.line number text)) ∧
      (∀ number text number' text', .line number text ∈ level → .line number' text' ∈ level →
        indentAt (Text.lines source) number = indentAt (Text.lines source) number') ∧
      ∀ inner number text number' text', .block inner ∈ level → .line number text ∈ level →
        .line number' text' ∈ inner →
          indentAt (Text.lines source) number < indentAt (Text.lines source) number' := by
  obtain ⟨_, hlayered⟩ := layered_ofSource h
  refine ⟨(numberedAll_ofSource h).1, fun top level hlevel => ?_⟩
  obtain ⟨width, hlevel⟩ := hlayered.of_isLevel hlevel
  refine ⟨fun before inner after hblock => ?_, ?_, ?_⟩
  · obtain ⟨hlast, hfirst, -⟩ := hlevel.of_block hblock
    obtain ⟨number, text, hhead⟩ := Item.exists_line_of_any hfirst
    obtain ⟨rest, hinner⟩ := List.head?_eq_some_iff.mp hhead
    exact ⟨⟨number, text, rest, hinner⟩, Item.exists_line_of_any hlast⟩
  · intro number text number' text' hline hline'
    rw [hlevel.indent_eq hline, hlevel.indent_eq hline']
  · intro inner number text number' text' hinner hline hline'
    obtain ⟨before, after, hblock⟩ := List.append_of_mem hinner
    obtain ⟨-, -, inside, hwider, hinside⟩ := hlevel.of_block hblock
    rw [hlevel.indent_eq hline, hinside.indent_eq hline']
    exact hwider

/-- Two levels inside the first one, a blank line between, and an indentation of three spaces: the
lines 3 and 5 are siblings and deeper than line 1. -/
theorem ofSource_groups_three_spaces : ∃ inner,
    ofSource "a:\n \t\n   b:\n         c \n   d\ne".toList =
      .ok [.line 1 "a:".toList, .block inner, .line 6 "e".toList] ∧
    Item.numberedAll inner = [(3, "b:".toList), (4, "c".toList), (5, "d".toList)] ∧
    IsLevel [.line 1 "a:".toList, .block inner, .line 6 "e".toList] false inner ∧
    (∃ number text rest, inner = .line number text :: rest) ∧
    indentAt (Text.lines "a:\n \t\n   b:\n         c \n   d\ne".toList) 3 =
      indentAt (Text.lines "a:\n \t\n   b:\n         c \n   d\ne".toList) 5 ∧
    indentAt (Text.lines "a:\n \t\n   b:\n         c \n   d\ne".toList) 1 <
      indentAt (Text.lines "a:\n \t\n   b:\n         c \n   d\ne".toList) 3 := by
  let inner : List Item := [.line 3 "b:".toList, .block [.line 4 "c".toList], .line 5 "d".toList]
  have houtline : ofSource "a:\n \t\n   b:\n         c \n   d\ne".toList =
      .ok [.line 1 "a:".toList, .block inner, .line 6 "e".toList] := rfl
  have hinner : IsLevel [.line 1 "a:".toList, .block inner, .line 6 "e".toList] false inner :=
    .block .top (by simp)
  obtain ⟨-, hlevels⟩ := ofSource_groups houtline
  obtain ⟨hblocks, -, hdeeper⟩ := hlevels true _ .top
  obtain ⟨-, hsiblings, -⟩ := hlevels false inner hinner
  refine ⟨inner, houtline, rfl, hinner, (hblocks [_] inner [_] rfl).1, ?_, ?_⟩
  · exact hsiblings 3 "b:".toList 5 "d".toList (by simp [inner]) (by simp [inner])
  · exact hdeeper inner 1 "a:".toList 3 "b:".toList (by simp) (by simp) (by simp [inner])

end Outline

end BlockText.Program

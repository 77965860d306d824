import BlockText.Proofs.Grouping
import BlockText.Proofs.Renumbering

/-!
# Nesting

A text that is indented and gets a header before it is nested: its outline becomes the block after
the header. The lines of the text are those it had, each with the unit of indentation before it
unless it is blank. While they are added, the open levels are those of the text itself, each wider
by the unit, with the level of the header around them. A line that the text takes at some width is
taken one unit deeper, and the level of the header is never closed before the end, since it is
narrower than every line of the text.
-/

namespace BlockText.Program

open Text

/-! ## The lines of an indented text -/

section Lines

variable {unit : List Char}

theorem chomp_append (s : List Char) {t : List Char} (h : t ≠ []) :
    chomp (s ++ t) = s ++ chomp t := by
  induction s with
  | nil => rfl
  | cons c s ih =>
    obtain ⟨d, rest, hrest⟩ : ∃ d rest, s ++ t = d :: rest :=
      List.exists_cons_of_ne_nil fun he => h (List.append_eq_nil_iff.mp he).2
    rw [List.cons_append, hrest, chomp, ← hrest, ih, List.cons_append]

theorem all_isBlank_chomp (t : List Char) : (chomp t).all isBlank = t.all isBlank := by
  fun_induction chomp t with
  | case1 => rfl
  | case2 => decide
  | case3 => rfl
  | case4 c d cs ih => exact congrArg (isBlank c && ·) ih

/-- A carriage return at the end of a line does not matter to its indentation. -/
theorem chomp_indentLine (t : List Char) :
    chomp (indentLine unit t) = indentLine unit (chomp t) := by
  unfold indentLine
  rw [all_isBlank_chomp]
  by_cases hblank : t.all isBlank = true
  · rw [if_pos hblank, if_pos hblank]
  · have hne : t ≠ [] := by
      rintro rfl
      exact hblank rfl
    rw [if_neg hblank, if_neg hblank, chomp_append unit hne]

theorem indentLine_eq_nil {t : List Char} : indentLine unit t = [] ↔ t = [] := by
  unfold indentLine
  by_cases hblank : t.all isBlank = true
  · rw [if_pos hblank]
  · rw [if_neg hblank, List.append_eq_nil_iff, and_iff_right_iff_imp]
    rintro rfl
    exact absurd rfl hblank

theorem linesOfPieces_indentLine (ps : List (List Char)) :
    linesOfPieces (ps.map (indentLine unit)) = (linesOfPieces ps).map (indentLine unit) := by
  fun_induction linesOfPieces ps with
  | case1 => rfl
  | case2 last hlast =>
    have he : (indentLine unit last).isEmpty = true :=
      List.isEmpty_iff.mpr (indentLine_eq_nil.mpr (List.isEmpty_iff.mp hlast))
    rw [List.map_singleton, linesOfPieces, if_pos he]
    rfl
  | case3 last hlast =>
    have he : ¬ (indentLine unit last).isEmpty = true := fun h =>
      hlast (List.isEmpty_iff.mpr (indentLine_eq_nil.mp (List.isEmpty_iff.mp h)))
    rw [List.map_singleton, linesOfPieces, if_neg he]
  | case4 piece next pieces ih =>
    rw [List.map_cons, List.map_cons, linesOfPieces, ← List.map_cons, ih, chomp_indentLine,
      List.map_cons]

/-- The lines of an indented text are its lines, indented. -/
theorem lines_indent (hunit : '\n' ∉ unit) (t : List Char) :
    Text.lines (indent unit t) = (Text.lines t).map (indentLine unit) := by
  have hpieces : ∀ piece ∈ (cut '\n' t).map (indentLine unit), '\n' ∉ piece := by
    intro piece hpiece
    obtain ⟨line, hline, rfl⟩ := List.mem_map.mp hpiece
    unfold indentLine
    split
    · exact not_mem_cut line hline
    · rw [List.mem_append, not_or]
      exact ⟨hunit, not_mem_cut line hline⟩
  have hne : (cut '\n' t).map (indentLine unit) ≠ [] := by
    simpa using cut_ne_nil '\n' t
  rw [Text.lines, indent, cut_join hne hpieces, linesOfPieces_indentLine, Text.lines]

end Lines

namespace Outline

variable {ls ls' : Levels} {base : Level} {raw : List Char} {item : Item} {unit number width : Nat}

/-! ## Levels under a header -/

/-- A level that is wider by a unit. -/
def Level.deeper (unit : Nat) (level : Level) : Level := { level with width := level.width + unit }

@[simp] theorem Level.width_deeper (unit : Nat) (level : Level) :
    (level.deeper unit).width = level.width + unit := rfl

/-- Levels that are wider by a unit, with another level around them. -/
def Levels.under (base : Level) (unit : Nat) (ls : Levels) : Levels :=
  ⟨ls.current.deeper unit, ls.outer.map (Level.deeper unit) ++ [base]⟩

/-- Closing is the same one unit deeper, as long as it ends inside of the level around. -/
theorem closeTo_under {current : Level} {outer : List Level}
    (h : (closeTo width current outer).current.width ≤ width) :
    closeTo (width + unit) (current.deeper unit) (outer.map (Level.deeper unit) ++ [base]) =
      (closeTo width current outer).under base unit := by
  induction outer generalizing current with
  | nil =>
    have hw : ¬ width < current.width := Nat.not_lt.mpr h
    simp only [List.map_nil, List.nil_append, closeTo, Level.width_deeper, Nat.add_lt_add_iff_right,
      if_neg hw]
    rfl
  | cons around outer ih =>
    simp only [List.map_cons, List.cons_append, closeTo, Level.width_deeper,
      Nat.add_lt_add_iff_right] at h ⊢
    by_cases hlt : width < current.width
    · rw [if_pos hlt] at h ⊢
      rw [if_pos hlt]
      exact ih h
    · rw [if_neg hlt, if_neg hlt]
      rfl

theorem closeAll_under (current : Level) (outer : List Level) :
    closeAll (current.deeper unit) (outer.map (Level.deeper unit) ++ [base]) =
      base.items ++ [.block (closeAll current outer)] := by
  induction outer generalizing current with
  | nil => rfl
  | cons around outer ih => exact ih (close current around)

/-- A line that is added somewhere is added one unit deeper, too. -/
theorem addLine_under (h : addLine ls width item = .ok ls') :
    addLine (ls.under base unit) (width + unit) item = .ok (ls'.under base unit) := by
  obtain ⟨hwider, hline, rfl⟩ | ⟨level, outer, hclosed, rfl, rfl⟩ := addLine_ok h
  · have hdeeper : (ls.current.deeper unit).width < width + unit := Nat.add_lt_add_right hwider unit
    exact takes_deeper hdeeper hline item
  · have hcloses : ClosesTo (ls.under base unit) (level.deeper unit)
        (outer.map (Level.deeper unit) ++ [base]) := by
      have hto : closeTo (level.width + unit) (ls.current.deeper unit)
          (ls.outer.map (Level.deeper unit) ++ [base]) =
            (closeTo level.width ls.current ls.outer).under base unit :=
        closeTo_under (Nat.le_of_eq (congrArg (fun ls => ls.current.width) hclosed))
      rwa [hclosed] at hto
    exact hcloses.takes item

/-! ## Source lines under a header -/

theorem dropWhile_spaces (n : Nat) (raw : List Char) :
    (List.replicate n ' ' ++ raw).dropWhile (· == ' ') = raw.dropWhile (· == ' ') :=
  List.dropWhile_append_of_pos (by simp)

theorem indentation_spaces (n : Nat) (raw : List Char) :
    indentation (List.replicate n ' ' ++ raw) = indentation raw + n := by
  rw [indentation, List.takeWhile_append_of_pos (by simp), List.length_append,
    List.length_replicate, Nat.add_comm, indentation]

theorem addSource_blank (ls : Levels) (number : Nat) (h : raw.all isBlank = true) :
    addSource ls (indentLine (List.replicate unit ' ') raw) number = .ok ls := by
  rw [indentLine, if_pos h]
  exact addSource_eq_ok.mpr (.inl ⟨h, rfl⟩)

/-- A source line that could be taken is taken with spaces before it, where it can be added that
much deeper. -/
theorem addSource_spaces (hblank : raw.all isBlank = false) (hlegible : Legible raw)
    (htab : (raw.dropWhile (· == ' ')).head? ≠ some '\t')
    (hadd : addLine ls (indentation raw + unit) (.line number (stripped raw)) = .ok ls') :
    addSource ls (indentLine (List.replicate unit ' ') raw) number = .ok ls' := by
  rw [addSource_eq_ok, indentLine, hblank, if_neg Bool.false_ne_true, stripped, dropWhile_spaces,
    indentation_spaces]
  refine .inr ⟨?_, fun c hc hc' => ?_, htab, hadd⟩
  · rw [List.all_append, hblank, Bool.and_false]
  · rcases List.mem_append.mp hc with hspace | hc
    · rw [(List.mem_replicate.mp hspace).2] at hc'
      cases hc'
    · exact hlegible c hc hc'

/-- The lines that are taken by open levels are taken one unit deeper. -/
theorem addSources_under {raws : List (List Char)} (h : addSources raws number ls = .ok ls') :
    addSources (raws.map (indentLine (List.replicate unit ' '))) number (ls.under base unit) =
      .ok (ls'.under base unit) := by
  induction raws generalizing number ls with
  | nil =>
    cases h
    rfl
  | cons raw raws ih =>
    obtain ⟨ls₁, hone, hmore⟩ := addSources_cons_ok h
    rw [List.map_cons, addSources]
    obtain ⟨hblank, rfl⟩ | ⟨hblank, hlegible, htab, hadd⟩ := addSource_eq_ok.mp hone
    · rw [addSource_blank _ _ hblank]
      exact ih hmore
    · rw [addSource_spaces hblank hlegible htab (addLine_under hadd)]
      exact ih hmore

/-- The first line of a text is not indented, so one unit deeper it opens the block of a header. -/
theorem addLine_first (hwidth : base.width < unit)
    (hheader : base.items.getLast?.any Item.isLine = true)
    (h : addLine ⟨⟨0, []⟩, []⟩ width item = .ok ls) :
    addLine ⟨base, []⟩ (width + unit) item = .ok (ls.under base unit) := by
  obtain ⟨-, hline, -⟩ | ⟨level, outer, hclosed, rfl, rfl⟩ := addLine_ok h
  · cases hline
  · cases hclosed
    exact takes_deeper (Nat.lt_of_lt_of_le hwidth (Nat.le_add_left _ _)) hheader item

/-- The lines of a text that are not all blank become a level under a header. -/
theorem addSources_header {raws : List (List Char)} (hwidth : base.width < unit)
    (hheader : base.items.getLast?.any Item.isLine = true)
    (hne : closeAll ls.current ls.outer ≠ []) (h : addSources raws number ⟨⟨0, []⟩, []⟩ = .ok ls) :
    addSources (raws.map (indentLine (List.replicate unit ' '))) number ⟨base, []⟩ =
      .ok (ls.under base unit) := by
  -- before the first line that is not blank there is no level under the header yet
  induction raws generalizing number with
  | nil =>
    cases h
    exact absurd rfl hne
  | cons raw raws ih =>
    obtain ⟨ls₁, hone, hmore⟩ := addSources_cons_ok h
    rw [List.map_cons, addSources]
    obtain ⟨hblank, rfl⟩ | ⟨hblank, hlegible, htab, hadd⟩ := addSource_eq_ok.mp hone
    · rw [addSource_blank _ _ hblank]
      exact ih hmore
    · rw [addSource_spaces hblank hlegible htab (addLine_first hwidth hheader hadd)]
      exact addSources_under hmore

/-! ## A header before an indented text -/

theorem addSource_header {header : List Char} (hblank : header.all isBlank = false)
    (hlegible : Legible header) (hspace : header.head? ≠ some ' ')
    (htab : header.head? ≠ some '\t') (number : Nat) :
    addSource ⟨⟨0, []⟩, []⟩ header number = .ok ⟨⟨0, [.line number (trimEnd header)]⟩, []⟩ := by
  have hstops : Stops (· == ' ') header := by
    intro c hc
    rw [beq_eq_false_iff_ne]
    rintro rfl
    exact hspace hc
  have htake : header.takeWhile (· == ' ') = [] := takeWhile_run (List.forall_mem_nil _) hstops
  have hdrop : header.dropWhile (· == ' ') = header := dropWhile_run (List.forall_mem_nil _) hstops
  rw [addSource_eq_ok, stripped, indentation, htake, hdrop]
  exact .inr ⟨hblank, hlegible, htab, (ClosesTo.self ⟨0, []⟩ []).takes _⟩

/-- Indenting is nesting. Whatever the outline of a text is, when every line that is not blank gets
the same spaces before it and a line that starts with no space is put in front, the outline becomes
the block after that line; the numbers of its lines go up by one. -/
theorem ofSource_header_indent {header unit text : List Char} {items : List Item}
    (hblank : header.all isBlank = false) (hlegible : Legible header)
    (hspace : header.head? ≠ some ' ') (htab : header.head? ≠ some '\t')
    (hunit : unit ≠ []) (hspaces : ∀ c ∈ unit, c = ' ')
    (hitems : ofSource text = .ok items) (hne : items ≠ []) :
    ofSource (header ++ '\n' :: indent unit text) =
      .ok [.line 1 (trimEnd header), .block (items.map (Item.renumber (· + 1)))] := by
  have hnewline : '\n' ∉ unit := fun hmem => absurd (hspaces _ hmem) (by decide)
  have hreturn : header.getLast? ≠ some '\r' := fun hlast =>
    absurd (hlegible _ (List.mem_of_getLast? hlast) (by decide)) (by decide)
  have hlines : Text.lines (header ++ '\n' :: indent unit text) =
      header :: (Text.lines text).map (indentLine unit) := by
    rw [lines_line hlegible.newline, chomp_of_last hreturn, lines_indent hnewline]
  obtain ⟨n, rfl⟩ : ∃ n, unit = List.replicate n ' ' :=
    ⟨_, List.eq_replicate_of_mem hspaces⟩
  have hpos : 0 < n := by
    rw [Nat.pos_iff_ne_zero]
    rintro rfl
    exact hunit rfl
  obtain ⟨ls, hadd, rfl⟩ := ofSource_ok hitems
  -- the lines of the text are numbered from two on
  have hsecond : addSources (Text.lines text) 2 ⟨⟨0, []⟩, []⟩ = .ok (ls.renumber (· + 1)) := by
    have hshift (j : Nat) (_ : j < (Text.lines text).length) : 1 + j + 1 = 2 + j := by omega
    have hrenumber := addSources_renumber hshift ⟨⟨0, []⟩, []⟩
    rw [hadd] at hrenumber
    exact hrenumber
  have hclosed : closeAll (ls.renumber (· + 1)).current (ls.renumber (· + 1)).outer =
      (closeAll ls.current ls.outer).map (Item.renumber (· + 1)) :=
    closeAll_renumber _ ls.current ls.outer
  have hwidth : (⟨0, [.line 1 (trimEnd header)]⟩ : Level).width < n := hpos
  have hheader := addSources_header hwidth rfl (by rw [hclosed]; simpa using hne) hsecond
  rw [ofSource, hlines, addSources, addSource_header hblank hlegible hspace htab]
  dsimp only
  rw [hheader]
  show Except.ok (closeAll _ _) = _
  rw [Levels.under, closeAll_under, hclosed]
  rfl

/-- A text with a blank line, a block that is indented by five spaces and a carriage return, under a
header with a blank after it. -/
theorem ofSource_header_indent_uneven :
    ofSource "a:\n \n     b\r\nc\n".toList =
      .ok [.line 1 "a:".toList, .block [.line 3 "b".toList], .line 4 "c".toList] ∧
    ofSource ("while x: ".toList ++ '\n' :: indent [' ', ' '] "a:\n \n     b\r\nc\n".toList) =
      .ok [.line 1 "while x:".toList,
        .block [.line 2 "a:".toList, .block [.line 4 "b".toList], .line 5 "c".toList]] := by
  have htext : ofSource "a:\n \n     b\r\nc\n".toList =
      .ok [.line 1 "a:".toList, .block [.line 3 "b".toList], .line 4 "c".toList] := rfl
  have hlegible : Legible "while x: ".toList := by
    unfold Legible
    decide
  exact ⟨htext, ofSource_header_indent (by decide) hlegible (by decide) (by decide) (by decide)
    (by decide) htext (List.cons_ne_nil _ _)⟩

end Outline

end BlockText.Program

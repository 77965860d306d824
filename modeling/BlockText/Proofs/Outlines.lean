import BlockText.Program.Outline
import BlockText.Program.Writer
import BlockText.Proofs.Texts

/-!
# Sheets and their outlines

A sheet is a text in lines, some of which have a deeper sheet after them. Written with any number of
spaces as the unit of indentation it is a source whose outline is the sheet itself: every line is
found at its level, and what was deeper is a block. While the lines are added, the levels that are
open may reach deeper than the sheet; what matters is what they close to.
-/

namespace BlockText.Program

open Text

/-- A text that stands on a line of its own: no blanks at its ends and no control characters, apart
from tabs. -/
structure OneLine (t : List Char) : Prop where
  trimmed : Trimmed t
  visible : ∀ c ∈ t, isControl c = true → c = '\t'

theorem oneLine_of_trim {t : List Char} (hne : t ≠ []) (ht : trim t = t)
    (hv : ∀ c ∈ t, isControl c = true → c = '\t') : OneLine t :=
  ⟨ht ▸ trimmed_trim (ht.symm ▸ hne), hv⟩

theorem OneLine.ne_newline {t : List Char} (h : OneLine t) : '\n' ∉ t := by
  intro hc
  have := h.visible _ hc (by decide)
  cases this

/-- Lines, some with a sheet of deeper lines after them. -/
inductive Sheet where
  | done
  | line (text : List Char) (next : Sheet)
  | header (text : List Char) (body next : Sheet)

namespace Sheet

/-- Every line stands on a line of its own, and no deeper sheet is empty. -/
def Proper : Sheet → Prop
  | done => True
  | line t next => OneLine t ∧ next.Proper
  | header t body next => OneLine t ∧ body ≠ done ∧ body.Proper ∧ next.Proper

/-- A sheet as it is written, with a unit of indentation. -/
def text (unit : List Char) : Sheet → List Char
  | done => []
  | line t next => t ++ '\n' :: next.text unit
  | header t body next => t ++ '\n' :: indent unit (body.text unit) ++ next.text unit

/-- The lines of a sheet that is indented by some spaces, each deeper level by `step` more. -/
def lines (step : Nat) : Nat → Sheet → List (List Char)
  | _, done => []
  | width, line t next => (List.replicate width ' ' ++ t) :: next.lines step width
  | width, header t body next =>
    (List.replicate width ' ' ++ t) :: (body.lines step (width + step) ++ next.lines step width)

/-- The items of an outline are a sheet, whatever numbers their lines have. -/
def Items : Sheet → List Item → Prop
  | done, items => items = []
  | line t next, items => ∃ number rest, items = .line number t :: rest ∧ next.Items rest
  | header t body next, items => ∃ number inner rest,
      items = .line number t :: .block inner :: rest ∧ body.Items inner ∧ next.Items rest

end Sheet

/-! ## Lines and their indentation -/

theorem join_newline (ls : List (List Char)) : join ['\n'] (ls ++ [[]]) = unlines ls := by
  induction ls with
  | nil => rfl
  | cons l ls ih =>
    obtain ⟨k, ks, hks⟩ : ∃ k ks, ls ++ [[]] = k :: ks := by
      cases ls <;> exact ⟨_, _, rfl⟩
    rw [List.cons_append, hks, join, ← hks, ih]
    simp [unlines]

/-- Each line of a text is indented. -/
theorem indent_unlines (unit : List Char) {ls : List (List Char)} (h : ∀ l ∈ ls, '\n' ∉ l)
    (hblank : ∀ l ∈ ls, l.all isBlank = false) :
    indent unit (unlines ls) = unlines (ls.map (unit ++ ·)) := by
  rw [indent, cut_unlines h, List.map_append, ← join_newline]
  refine congrArg (join ['\n']) (congrArg (· ++ _) (List.map_congr_left fun l hl => ?_))
  rw [indentLine, hblank l hl]
  rfl

/-! ## The text of a sheet -/

section Indented

variable {t : List Char} {width : Nat}

/-- The last character of an indented line. -/
theorem OneLine.getLast?_indented (h : OneLine t) :
    ∀ c ∈ (List.replicate width ' ' ++ t).getLast?, isBlank c = false := by
  intro c hc
  have hlast := List.getLast?_eq_some_getLast h.trimmed.1
  rw [List.getLast?_append, hlast, Option.some_or, ← hlast] at hc
  exact h.trimmed.2.2 c hc

theorem OneLine.all_indented (h : OneLine t) :
    (List.replicate width ' ' ++ t).all isBlank = false := by
  rw [List.all_eq_false]
  obtain ⟨c, t, rfl⟩ := List.exists_cons_of_ne_nil h.trimmed.1
  exact ⟨c, by simp, by simp [h.trimmed.2.1 c rfl]⟩

theorem OneLine.newline_indented (h : OneLine t) : '\n' ∉ List.replicate width ' ' ++ t := by
  simp [List.mem_replicate, h.ne_newline]

end Indented

namespace Sheet

/-- A property of every line of a sheet. -/
theorem forall_lines {step : Nat} {P : List Char → Prop}
    (hP : ∀ width t, OneLine t → P (List.replicate width ' ' ++ t)) {s : Sheet} (h : s.Proper)
    (width : Nat) : ∀ l ∈ s.lines step width, P l := by
  induction s generalizing width with
  | done =>
    intro l hl
    cases hl
  | line t next ih =>
    rw [lines, List.forall_mem_cons]
    exact ⟨hP width t h.1, ih h.2 width⟩
  | header t body next ihb ih =>
    obtain ⟨ht, -, hb, hn⟩ := h
    rw [lines, List.forall_mem_cons, List.forall_mem_append]
    exact ⟨hP width t ht, ihb hb (width + step), ih hn width⟩

theorem lines_add (step width : Nat) (s : Sheet) :
    (s.lines step width).map (List.replicate step ' ' ++ ·) = s.lines step (width + step) := by
  induction s generalizing width with
  | done => rfl
  | line t next ih =>
    rw [lines, lines, List.map_cons, ih, ← List.append_assoc, List.replicate_append_replicate,
      Nat.add_comm step]
  | header t body next ihb ih =>
    rw [lines, lines, List.map_cons, List.map_append, ihb, ih, ← List.append_assoc,
      List.replicate_append_replicate, Nat.add_comm step]

/-- A sheet is written line by line. -/
theorem text_eq (step : Nat) {s : Sheet} (h : s.Proper) :
    s.text (List.replicate step ' ') = unlines (s.lines step 0) := by
  induction s with
  | done => rfl
  | line t next ih =>
    rw [text, lines, ih h.2]
    simp [unlines]
  | header t body next ihb ih =>
    obtain ⟨ht, -, hb, hn⟩ := h
    rw [text, lines, ih hn, ihb hb,
      indent_unlines _ (forall_lines (fun _ _ h => h.newline_indented) hb 0)
        (forall_lines (fun _ _ h => h.all_indented) hb 0), lines_add]
    simp [unlines]

/-- The lines of a written sheet. -/
theorem lines_text (step : Nat) {s : Sheet} (h : s.Proper) :
    Text.lines (s.text (List.replicate step ' ')) = s.lines step 0 := by
  rw [text_eq step h, lines_unlines (forall_lines (fun _ _ h => h.newline_indented) h 0)]
  refine forall_lines (fun width t ht he => ?_) h 0
  have := ht.getLast?_indented _ he
  cases this

end Sheet

/-! ## Levels -/

namespace Outline

/-- The levels that are open close to a level of a width. -/
def ClosesTo (ls : Levels) (level : Level) (outer : List Level) : Prop :=
  closeTo level.width ls.current ls.outer = ⟨level, outer⟩

theorem closeTo_self (level : Level) (outer : List Level) :
    closeTo level.width level outer = ⟨level, outer⟩ := by
  cases outer with
  | nil => rfl
  | cons around outer => rw [closeTo, if_neg (Nat.lt_irrefl _)]

theorem ClosesTo.self (level : Level) (outer : List Level) : ClosesTo ⟨level, outer⟩ level outer :=
  closeTo_self level outer

/-- What is closed to a width can be closed further. -/
theorem closeTo_closeTo {width width' : Nat} (h : width ≤ width') (current : Level)
    (outer : List Level) :
    closeTo width (closeTo width' current outer).current (closeTo width' current outer).outer =
      closeTo width current outer := by
  induction outer generalizing current with
  | nil => rfl
  | cons around outer ih =>
    rw [closeTo]
    split
    · next hlt => rw [ih, closeTo, if_pos (Nat.lt_of_le_of_lt h hlt)]
    · rfl

theorem closeAll_closeTo (width : Nat) (current : Level) (outer : List Level) :
    closeAll (closeTo width current outer).current (closeTo width current outer).outer =
      closeAll current outer := by
  induction outer generalizing current with
  | nil => rfl
  | cons around outer ih =>
    rw [closeTo]
    split
    · rw [ih, closeAll]
    · rfl

/-- A level that is closed is no narrower than the one it is closed to. -/
theorem ClosesTo.width_le {ls : Levels} {level : Level} {outer : List Level}
    (h : ClosesTo ls level outer) : level.width ≤ ls.current.width := by
  cases hout : ls.outer with
  | nil =>
    rw [ClosesTo, hout, closeTo] at h
    exact Nat.le_of_eq (congrArg (fun ls => ls.current.width) h).symm
  | cons around rest =>
    rw [ClosesTo, hout, closeTo] at h
    split at h
    · next hlt => exact Nat.le_of_lt hlt
    · exact Nat.le_of_eq (congrArg (fun ls => ls.current.width) h).symm

/-- A level takes one more line. -/
def Takes (ls : Levels) (level : Level) (outer : List Level) : Prop :=
  ∀ item : Item, addLine ls level.width item =
    .ok ⟨{ level with items := level.items ++ [item] }, outer⟩

theorem ClosesTo.takes {ls : Levels} {level : Level} {outer : List Level}
    (h : ClosesTo ls level outer) : Takes ls level outer := by
  intro item
  have hc : closeTo level.width ls.current ls.outer = ⟨level, outer⟩ := h
  rw [addLine, if_neg (Nat.not_lt.mpr h.width_le), hc]
  simp

/-- After a line a deeper level can be opened. -/
theorem takes_deeper {level : Level} {outer : List Level} {width : Nat} (h : level.width < width)
    (hline : level.items.getLast?.any Item.isLine = true) :
    Takes ⟨level, outer⟩ ⟨width, []⟩ (level :: outer) := by
  intro item
  rw [addLine, if_pos h, if_pos hline]
  rfl

/-- A deeper level becomes a block of the one around it. -/
theorem ClosesTo.close {ls : Levels} {inner level : Level} {outer : List Level}
    (h : ClosesTo ls inner (level :: outer)) (hw : level.width < inner.width) :
    ClosesTo ls { level with items := level.items ++ [.block inner.items] } outer := by
  have hc : closeTo inner.width ls.current ls.outer = ⟨inner, level :: outer⟩ := h
  have := closeTo_closeTo (Nat.le_of_lt hw) ls.current ls.outer
  rw [hc, closeTo, if_pos hw] at this
  rw [ClosesTo, ← this]
  exact closeTo_self { level with items := level.items ++ [.block inner.items] } outer

/-- An indented line is added at its width. -/
theorem addSource_indented {ls : Levels} {level : Level} {outer : List Level}
    (h : Takes ls level outer) {t : List Char} (ht : OneLine t) (number : Nat) :
    addSource ls (List.replicate level.width ' ' ++ t) number =
      .ok ⟨{ level with items := level.items ++ [.line number t] }, outer⟩ := by
  have hcontrol : (List.replicate level.width ' ' ++ t).any
      (fun c => isControl c && c != '\t') = false := by
    rw [List.any_eq_false]
    intro c hc
    rcases List.mem_append.mp hc with hc | hc
    · rw [(List.mem_replicate.mp hc).2]
      decide
    · simpa using ht.visible c hc
  have hspace : ∀ c ∈ t.head?, (c == ' ') = false := by
    intro c hc
    have hblank := ht.trimmed.2.1 c hc
    rw [beq_eq_false_iff_ne]
    rintro rfl
    cases hblank
  have hdrop : (List.replicate level.width ' ' ++ t).dropWhile (· == ' ') = t := by
    refine dropWhile_run (fun c hc => ?_) hspace
    rw [(List.mem_replicate.mp hc).2]
    rfl
  have htab : t.head? ≠ some '\t' := by
    intro he
    have := ht.trimmed.2.1 _ he
    cases this
  have hlen : (List.replicate level.width ' ' ++ t).length - t.length = level.width := by simp
  rw [addSource, ht.all_indented, if_neg Bool.false_ne_true, hcontrol, if_neg Bool.false_ne_true]
  simp only [hdrop, hlen]
  rw [if_neg htab, h, trimEnd_of_last ht.trimmed.2.2]

theorem addSources_append (raws raws' : List (List Char)) (number : Nat) (ls : Levels) :
    addSources (raws ++ raws') number ls =
      (addSources raws number ls).bind fun ls => addSources raws' (number + raws.length) ls := by
  induction raws generalizing number ls with
  | nil => rfl
  | cons raw raws ih =>
    rw [List.cons_append, addSources, addSources]
    cases addSource ls raw number with
    | ok ls =>
      simp only [ih, List.length_cons, Nat.add_assoc, Nat.add_comm 1]
    | error f => rfl

/-- The lines of a sheet become items of a level. -/
def Adds (step : Nat) (s : Sheet) (number : Nat) (ls : Levels) (level : Level)
    (outer : List Level) : Prop :=
  ∃ ls' items, addSources (s.lines step level.width) number ls = .ok ls' ∧
    ClosesTo ls' { level with items := level.items ++ items } outer ∧ s.Items items

/-- A line is added, and then the rest of a sheet. -/
theorem adds_line {step number : Nat} {t : List Char} {next : Sheet} {ls : Levels} {level : Level}
    {outer : List Level} (hls : Takes ls level outer) (ht : OneLine t)
    (hnext : Adds step next (number + 1)
      ⟨{ level with items := level.items ++ [.line number t] }, outer⟩
      { level with items := level.items ++ [.line number t] } outer) :
    Adds step (.line t next) number ls level outer := by
  obtain ⟨ls', items, hadd, hcloses, hitems⟩ := hnext
  refine ⟨ls', .line number t :: items, ?_, ?_, number, items, rfl, hitems⟩
  · rw [Sheet.lines, addSources, addSource_indented hls ht]
    exact hadd
  · rwa [List.append_assoc, List.singleton_append] at hcloses

theorem adds_header {step number : Nat} (hstep : 0 < step) {t : List Char} {body next : Sheet}
    {ls : Levels} {level : Level} {outer : List Level} (hls : Takes ls level outer) (ht : OneLine t)
    (hbody : ∀ ls level outer, Takes ls level outer → Adds step body (number + 1) ls level outer)
    (hnext : ∀ number ls level outer, ClosesTo ls level outer →
      Adds step next number ls level outer) :
    Adds step (.header t body next) number ls level outer := by
  have hlt : level.width < level.width + step := Nat.lt_add_of_pos_right hstep
  have hdeeper : Takes ⟨{ level with items := level.items ++ [.line number t] }, outer⟩
      ⟨level.width + step, []⟩
      ({ level with items := level.items ++ [.line number t] } :: outer) :=
    takes_deeper hlt (by simp [Item.isLine])
  obtain ⟨ls', inner, hadd, hcloses, hinner⟩ := hbody _ _ _ hdeeper
  obtain ⟨ls'', items, hadd', hcloses', hitems⟩ :=
    hnext (number + 1 + (body.lines step (level.width + step)).length) _ _ _ (hcloses.close hlt)
  refine ⟨ls'', .line number t :: .block inner :: items, ?_, ?_, number, inner, items, rfl, hinner,
    hitems⟩
  · rw [Sheet.lines, addSources, addSource_indented hls ht]
    show addSources _ _ _ = _
    rw [addSources_append, hadd]
    exact hadd'
  · simpa using hcloses'

/-- The lines of a sheet are added where a level takes them, and become its items. -/
theorem adds_sheet {step : Nat} (hstep : 0 < step) {s : Sheet} (h : s.Proper) (hne : s ≠ .done)
    (number : Nat) {ls : Levels} {level : Level} {outer : List Level}
    (hls : Takes ls level outer) : Adds step s number ls level outer := by
  -- what follows a line is added to a level that is open, and may be nothing
  have settled {next : Sheet} {number : Nat} {ls : Levels} {level : Level} {outer : List Level}
      (ih : next ≠ .done → Adds step next number ls level outer)
      (hls : ClosesTo ls level outer) : Adds step next number ls level outer := by
    by_cases hd : next = .done
    · subst hd
      exact ⟨ls, [], rfl, by simpa using hls, rfl⟩
    · exact ih hd
  induction s generalizing number ls level outer with
  | done => exact absurd rfl hne
  | line t next ih =>
    refine adds_line hls h.1 (settled (fun hd => ?_) (.self _ _))
    exact ih h.2 hd _ (ClosesTo.self _ _).takes
  | header t body next ihb ih =>
    obtain ⟨ht, hbne, hb, hn⟩ := h
    refine adds_header hstep hls ht (fun _ _ _ hls => ihb hb hbne _ hls) fun _ _ _ _ hls => ?_
    exact settled (fun hd => ih hn hd _ hls.takes) hls

/-- The outline of a written sheet is the sheet. -/
theorem ofSource_text {step : Nat} (hstep : 0 < step) {s : Sheet} (h : s.Proper) :
    ∃ items, ofSource (s.text (List.replicate step ' ')) = .ok items ∧ s.Items items := by
  by_cases hd : s = .done
  · subst hd
    exact ⟨[], rfl, rfl⟩
  · obtain ⟨ls, items, hadd, hcloses, hitems⟩ := adds_sheet hstep h hd 1
      (ClosesTo.self ⟨0, []⟩ []).takes
    refine ⟨items, ?_, hitems⟩
    have hc : closeTo 0 ls.current ls.outer = ⟨⟨0, items⟩, []⟩ := hcloses
    have hall := closeAll_closeTo 0 ls.current ls.outer
    rw [hc] at hall
    rw [ofSource, Sheet.lines_text step h, hadd]
    exact congrArg Except.ok hall.symm

end Outline

end BlockText.Program

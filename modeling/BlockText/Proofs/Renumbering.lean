import BlockText.Program.Reader
import BlockText.Proofs.Outlines

/-!
# Blank lines

The number of a line is only ever reported. So the reader commutes with every renumbering of the
lines: it makes the same workspace, or it fails on the same text for the same reason, with the new
number in place of the old one. A blank line that is put into a source leaves no item in the outline
and moves the numbers of the lines after it up by one.
-/

namespace BlockText.Program

open Text

/-! ## Other numbers for the lines -/

mutual

/-- An item with other numbers on its lines. -/
def Item.renumber (f : Nat → Nat) : Item → Item
  | .line number text => .line (f number) text
  | .block items => .block (Item.renumberAll f items)

/-- Items with other numbers on their lines. -/
def Item.renumberAll (f : Nat → Nat) : List Item → List Item
  | [] => []
  | item :: items => Item.renumber f item :: Item.renumberAll f items

end

/-- A failure on a line with another number. -/
def Failure.renumber (f : Nat → Nat) (e : Failure) : Failure := { e with line := f e.line }

/-- A unit with other numbers on the lines that it spans. -/
def Match.renumber (f : Nat → Nat) (m : Match) : Match :=
  { m with covered := m.covered.map (Item.renumber f) }

variable {f : Nat → Nat} {items : List Item} {item : Item} {r : Registry}

theorem Item.renumberAll_eq (f : Nat → Nat) (items : List Item) :
    renumberAll f items = items.map (renumber f) := by
  induction items with
  | nil => rfl
  | cons item items ih => rw [renumberAll, ih, List.map_cons]

theorem Item.renumber_block (f : Nat → Nat) (items : List Item) :
    renumber f (.block items) = .block (items.map (renumber f)) := by
  rw [renumber, renumberAll_eq]

theorem Item.isLine_renumber (f : Nat → Nat) (item : Item) :
    (renumber f item).isLine = item.isLine := by
  cases item <;> rfl

mutual

theorem Item.height_renumber (f : Nat → Nat) (item : Item) :
    (renumber f item).height = item.height := by
  cases item with
  | line number text => rfl
  | block items => exact congrArg (· + 1) (heightAll_renumber f items)

theorem Item.heightAll_renumber (f : Nat → Nat) (items : List Item) :
    heightAll (renumberAll f items) = heightAll items := by
  cases items with
  | nil => rfl
  | cons item items =>
    rw [renumberAll, heightAll, height_renumber f item, heightAll_renumber f items, heightAll]

end

/-- The first line of an item gets its new number; an item without lines has number 0. -/
theorem Item.firstLine_renumber (hf : f 0 = 0) : ∀ item : Item,
    (renumber f item).firstLine = (f item.firstLine.1, item.firstLine.2)
  | .line number text => rfl
  | .block [] => by rw [renumber, renumberAll, firstLine, hf]
  | .block (item :: items) => by
    rw [renumber, renumberAll, firstLine, firstLine_renumber hf item, firstLine]

theorem spell_renumber (f : Nat → Nat) (items : List Item) :
    spell (items.map (Item.renumber f)) = spell items := by
  induction items with
  | nil => rfl
  | cons item items ih =>
    cases item with
    | line number text => exact congrArg (text ++ ['\n'] ++ ·) ih
    | block inner => exact congrArg (blockMark ++ ['\n'] ++ ·) ih

theorem blocks_renumber (f : Nat → Nat) (items : List Item) :
    blocks (items.map (Item.renumber f)) = (blocks items).map (List.map (Item.renumber f)) := by
  induction items with
  | nil => rfl
  | cons item items ih =>
    cases item with
    | line number text => exact ih
    | block inner => rw [List.map_cons, Item.renumber_block, blocks, ih, blocks, List.map_cons]

theorem isNoop_renumber (f : Nat → Nat) (options : Options) (item : Item) :
    isNoop options (Item.renumber f item) = isNoop options item := by
  cases item <;> rfl

/-! ## Reading with other numbers -/

theorem mapError_bind {ε ε' α β : Type} (h : ε → ε') (x : Except ε α) (g : α → Except ε β) :
    (x >>= g).mapError h = x.mapError h >>= fun a => (g a).mapError h := by
  cases x <;> rfl

theorem unmatched_renumber (hf : f 0 = 0) (item : Item) :
    unmatched (Item.renumber f item) = (unmatched item).renumber f := by
  rw [unmatched, Item.firstLine_renumber hf, Item.isLine_renumber]
  rfl

/-- An idiom takes what it takes whatever the numbers are. -/
theorem matchOne_renumber (f : Nat → Nat) (items : List Item) (text : List Char) (d : Definition) :
    matchOne (items.map (Item.renumber f)) text d =
      (matchOne items text d).map (Match.renumber f) := by
  cases hfound : d.recover text with
  | none =>
    rw [matchOne, matchOne, hfound]
    rfl
  | some found =>
    obtain ⟨extraction, blueprint, matched⟩ := found
    have hmatch (is : List Item) : matchOne is text d =
        (guard (0 < matched.count '\n' && matched.count '\n' ≤ is.length) >>= fun _ =>
          guard ((blocks (is.take (matched.count '\n'))).length == extraction.bodies.length) >>=
            fun _ => some ⟨extraction, blueprint, is.take (matched.count '\n')⟩) := by
      rw [matchOne, hfound]
      rfl
    -- both checks read only lengths, so they come out alike
    rw [hmatch, hmatch, List.length_map, ← List.map_take, blocks_renumber, List.length_map]
    cases (guard (0 < matched.count '\n' && matched.count '\n' ≤ items.length) : Option Unit) with
    | none => rfl
    | some _ =>
      cases (guard ((blocks (items.take (matched.count '\n'))).length ==
          extraction.bodies.length) : Option Unit) with
      | none => rfl
      | some _ => rfl

theorem matchUnit_renumber (f : Nat → Nat) (r : Registry) (top : Bool) (items : List Item) :
    matchUnit r top (items.map (Item.renumber f)) =
      (matchUnit r top items).map (Match.renumber f) := by
  rw [matchUnit, matchUnit, spell_renumber]
  induction r.statementIdioms top with
  | nil => rfl
  | cons d ds ih =>
    rw [List.findSome?_cons, List.findSome?_cons, matchOne_renumber, ih]
    cases matchOne items (spell items) d <;> rfl

theorem lineOf_renumber (f : Nat → Nat) (covered : List Item) (line : Nat) (source : List Char) :
    lineOf (covered.map (Item.renumber f)) (f line) source = f (lineOf covered line source) := by
  unfold lineOf
  induction covered with
  | nil => rfl
  | cons item items ih =>
    rw [List.map_cons, List.findSome?_cons, List.findSome?_cons]
    cases item with
    | block inner => exact ih
    | line number text =>
      simp only [Item.renumber]
      by_cases hpart : hasPart source text = true
      · rw [if_pos hpart, if_pos hpart]
        rfl
      · rw [if_neg hpart, if_neg hpart]
        exact ih

theorem attach_renumber (f : Nat → Nat) (w : Workspace) (line : Nat) (parent : NodeId)
    (input : String) (source : List Char) (child : NodeId) :
    attach w (f line) parent input source child =
      (attach w line parent input source child).mapError (Failure.renumber f) := by
  unfold attach
  split <;> rfl

theorem attachAll_renumber
    {read : Nat → List Char → Workspace → Except Failure (Workspace × NodeId)}
    (hread : ∀ line source w, read (f line) source w =
      (read line source w).mapError (Failure.renumber f)) {lineOf lineOf' : List Char → Nat}
    (hline : ∀ source, lineOf' source = f (lineOf source)) (parent : NodeId)
    (values : List (String × List Char)) (w : Workspace) :
    attachAll read lineOf' parent values w =
      (attachAll read lineOf parent values w).mapError (Failure.renumber f) := by
  induction values generalizing w with
  | nil => rfl
  | cons value values ih =>
    obtain ⟨input, source⟩ := value
    rw [attachAll, attachAll, mapError_bind, hline, hread]
    refine congrArg (_ >>= ·) (funext fun ⟨w, child⟩ => ?_)
    dsimp only
    rw [mapError_bind, attach_renumber]
    exact congrArg (_ >>= ·) (funext ih)

theorem readExpressionUpTo_renumber (f : Nat → Nat) (r : Registry) (depth line : Nat)
    (source : List Char) (w : Workspace) :
    readExpressionUpTo r depth (f line) source w =
      (readExpressionUpTo r depth line source w).mapError (Failure.renumber f) := by
  induction depth generalizing line source w with
  | zero => rfl
  | succ depth ih =>
    rw [readExpressionUpTo, readExpressionUpTo]
    split
    · rfl
    · split
      · rfl
      · rw [mapError_bind, attachAll_renumber ih fun _ => rfl]
        rfl

theorem readExpression_renumber (f : Nat → Nat) (r : Registry) (line : Nat)
    (source : List Char) (w : Workspace) :
    readExpression r (f line) source w =
      (readExpression r line source w).mapError (Failure.renumber f) :=
  readExpressionUpTo_renumber f r _ line source w

theorem attachBody_renumber (f : Nat → Nat) (line : Nat) (text : List Char) (parent : NodeId)
    (input : String) (children : List NodeId) (w : Workspace) :
    attachBody (f line) text parent input children w =
      (attachBody line text parent input children w).mapError (Failure.renumber f) := by
  induction children generalizing w with
  | nil => rfl
  | cons child children ih =>
    rw [attachBody, attachBody]
    split
    · exact ih _
    · rfl

theorem attachBodies_renumber
    {readBlock : List Item → Workspace → Except Failure (Workspace × List NodeId)}
    (hread : ∀ items w, readBlock (items.map (Item.renumber f)) w =
      (readBlock items w).mapError (Failure.renumber f)) (line : Nat) (text : List Char)
    (parent : NodeId) (bodies : List String) (inner : List (List Item)) (w : Workspace) :
    attachBodies readBlock (f line) text parent
        (bodies.zip (inner.map (List.map (Item.renumber f)))) w =
      (attachBodies readBlock line text parent (bodies.zip inner) w).mapError
        (Failure.renumber f) := by
  induction bodies generalizing inner w with
  | nil => rfl
  | cons input bodies ih =>
    cases inner with
    | nil => rfl
    | cons items inner =>
      rw [List.map_cons, List.zip_cons_cons, List.zip_cons_cons, attachBodies, attachBodies,
        mapError_bind, hread]
      refine congrArg (_ >>= ·) (funext fun ⟨w, children⟩ => ?_)
      dsimp only
      rw [mapError_bind, attachBody_renumber]
      exact congrArg (_ >>= ·) (funext fun w => ih inner w)

section Levels

variable {readBlock : List Item → Workspace → Except Failure (Workspace × List NodeId)}

theorem readUnit_renumber (hf : f 0 = 0)
    (hread : ∀ items w, readBlock (items.map (Item.renumber f)) w =
      (readBlock items w).mapError (Failure.renumber f)) (m : Match) (w : Workspace) :
    readUnit r readBlock (m.renumber f) w =
      (readUnit r readBlock m w).mapError (Failure.renumber f) := by
  have hfirst : ((m.renumber f).covered.head?.map Item.firstLine).getD (0, []) =
      (f ((m.covered.head?.map Item.firstLine).getD (0, [])).1,
        ((m.covered.head?.map Item.firstLine).getD (0, [])).2) := by
    rw [Match.renumber, List.head?_map]
    cases m.covered.head? with
    | none => exact congrArg (·, []) hf.symm
    | some item => exact Item.firstLine_renumber hf item
  unfold readUnit
  rw [hfirst]
  obtain ⟨line, text⟩ := (m.covered.head?.map Item.firstLine).getD (0, [])
  simp only [Match.renumber]
  split
  · rfl
  · rw [mapError_bind, attachAll_renumber (readExpression_renumber f r)
      (lineOf_renumber f m.covered line)]
    refine congrArg (_ >>= ·) (funext fun w => ?_)
    rw [mapError_bind, blocks_renumber, attachBodies_renumber hread]
    rfl

theorem readUnits_renumber (hf : f 0 = 0)
    (hread : ∀ items w, readBlock (items.map (Item.renumber f)) w =
      (readBlock items w).mapError (Failure.renumber f)) (top : Bool) (bound : Nat)
    (items : List Item) (w : Workspace) :
    readUnits r top readBlock bound (items.map (Item.renumber f)) w =
      (readUnits r top readBlock bound items w).mapError (Failure.renumber f) := by
  induction bound generalizing items w with
  | zero =>
    cases items with
    | nil => rfl
    | cons item items => exact congrArg Except.error (unmatched_renumber hf item)
  | succ bound ih =>
    cases items with
    | nil => rfl
    | cons item items =>
      rw [List.map_cons, readUnits, ← List.map_cons, matchUnit_renumber, readUnits]
      cases matchUnit r top (item :: items) with
      | none => exact congrArg Except.error (unmatched_renumber hf item)
      | some m =>
        simp only [Option.map_some]
        rw [mapError_bind, readUnit_renumber hf hread]
        refine congrArg (_ >>= ·) (funext fun p => ?_)
        rw [mapError_bind, Match.renumber, List.length_map, ← List.map_drop, ih]
        rfl

end Levels

/-- A level with other numbers is read into the same nodes, or fails with the other number. -/
theorem readLevel_renumber (hf : f 0 = 0) (options : Options) (depth : Nat) (top : Bool)
    (items : List Item) (w : Workspace) :
    readLevel r options depth top (items.map (Item.renumber f)) w =
      (readLevel r options depth top items w).mapError (Failure.renumber f) := by
  have hfilter (items : List Item) :
      (items.map (Item.renumber f)).filter (fun i => !isNoop options i) =
        (items.filter fun i => !isNoop options i).map (Item.renumber f) := by
    rw [List.filter_map]
    refine congrArg (List.map _) (List.filter_congr fun item _ => ?_)
    rw [Function.comp_apply, isNoop_renumber]
  induction depth generalizing top items w with
  | zero =>
    rw [readLevel, readLevel]
    simp only [hfilter, List.length_map]
    exact readUnits_renumber hf (fun _ _ => rfl) top _ _ w
  | succ depth ih =>
    rw [readLevel, readLevel]
    simp only [hfilter, List.length_map]
    exact readUnits_renumber hf (ih false) top _ _ w

theorem build_renumber (hf : f 0 = 0) (s : Setup) (items : List Item) :
    build s (items.map (Item.renumber f)) =
      (build s items).mapError (Failure.renumber f) := by
  rw [build, build, ← Item.renumberAll_eq, Item.heightAll_renumber, Item.renumberAll_eq,
    readLevel_renumber hf]
  cases readLevel s.registry s.options (Item.heightAll items) true items {} <;> rfl

/-! ## Outlines with other numbers -/

namespace Outline

/-- A level with other numbers on its lines. -/
def Level.renumber (f : Nat → Nat) (level : Level) : Level :=
  { level with items := level.items.map (Item.renumber f) }

/-- Levels with other numbers on their lines. -/
def Levels.renumber (f : Nat → Nat) (ls : Levels) : Levels :=
  ⟨ls.current.renumber f, ls.outer.map (Level.renumber f)⟩

theorem close_renumber (f : Nat → Nat) (inner outer : Level) :
    close (inner.renumber f) (outer.renumber f) = (close inner outer).renumber f := by
  simp only [close, Level.renumber, List.map_append, List.map_cons, List.map_nil,
    Item.renumber_block]

theorem closeTo_renumber (f : Nat → Nat) (width : Nat) (current : Level) (outer : List Level) :
    closeTo width (current.renumber f) (outer.map (Level.renumber f)) =
      (closeTo width current outer).renumber f := by
  induction outer generalizing current with
  | nil => rfl
  | cons around outer ih =>
    rw [List.map_cons, closeTo, closeTo]
    by_cases hlt : width < current.width
    · rw [if_pos hlt, if_pos (show width < (current.renumber f).width from hlt), close_renumber, ih]
    · rw [if_neg hlt, if_neg (show ¬width < (current.renumber f).width from hlt)]
      rfl

theorem closeAll_renumber (f : Nat → Nat) (current : Level) (outer : List Level) :
    closeAll (current.renumber f) (outer.map (Level.renumber f)) =
      (closeAll current outer).map (Item.renumber f) := by
  induction outer generalizing current with
  | nil => rfl
  | cons around outer ih => rw [List.map_cons, closeAll, close_renumber, ih, closeAll]

theorem any_isLine_renumber (f : Nat → Nat) (items : List Item) :
    (items.map (Item.renumber f)).getLast?.any Item.isLine = items.getLast?.any Item.isLine := by
  rw [List.getLast?_map]
  cases items.getLast? with
  | none => rfl
  | some item => exact Item.isLine_renumber f item

theorem addLine_renumber (f : Nat → Nat) (ls : Levels) (width : Nat) (line : Item) :
    addLine (ls.renumber f) width (Item.renumber f line) =
      (addLine ls width line).map (Levels.renumber f) := by
  rw [addLine, addLine]
  by_cases hlt : ls.current.width < width
  · rw [if_pos hlt, if_pos (show (ls.renumber f).current.width < width from hlt)]
    show (if (ls.current.items.map (Item.renumber f)).getLast?.any Item.isLine = true then _ else _)
      = _
    rw [any_isLine_renumber]
    split <;> rfl
  · have hclosed : closeTo width (ls.renumber f).current (ls.renumber f).outer =
        (closeTo width ls.current ls.outer).renumber f :=
      closeTo_renumber f width ls.current ls.outer
    rw [if_neg hlt, if_neg (show ¬(ls.renumber f).current.width < width from hlt), hclosed]
    generalize closeTo width ls.current ls.outer = closed
    by_cases hw : closed.current.width = width
    · simp only [Levels.renumber, Level.renumber, hw, if_true, Except.map, List.map_append,
        List.map_cons, List.map_nil]
    · simp only [Levels.renumber, Level.renumber, hw, if_false, Except.map]

/-- What is found with other numbers on the lines. -/
def renumber (f : Nat → Nat) : Except Failure Levels → Except Failure Levels
  | .ok ls => .ok (ls.renumber f)
  | .error e => .error (e.renumber f)

theorem addSource_renumber (f : Nat → Nat) (ls : Levels) (raw : List Char) (number : Nat) :
    addSource (ls.renumber f) raw (f number) = renumber f (addSource ls raw number) := by
  rw [addSource, addSource]
  by_cases hblank : raw.all isBlank = true
  · rw [if_pos hblank, if_pos hblank]
    rfl
  rw [if_neg hblank, if_neg hblank]
  by_cases hcontrol : (raw.any fun c => isControl c && c != '\t') = true
  · rw [if_pos hcontrol, if_pos hcontrol]
    rfl
  rw [if_neg hcontrol, if_neg hcontrol]
  dsimp only
  by_cases htab : (raw.dropWhile (· == ' ')).head? = some '\t'
  · rw [if_pos htab, if_pos htab]
    rfl
  · rw [if_neg htab, if_neg htab, ← Item.renumber, addLine_renumber]
    cases addLine ls (raw.length - (raw.dropWhile (· == ' ')).length)
      (.line number (trimEnd (raw.dropWhile (· == ' ')))) <;> rfl

/-- Lines that have other numbers are added in the same way. -/
theorem addSources_renumber {raws : List (List Char)} {number number' : Nat}
    (h : ∀ j < raws.length, f (number + j) = number' + j) (ls : Levels) :
    addSources raws number' (ls.renumber f) = renumber f (addSources raws number ls) := by
  induction raws generalizing number number' ls with
  | nil => rfl
  | cons raw raws ih =>
    have hfirst : number' = f number := (h 0 (Nat.zero_lt_succ _)).symm
    have hrest (j : Nat) (hj : j < raws.length) : f (number + 1 + j) = number' + 1 + j := by
      have := h (j + 1) (Nat.succ_lt_succ hj)
      rw [Nat.add_assoc, Nat.add_comm 1, this]
      omega
    subst hfirst
    rw [addSources, addSources, addSource_renumber]
    cases addSource ls raw number with
    | ok ls => exact ih hrest ls
    | error e => rfl

theorem addSources_blank {raw : List Char} (h : raw.all isBlank = true)
    (raws : List (List Char)) (number : Nat) (ls : Levels) :
    addSources (raw :: raws) number ls = addSources raws (number + 1) ls := by
  rw [addSources, addSource, if_pos h]

end Outline

/-! ## A blank line in a source -/

theorem cut_append_separator (separator : Char) (t rest : List Char) :
    cut separator (t ++ separator :: rest) = cut separator t ++ cut separator rest := by
  induction t with
  | nil =>
    rw [List.nil_append, cut.eq_2, if_pos rfl]
    rfl
  | cons c t ih =>
    rw [List.cons_append, cut, cut, ih]
    by_cases hc : c = separator
    · rw [if_pos hc, if_pos hc, List.cons_append]
    · rw [if_neg hc, if_neg hc]
      obtain ⟨piece, pieces, hcut⟩ := List.exists_cons_of_ne_nil (cut_ne_nil separator t)
      rw [hcut]
      rfl

theorem linesOfPieces_append (ps : List (List Char)) {qs : List (List Char)} (h : qs ≠ []) :
    linesOfPieces (ps ++ qs) = ps.map chomp ++ linesOfPieces qs := by
  induction ps with
  | nil => rfl
  | cons p ps ih =>
    obtain ⟨q, rest, hrest⟩ : ∃ q rest, ps ++ qs = q :: rest :=
      List.exists_cons_of_ne_nil fun he => h (List.append_eq_nil_iff.mp he).2
    rw [List.cons_append, hrest, linesOfPieces, ← hrest, ih]
    rfl

/-- The lines of a text that ends in a newline stand before those of what follows it. -/
theorem lines_append_newline (t rest : List Char) :
    Text.lines (t ++ '\n' :: rest) = (cut '\n' t).map chomp ++ Text.lines rest := by
  rw [Text.lines, cut_append_separator, linesOfPieces_append _ (cut_ne_nil '\n' rest), Text.lines]

/-- The first line of a source ends at the first newline. -/
theorem lines_line {line : List Char} (h : '\n' ∉ line) (rest : List Char) :
    Text.lines (line ++ '\n' :: rest) = chomp line :: Text.lines rest := by
  have hcut : cut '\n' line = [line] := by
    simpa [cut] using cut_append h []
  rw [lines_append_newline, hcut]
  rfl

/-- A line can begin after a text: at the start of a source, or after a newline. -/
def Ended (before : List Char) : Prop := before = [] ∨ ∃ t, before = t ++ ['\n']

theorem Ended.lines_append {before : List Char} (h : Ended before) :
    ∃ ls, ls.length = before.count '\n' ∧
      ∀ rest, Text.lines (before ++ rest) = ls ++ Text.lines rest := by
  rcases h with rfl | ⟨t, rfl⟩
  · exact ⟨[], rfl, fun rest => rfl⟩
  · refine ⟨(cut '\n' t).map chomp, ?_, fun rest => ?_⟩
    · rw [List.length_map, length_cut, List.count_append]
      rfl
    · rw [List.append_assoc, List.singleton_append, lines_append_newline]

theorem mem_of_mem_chomp {t : List Char} {c : Char} (h : c ∈ chomp t) : c ∈ t := by
  fun_induction chomp t with
  | case1 => exact h
  | case2 => exact absurd h List.not_mem_nil
  | case3 => exact h
  | case4 d e cs ih =>
    rcases List.mem_cons.mp h with rfl | h
    · exact List.mem_cons_self
    · exact List.mem_cons_of_mem _ (ih h)

/-- A line of blanks is a blank line. -/
theorem lines_blank {blank : List Char} (hblank : ∀ c ∈ blank, isBlank c = true)
    (hline : '\n' ∉ blank) (rest : List Char) :
    ∃ raw, Text.lines (blank ++ '\n' :: rest) = raw :: Text.lines rest ∧
      raw.all isBlank = true :=
  ⟨chomp blank, lines_line hline rest,
    List.all_eq_true.mpr fun c hc => hblank c (mem_of_mem_chomp hc)⟩

/-- The number that a line has after a line is put in after the first `n` lines. -/
def shifted (n line : Nat) : Nat := if line ≤ n then line else line + 1

theorem shifted_of_le {n line : Nat} (h : line ≤ n) : shifted n line = line := if_pos h

theorem shifted_of_lt {n line : Nat} (h : n < line) : shifted n line = line + 1 :=
  if_neg (Nat.not_le.mpr h)

/-- The outline of a source with one more blank line is the outline of the source, with other
numbers. -/
theorem Outline.ofSource_blank {before blank : List Char} (hbefore : Ended before)
    (hblank : ∀ c ∈ blank, isBlank c = true) (hline : '\n' ∉ blank) (rest : List Char) :
    ofSource (before ++ (blank ++ '\n' :: rest)) =
      ((ofSource (before ++ rest)).map (List.map (Item.renumber (shifted (before.count '\n'))))
        ).mapError (Failure.renumber (shifted (before.count '\n'))) := by
  obtain ⟨ls, hlen, hlines⟩ := hbefore.lines_append
  obtain ⟨raw, hraw, hall⟩ := lines_blank hblank hline rest
  generalize before.count '\n' = n at hlen ⊢
  -- the lines before keep their numbers, and those after are one further
  have hkept : addSources ls 1 ⟨⟨0, []⟩, []⟩ =
      renumber (shifted n) (addSources ls 1 ⟨⟨0, []⟩, []⟩) :=
    addSources_renumber (fun j hj => shifted_of_le (by omega)) ⟨⟨0, []⟩, []⟩
  have hmoved (open' : Levels) :
      addSources (Text.lines rest) (1 + n + 1) (open'.renumber (shifted n)) =
        renumber (shifted n) (addSources (Text.lines rest) (1 + n) open') :=
    addSources_renumber (fun j hj => by rw [shifted_of_lt (by omega)]; omega) open'
  rw [ofSource, ofSource, hlines, hlines, hraw, addSources_append, addSources_append, hlen]
  cases hadd : addSources ls 1 ⟨⟨0, []⟩, []⟩ with
  | error e =>
    rw [hadd] at hkept
    exact congrArg Except.error (Except.error.inj hkept)
  | ok reached =>
    rw [hadd] at hkept
    have hsame : reached = reached.renumber (shifted n) := Except.ok.inj hkept
    have hrest := hmoved reached
    rw [← hsame] at hrest
    simp only [Except.bind]
    rw [addSources_blank hall, hrest]
    cases addSources (Text.lines rest) (1 + n) reached with
    | error e => rfl
    | ok ls => exact congrArg Except.ok (closeAll_renumber _ ls.current ls.outer)

theorem readChars_blank (s : Setup) {before blank : List Char} (hbefore : Ended before)
    (hblank : ∀ c ∈ blank, isBlank c = true) (hline : '\n' ∉ blank) (rest : List Char) :
    readChars s (before ++ (blank ++ '\n' :: rest)) =
      (readChars s (before ++ rest)).mapError
        (Failure.renumber (shifted (before.count '\n'))) := by
  have hzero : shifted (before.count '\n') 0 = 0 := shifted_of_le (Nat.zero_le _)
  rw [readChars, readChars, Outline.ofSource_blank hbefore hblank hline]
  cases Outline.ofSource (before ++ rest) with
  | error e => rfl
  | ok items =>
    show build s (items.map (Item.renumber _)) >>= _ = _
    rw [build_renumber hzero]
    show _ = (build s items >>= _).mapError _
    cases build s items <;> rfl

/-- A blank line that is put in at the start of a source or after a newline changes nothing but the
numbers of the lines after it: the source is read into the same workspace with the same notices, or
reading fails on the same text for the same reason. -/
theorem read_insert_blank (s : Setup) (before blank after : String)
    (hbefore : before = "" ∨ ∃ t, before = t ++ "\n")
    (hblank : ∀ c ∈ blank.toList, isBlank c = true) (hline : '\n' ∉ blank.toList) :
    read s (before ++ blank ++ "\n" ++ after) =
      (read s (before ++ after)).mapError fun e =>
        { e with line := if e.line ≤ before.toList.count '\n' then e.line else e.line + 1 } := by
  have hended : Ended before.toList := by
    rcases hbefore with rfl | ⟨t, rfl⟩
    · exact .inl rfl
    · exact .inr ⟨t.toList, String.toList_append⟩
  rw [read, read]
  simp only [String.toList_append, List.append_assoc]
  exact readChars_blank s hended hblank hline after.toList

/-- Between a header and its block, in a source that is read and in one that is not. -/
theorem read_insert_blank_header :
    (∃ reading, read {} "while True:\n    basic.clear_screen()\n" = .ok reading ∧
      read {} "while True:\n \t\n    basic.clear_screen()\n" = .ok reading) ∧
    ∃ e, read {} "while True:\n    nonsense\n" = .error e ∧
      read {} "while True:\n \t\n    nonsense\n" =
        .error { e with line := if e.line ≤ 1 then e.line else e.line + 1 } := by
  have hread (after : String) :=
    read_insert_blank {} "while True:\n" " \t" after (.inr ⟨"while True:", rfl⟩) (by decide)
      (by decide)
  constructor
  · have hok : (read {} "while True:\n    basic.clear_screen()\n").isOk = true := by
      decide +kernel
    cases h : read {} "while True:\n    basic.clear_screen()\n" with
    | error e =>
      rw [h] at hok
      cases hok
    | ok reading =>
      refine ⟨reading, rfl, ?_⟩
      have := hread "    basic.clear_screen()\n"
      rwa [show "while True:\n" ++ "    basic.clear_screen()\n" =
        "while True:\n    basic.clear_screen()\n" from rfl, h] at this
  · have hok : (read {} "while True:\n    nonsense\n").isOk = false := by decide +kernel
    cases h : read {} "while True:\n    nonsense\n" with
    | error e =>
      refine ⟨e, rfl, ?_⟩
      have := hread "    nonsense\n"
      rwa [show "while True:\n" ++ "    nonsense\n" = "while True:\n    nonsense\n" from rfl,
        h] at this
    | ok reading =>
      rw [h] at hok
      cases hok

end BlockText.Program

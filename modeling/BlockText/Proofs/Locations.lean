import BlockText.Proofs.Accounting
import BlockText.Proofs.Excerpts

/-!
# Where failures are

A program that cannot be read is refused with a line and a text, and the text stands on that line
of the source. The outline keeps the number of each line, and no block of it is empty, so the first
line of an item is always there. The source of an input is an excerpt of a line of its unit, so the
search for its line finds one; and an operand is an excerpt of the expression around it, so it
stands on the same line.
-/

namespace BlockText.Program

open Text Pattern

variable {raws : List (List Char)} {line number : Nat} {text part : List Char} {α β : Type}

/-- A text stands on a line of a source. Lines count from one. -/
structure Cites (raws : List (List Char)) (line : Nat) (text : List Char) : Prop where
  pos : 1 ≤ line
  part : ∃ raw, raws[line - 1]? = some raw ∧ text <:+: raw

theorem Cites.mono (h : Cites raws line text) (hp : part <:+: text) : Cites raws line part := by
  obtain ⟨hpos, raw, hraw, htext⟩ := h
  exact ⟨hpos, raw, hraw, hp.trans htext⟩

theorem Cites.le_length (h : Cites raws line text) : line ≤ raws.length := by
  obtain ⟨hpos, raw, hraw, -⟩ := h
  have := (List.getElem?_eq_some_iff.mp hraw).1
  omega

/-- A step of reading that fails only with a text that stands on the line it names. -/
def Located (raws : List (List Char)) (result : Except Failure α) : Prop :=
  ∀ f, result = .error f → Cites raws f.line f.text

theorem located_ok (a : α) : Located raws (.ok a : Except Failure α) := by
  intro f h
  cases h

theorem located_error {f : Failure} (h : Cites raws f.line f.text) :
    Located raws (.error f : Except Failure α) := by
  intro f' he
  cases he
  exact h

theorem Located.bind {x : Except Failure α} {f : α → Except Failure β} (hx : Located raws x)
    (hf : ∀ a, x = .ok a → Located raws (f a)) : Located raws (x >>= f) := by
  intro e h
  cases x with
  | error e' =>
    apply hx e
    cases h
    rfl
  | ok a => exact hf a rfl e h

/-! ## Outlines -/

/-- The lines of an item stand in a source under their numbers, and no block is empty. -/
inductive Item.Cited (raws : List (List Char)) : Item → Prop where
  | line {number : Nat} {text : List Char} (h : Cites raws number text) :
      Cited raws (.line number text)
  | block {items : List Item} (hne : items ≠ []) (h : ∀ i ∈ items, Cited raws i) :
      Cited raws (.block items)

theorem Item.Cited.firstLine {item : Item} (h : item.Cited raws) :
    Cites raws item.firstLine.1 item.firstLine.2 := by
  induction h with
  | line h => exact h
  | @block items hne h ih =>
    obtain ⟨i, rest, rfl⟩ := List.exists_cons_of_ne_nil hne
    exact ih i List.mem_cons_self

theorem Item.cited_of_mem_blocks {items inner : List Item} (h : ∀ i ∈ items, i.Cited raws)
    (hinner : inner ∈ blocks items) : ∀ i ∈ inner, i.Cited raws := by
  induction items with
  | nil => cases hinner
  | cons item items ih =>
    rw [List.forall_mem_cons] at h
    cases item with
    | line number t => exact ih h.2 hinner
    | block inner' =>
      rcases List.mem_cons.mp hinner with rfl | hinner
      · cases h.1 with
        | block _ h => exact h
      · exact ih h.2 hinner

namespace Outline

theorem infix_stripped (raw : List Char) : stripped raw <:+: raw :=
  (Text.trimEnd_prefix _).isInfix.trans (List.dropWhile_suffix _).isInfix

theorem cites_of_mem_numberedFrom {l : Nat × List Char} (h : l ∈ numberedFrom 1 raws) :
    Cites raws l.1 l.2 := by
  obtain ⟨⟨raw, number⟩, hraw, rfl⟩ := List.mem_map.mp h
  obtain ⟨hpos, hraw⟩ :=
    List.mk_mem_zipIdx_iff_le_and_getElem?_sub.mp (List.mem_of_mem_filter hraw)
  exact ⟨hpos, raw, hraw, infix_stripped raw⟩

theorem Layered.cited {indent : Nat → Nat} {width : Nat} {items : List Item}
    (h : Layered indent width items) (hlines : ∀ l ∈ Item.numberedAll items, Cites raws l.1 l.2) :
    ∀ i ∈ items, i.Cited raws := by
  induction h with
  | nil => exact List.forall_mem_nil _
  | line _ _ ih =>
    rw [Item.numberedAll_append, List.forall_mem_append] at hlines
    rw [List.forall_mem_append, List.forall_mem_singleton]
    exact ⟨ih hlines.1, .line (hlines.2 _ List.mem_cons_self)⟩
  | @block _ _ items inner _ _ _ hfirst _ ih ihinner =>
    rw [Item.numberedAll_append, List.forall_mem_append] at hlines
    rw [List.forall_mem_append, List.forall_mem_singleton]
    have hne : inner ≠ [] := by
      rintro rfl
      cases hfirst
    exact ⟨ih hlines.1, .block hne (ihinner fun l hl => hlines.2 l (List.mem_append_left _ hl))⟩

/-- A source line that is not taken is cited in the failure. -/
theorem located_addSource {ls : Levels} {raw : List Char} (hraw : Cites raws number raw) :
    Located raws (addSource ls raw number) := by
  have hline := hraw.mono (infix_stripped raw)
  unfold addSource
  split
  · exact located_ok _
  · split
    · exact located_error hraw
    · dsimp only
      split
      · exact located_error hraw
      · split
        · exact located_ok _
        · exact located_error hline

/-- The invariant of the walk over the lines: those before `number` are done. -/
theorem located_addSources (ls : Levels) (done rest : List (List Char))
    (hraws : raws = done ++ rest) (hnumber : number = done.length + 1) :
    Located raws (addSources rest number ls) := by
  induction rest generalizing done number ls with
  | nil => exact located_ok _
  | cons raw rest ih =>
    have hraw : Cites raws number raw := by
      refine ⟨by omega, raw, ?_, List.infix_rfl⟩
      rw [hraws, hnumber, Nat.add_sub_cancel, List.getElem?_append_right (Nat.le_refl _),
        Nat.sub_self]
      rfl
    rw [addSources]
    split
    · next ls₁ hadd => exact ih ls₁ (done ++ [raw]) (by simp [hraws]) (by simp [hnumber])
    · next f hfail => exact located_error (located_addSource hraw f hfail)

/-- An outline cites its source, and so does the failure if there is none. -/
theorem located_ofSource (source : List Char) :
    Located (Text.lines source) (ofSource source) ∧
      ∀ items, ofSource source = .ok items → ∀ i ∈ items, i.Cited (Text.lines source) := by
  refine ⟨?_, fun items h => ?_⟩
  · unfold ofSource
    split
    · exact located_ok _
    · next f hfail =>
      exact located_error
        (located_addSources ⟨⟨0, []⟩, []⟩ [] (Text.lines source) rfl rfl f hfail)
  · obtain ⟨width, hlayered⟩ := layered_ofSource h
    refine hlayered.cited fun l hl => cites_of_mem_numberedFrom ?_
    rwa [← (numberedAll_ofSource h).1]

end Outline

/-! ## Expressions -/

theorem located_attach (w : Workspace) (parent : NodeId) (input : String) (child : NodeId)
    (h : Cites raws line text) : Located raws (attach w line parent input text child) := by
  unfold attach
  split
  · exact located_ok _
  · exact located_error h

theorem located_attachAll {read : Nat → List Char → Workspace → Except Failure (Workspace × NodeId)}
    {lineOf : List Char → Nat} {sources : List (String × List Char)}
    (hread : ∀ s ∈ sources, ∀ w, Located raws (read (lineOf s.2) s.2 w))
    (hcites : ∀ s ∈ sources, Cites raws (lineOf s.2) s.2) (parent : NodeId) (w : Workspace) :
    Located raws (attachAll read lineOf parent sources w) := by
  induction sources generalizing w with
  | nil => exact located_ok w
  | cons s sources ih =>
    rw [List.forall_mem_cons] at hread hcites
    rw [attachAll]
    refine (hread.1 w).bind fun p _ => ?_
    refine (located_attach p.1 parent s.1 p.2 hcites.1).bind fun v _ => ?_
    exact ih hread.2 hcites.2 v

variable {r : Registry}

/-- An expression fails on a part of itself, on its own line. -/
theorem located_readExpressionUpTo (hr : r.Selected) (depth : Nat) (w : Workspace)
    (h : Cites raws line text) : Located raws (readExpressionUpTo r depth line text w) := by
  induction depth generalizing text w with
  | zero => exact located_error h
  | succ depth ih =>
    have htrimmed := h.mono (infix_trim text)
    rw [readExpressionUpTo]
    split
    · exact located_error htrimmed
    · next e b matched hfound =>
      obtain ⟨d, hd, hrecover⟩ := List.exists_of_findSome?_eq_some hfound
      obtain ⟨k, rfl⟩ := hr.exists_kind (List.mem_of_mem_filter hd)
      have hoperands : ∀ s ∈ e.values, Cites raws line s.2 :=
        fun s hs => htrimmed.mono (k.infix_of_recover hrecover s hs)
      split
      · exact located_error htrimmed
      · next id _ =>
        refine Located.bind ?_ fun u _ => located_ok (u, id)
        exact located_attachAll (fun s hs u => ih u (hoperands s hs)) hoperands id _

theorem located_readExpression (hr : r.Selected) (w : Workspace) (h : Cites raws line text) :
    Located raws (readExpression r line text w) :=
  located_readExpressionUpTo hr _ w h

/-! ## Units -/

theorem infix_of_unlines {t : List Char} {ls : List (List Char)} (hne : t ≠ [])
    (ht : '\n' ∉ t) (h : t <:+: unlines ls) : ∃ l ∈ ls, t <:+: l := by
  induction ls with
  | nil => exact absurd (List.infix_nil.mp h) hne
  | cons l ls ih =>
    have htext : unlines (l :: ls) = l ++ '\n' :: unlines ls := by simp [unlines]
    rw [htext] at h
    rcases infix_of_newline ht h with h | h
    · exact ⟨l, List.mem_cons_self, h⟩
    · obtain ⟨k, hk, h⟩ := ih h
      exact ⟨k, List.mem_cons_of_mem l hk, h⟩

/-- What stands on a line of a level stands on one of its own lines. -/
theorem line_of_onLine {items : List Item} (h : OnLine part (spell items)) :
    ∃ number text, .line number text ∈ items ∧ part <:+: text := by
  obtain ⟨t, hpart, ht, hnewline, hmark⟩ := h
  -- the part of the line is in no block mark, so it is not empty and the item is no block
  have hne : t ≠ [] := by
    rintro rfl
    exact hmark List.nil_infix
  rw [spell_eq_unlines] at ht
  obtain ⟨l, hl, htl⟩ := infix_of_unlines hne hnewline ht
  obtain ⟨item, hitem, rfl⟩ := List.mem_map.mp hl
  cases item with
  | line number text => exact ⟨number, text, hitem, hpart.trans htl⟩
  | block inner => exact absurd htl hmark

/-- An item that is a line, with its number. -/
def Item.line? : Item → Option (Nat × List Char)
  | .line number text => some (number, text)
  | .block _ => none

theorem lineOf_eq_find? (covered : List Item) (line : Nat) (source : List Char) :
    lineOf covered line source =
      (((covered.filterMap Item.line?).find? fun l => hasPart source l.2).map (·.1)).getD line := by
  induction covered with
  | nil => rfl
  | cons item covered ih =>
    unfold lineOf at ih ⊢
    cases item with
    | block inner => exact ih
    | line number text =>
      rw [List.findSome?_cons, List.filterMap_cons_some (f := Item.line?) rfl, List.find?_cons]
      dsimp only
      cases hasPart source text with
      | true => rfl
      | false => exact ih

/-- If some line has a source, the search finds a line that has it. -/
theorem lineOf_eq {covered : List Item} (line : Nat) {source : List Char}
    (h : ∃ number text, .line number text ∈ covered ∧ source <:+: text) :
    ∃ number text, .line number text ∈ covered ∧ source <:+: text ∧
      lineOf covered line source = number := by
  obtain ⟨number, text, hmem, hpart⟩ := h
  -- the fallback is not reached: the search does not pass by the line that is given
  have hfound : ((covered.filterMap Item.line?).find? fun l => hasPart source l.2).isSome = true :=
    List.find?_isSome.mpr ⟨(number, text), List.mem_filterMap.mpr ⟨_, hmem, rfl⟩,
      hasPart_iff.mpr hpart⟩
  obtain ⟨l, hl⟩ := Option.isSome_iff_exists.mp hfound
  have hhas := List.find?_some hl
  obtain ⟨item, hitem, hline⟩ := List.mem_filterMap.mp (List.mem_of_find?_eq_some hl)
  cases item with
  | block inner => cases hline
  | line number' text' =>
    cases hline
    refine ⟨number', text', hitem, hasPart_iff.mp hhas, ?_⟩
    rw [lineOf_eq_find?, hl]
    rfl

theorem located_attachBody (h : Cites raws line text) (parent : NodeId) (input : String)
    (children : List NodeId) (w : Workspace) :
    Located raws (attachBody line text parent input children w) := by
  induction children generalizing w with
  | nil => exact located_ok w
  | cons child children ih =>
    rw [attachBody]
    split
    · exact ih _
    · exact located_error h

theorem located_attachBodies
    {readBlock : List Item → Workspace → Except Failure (Workspace × List NodeId)}
    (h : Cites raws line text) {bodies : List (String × List Item)}
    (hread : ∀ b ∈ bodies, ∀ w, Located raws (readBlock b.2 w)) (parent : NodeId) (w : Workspace) :
    Located raws (attachBodies readBlock line text parent bodies w) := by
  induction bodies generalizing w with
  | nil => exact located_ok w
  | cons b bodies ih =>
    rw [List.forall_mem_cons] at hread
    rw [attachBodies]
    refine (hread.1 w).bind fun p _ => ?_
    refine (located_attachBody h parent b.1 p.2 p.1).bind fun v _ => ?_
    exact ih hread.2 v

variable {readBlock : List Item → Workspace → Except Failure (Workspace × List NodeId)}
  {items : List Item} {top : Bool} {o : Options}

theorem located_readUnit (hr : r.Selected) {m : Match} {k : Kind}
    (hrole : k.definition.shape.role.isValue = false)
    (hrecover : k.definition.recover (spell items) =
      some (m.extraction, m.blueprint, spell m.covered))
    (hcited : ∀ i ∈ m.covered, i.Cited raws)
    (hread : ∀ inner ∈ blocks m.covered, ∀ w, Located raws (readBlock inner w)) (w : Workspace) :
    Located raws (readUnit r readBlock m w) := by
  -- a unit ends a line, so it has a first item
  obtain ⟨first, rest, hcovered⟩ : ∃ first rest, m.covered = first :: rest := by
    obtain ⟨_, _, _, _, -, -, -, -, -, -, hlast⟩ := k.recover_some hrecover
    rw [hrole, if_neg Bool.false_ne_true] at hlast
    refine List.exists_cons_of_ne_nil fun hnil => ?_
    rw [hnil] at hlast
    cases hlast
  have hfirst : Cites raws first.firstLine.1 first.firstLine.2 :=
    (hcited first (hcovered ▸ List.mem_cons_self)).firstLine
  have hstart : (m.covered.head?.map Item.firstLine).getD (0, []) = first.firstLine := by
    rw [hcovered]
    rfl
  have hsources : ∀ s ∈ m.extraction.values,
      Cites raws (lineOf m.covered first.firstLine.1 s.2) s.2 := by
    intro s hs
    obtain ⟨number, text, hmem, hpart, hline⟩ := lineOf_eq first.firstLine.1
      (line_of_onLine (k.onLine_of_recover hrole hrecover s hs))
    rw [hline]
    cases hcited _ hmem with
    | line h => exact h.mono hpart
  unfold readUnit
  rw [hstart]
  dsimp only
  split
  · exact located_error hfirst
  · next v id _ =>
    refine (located_attachAll (fun s hs u => located_readExpression hr u (hsources s hs)) hsources
      id v).bind fun u _ => ?_
    refine Located.bind ?_ fun u' _ => located_ok (u', id)
    exact located_attachBodies hfirst (fun b hb => hread b.2 (List.of_mem_zip hb).2) id u

/-! ## Levels -/

theorem located_readUnits (hr : r.Selected) (hclean : ∀ l ∈ Item.linesAll items, '\n' ∉ l)
    (hcited : ∀ i ∈ items, i.Cited raws)
    (hread : ∀ inner ∈ blocks items, ∀ w, Located raws (readBlock inner w)) (bound : Nat)
    (w : Workspace) : Located raws (readUnits r top readBlock bound items w) := by
  induction bound generalizing items w with
  | zero =>
    cases items with
    | nil => exact located_ok _
    | cons item items => exact located_error (hcited item List.mem_cons_self).firstLine
  | succ bound ih =>
    cases items with
    | nil => exact located_ok _
    | cons item items =>
      rw [readUnits]
      split
      · exact located_error (hcited item List.mem_cons_self).firstLine
      · next m hmatch =>
        obtain ⟨k, hrole, hrecover, -, rest, hitems⟩ := matchUnit_some hr hclean hmatch
        rw [← hitems] at hclean hcited hread hrecover ⊢
        rw [Item.linesAll_append, List.forall_mem_append] at hclean
        rw [List.forall_mem_append] at hcited
        rw [blocks_append, List.forall_mem_append] at hread
        refine (located_readUnit hr (isValue_of_role hrole) hrecover hcited.1 hread.1 w).bind
          fun p _ => ?_
        rw [List.drop_left]
        exact (ih hclean.2 hcited.2 hread.2 p.1).bind fun q _ => located_ok _

theorem located_readLevel (hr : r.Selected) (hclean : ∀ l ∈ Item.linesAll items, '\n' ∉ l)
    (hcited : ∀ i ∈ items, i.Cited raws) (depth : Nat) (w : Workspace) :
    Located raws (readLevel r o depth top items w) := by
  induction depth generalizing items top w with
  | zero =>
    rw [readLevel_eq]
    exact located_readUnits hr (fun l hl => hclean l (Item.mem_lines_of_mem_level hl))
      (fun i hi => hcited i (List.mem_of_mem_filter hi)) (fun _ _ _ => located_ok _) _ w
  | succ depth ih =>
    rw [readLevel_eq]
    have hlevel : ∀ l ∈ Item.linesAll (level o items), '\n' ∉ l :=
      fun l hl => hclean l (Item.mem_lines_of_mem_level hl)
    have hitems : ∀ i ∈ level o items, i.Cited raws :=
      fun i hi => hcited i (List.mem_of_mem_filter hi)
    refine located_readUnits hr hlevel hitems (fun inner hinner u => ?_) _ w
    exact ih (fun l hl => hlevel l (Item.mem_lines_of_mem_blocks hinner hl))
      (Item.cited_of_mem_blocks hitems hinner) u

/-! ## Programs -/

/-- With any selection of the built-in kinds, any rules and any layout options, a program that
cannot be read is refused with the number of a line of its source and with a part of that line. -/
theorem read_error_cites_source {r : Registry} (hr : r.Selected) (rules : Rules)
    (options : Options) (source : String) (f : Failure)
    (h : read ⟨r, rules, options⟩ source = .error f) :
    1 ≤ f.line ∧ f.line ≤ (Text.lines source.toList).length ∧
      ∃ raw, (Text.lines source.toList)[f.line - 1]? = some raw ∧ f.text <:+: raw := by
  have hlocated : Located (Text.lines source.toList) (read ⟨r, rules, options⟩ source) := by
    obtain ⟨houtline, hcited⟩ := Outline.located_ofSource source.toList
    refine houtline.bind fun items hitems => Located.bind ?_ fun w _ => located_ok _
    have hclean := (Outline.linesAll_ofSource hitems).2
    unfold build
    dsimp only
    split
    · exact located_ok _
    · next f hfail =>
      exact located_error (located_readLevel hr hclean (hcited items hitems) _ _ f hfail)
  have hcites := hlocated f h
  exact ⟨hcites.pos, hcites.le_length, hcites.part⟩

/-- An operand of an operand in the body of a loop, after a blank line: its line is the third. -/
theorem read_error_cites_source_operand : ∃ r f, r.Selected ∧
    read ⟨r, .standard, {}⟩ "\nwhile True:\n  basic.pause((1 + (2 + 3 + 4)))\n" = .error f ∧
    f = ⟨3, "(2 + 3 + 4)".toList, .unsupportedExpression⟩ ∧
    1 ≤ f.line ∧
    f.line ≤ (Text.lines "\nwhile True:\n  basic.pause((1 + (2 + 3 + 4)))\n".toList).length ∧
    ∃ raw, (Text.lines "\nwhile True:\n  basic.pause((1 + (2 + 3 + 4)))\n".toList)[f.line - 1]? =
      some raw ∧ f.text <:+: raw := by
  let kinds : List Kind := [.pause, .whileLoop, .mathArithmetic, .mathNumber, .logicBoolean]
  have hr : Registry.Selected ⟨kinds.map Kind.definition⟩ :=
    Registry.selected_definitions (by decide)
  have hread : (read ⟨⟨kinds.map Kind.definition⟩, .standard, {}⟩
      "\nwhile True:\n  basic.pause((1 + (2 + 3 + 4)))\n").map (fun _ => ()) =
        .error ⟨3, "(2 + 3 + 4)".toList, .unsupportedExpression⟩ := by
    decide +kernel
  cases hf : read ⟨⟨kinds.map Kind.definition⟩, .standard, {}⟩
      "\nwhile True:\n  basic.pause((1 + (2 + 3 + 4)))\n" with
  | ok reading =>
    rw [hf] at hread
    cases hread
  | error f =>
    rw [hf] at hread
    exact ⟨_, f, hr, hf, Except.error.inj hread, read_error_cites_source hr _ _ _ f hf⟩

end BlockText.Program

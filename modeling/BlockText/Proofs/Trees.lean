import BlockText.Program.Reader
import BlockText.Proofs.Outlines
import BlockText.Proofs.Sentences

/-!
# Trees

What the text of a program shows of its blocks: trees of expressions, and sequences of statements
with expressions and sequences in their inputs. A tree has a text, with each generator given the
texts below it. The text of a proper tree is a term or a sheet, so it comes apart again into the
texts of the block at the top and of what is below it.
-/

namespace BlockText

open Text Expression Catalogue Program

/-! ## What generators see -/

section Congruence

variable {p q : Parts}

/-- The picture of a picture field. -/
def bitmap? : FieldValue → Option Bitmap
  | .bitmap b => some b
  | _ => none

/-- Two blocks have the same fields, apart from the sign of zeros. -/
def Parts.Alike (p q : Parts) : Prop :=
  ∀ name, (p.node.field? name).map FieldValue.plain = (q.node.field? name).map FieldValue.plain

theorem Parts.Alike.bind {α : Type} {f : FieldValue → Option α} (h : p.Alike q)
    (hf : ∀ v, f v.plain = f v) (name : String) :
    (p.node.field? name).bind f = (q.node.field? name).bind f := by
  have hmap (o : Option FieldValue) : (o.map FieldValue.plain).bind f = o.bind f := by
    cases o with
    | none => rfl
    | some v => exact hf v
  rw [← hmap, h, hmap]

theorem Parts.Alike.text (h : p.Alike q) (name : String) : p.text name = q.text name := by
  rw [Parts.text, h.bind (fun v => by cases v <;> rfl), Parts.text]

theorem numberText_plain (x : Double) : numberText (if x.isZero then 0 else x) = numberText x := by
  have hzero : (0 : Double).isZero = true := by decide +kernel
  by_cases hx : x.isZero = true
  · rw [if_pos hx, numberText, numberText, if_pos hzero, if_pos hx]
  · rw [if_neg hx]

theorem Parts.Alike.numberText (h : p.Alike q) (name : String) :
    numberText (p.number name) = numberText (q.number name) := by
  have hplain (o : Option FieldValue) :
      Catalogue.numberText (((o.map FieldValue.plain).bind FieldValue.number?).getD 0) =
        Catalogue.numberText ((o.bind FieldValue.number?).getD 0) := by
    cases o with
    | none => rfl
    | some v =>
      cases v with
      | number x => exact numberText_plain x
      | _ => rfl
  rw [Parts.number, ← hplain, h, hplain, Parts.number]

theorem Parts.Alike.picture (h : p.Alike q) : picture p.node = picture q.node := by
  have hmatch (n : Node) : Catalogue.picture n = ((n.field? "LEDS").bind bitmap?).getD .dark := by
    unfold Catalogue.picture bitmap?
    cases n.field? "LEDS" with
    | none => rfl
    | some v => cases v <;> rfl
  rw [hmatch, h.bind (fun v => by cases v <;> rfl), hmatch]

theorem conditionalText_congr (hm : p.node.mutation = q.node.mutation)
    (hv : ∀ i ∈ ifElse.shape.valueInputs p.node.mutation, p.value i = q.value i)
    (hb : ∀ i ∈ ifElse.shape.statementInputs p.node.mutation, p.body i = q.body i) :
    conditionalText p = conditionalText q := by
  replace hv : ∀ i ∈ (Conditional.inputs (p.node.mutation.getD {})).filterMap InputSpec.value?,
      p.value i = q.value i := hv
  replace hb : ∀ i ∈ (Conditional.inputs (p.node.mutation.getD {})).filterMap InputSpec.statement?,
      p.body i = q.body i := hb
  rw [Conditional.valueInputs_inputs] at hv
  rw [Conditional.statementInputs_inputs] at hb
  unfold conditionalText
  simp only [← hm]
  refine congrArg₂ (· ++ ·) (List.flatMap_congr fun i hi => ?_) ?_
  · rw [branchText, branchText, hv _ (List.mem_map_of_mem hi),
      hb _ (List.mem_append_left _ (List.mem_map_of_mem hi))]
  · split
    · next helse =>
      rw [hb _ (List.mem_append_right _ (by rw [if_pos helse]; exact List.mem_singleton_self _))]
    · rfl

/-- The text of a block follows from its fields, its mutation and the texts of its inputs. -/
theorem render_congr (k : Kind) (hf : p.Alike q) (hm : p.node.mutation = q.node.mutation)
    (hv : ∀ i ∈ k.definition.shape.valueInputs p.node.mutation, p.value i = q.value i)
    (hb : ∀ i ∈ k.definition.shape.statementInputs p.node.mutation, p.body i = q.body i) :
    k.definition.render p = k.definition.render q := by
  have htext := hf.text
  cases k with
  | onStart | forever => exact congrArg (_ ++ · ++ _) (hb "DO" (List.mem_singleton_self _))
  | onButtonPressed | onGesture =>
    exact congrArg₂ (handler _ _) (htext _) (hb "DO" (List.mem_singleton_self _))
  | showString => exact congrArg (fun t => call _ [Quoted.encode t] ++ _) (htext _)
  | showIcon => exact congrArg (fun t => call _ [_ ++ t] ++ _) (htext _)
  | showLeds => exact congrArg (fun b => call _ ['"' :: b.text ++ _] ++ _) hf.picture
  | showNumber | pause | displayShow =>
    exact congrArg (fun t => call _ [t] ++ _) (hv _ (List.mem_singleton_self _))
  | plot | unplot | playTone =>
    exact congrArg₂ (fun t u => call _ [t, u] ++ _) (hv _ List.mem_cons_self)
      (hv _ (List.mem_cons_of_mem _ (List.mem_singleton_self _)))
  | setVariable | changeVariable =>
    exact congrArg₂ (fun t u => t ++ _ ++ ' ' :: u ++ _) (htext _)
      (hv _ (List.mem_singleton_self _))
  | repeatTimes | whileLoop =>
    exact congrArg₂ (fun t u => _ ++ t ++ _ ++ '\n' :: u) (hv _ (List.mem_singleton_self _))
      (hb _ (List.mem_singleton_self _))
  | ifElse => exact conditionalText_congr hm hv hb
  | mathNumber => exact hf.numberText _
  | text => exact congrArg Quoted.encode (htext _)
  | logicBoolean =>
    have hbool := hf.bind (f := FieldValue.bool?) (fun v => by cases v <;> rfl) "BOOL"
    exact congrArg (fun o => truthText (o.getD false)) hbool
  | logicNegate => exact congrArg (_ ++ · ++ _) (hv _ (List.mem_singleton_self _))
  | logicCompare | logicOperation | mathArithmetic =>
    have ha := hv "A" List.mem_cons_self
    have hb := hv "B" (List.mem_cons_of_mem _ (List.mem_singleton_self _))
    have hop := htext "OP"
    show binaryText (p.value "A") (spelling _ (String.ofList (p.text "OP"))) (p.value "B") = _
    rw [ha, hb, hop]
    rfl
  | mathRandom =>
    exact congrArg₂ (fun t u => call _ [t, u]) (hv _ List.mem_cons_self)
      (hv _ (List.mem_cons_of_mem _ (List.mem_singleton_self _)))
  | buttonIsPressed | acceleration => exact congrArg (fun t => call _ [_ ++ t]) (htext _)
  | clearScreen | temperature | ifElseElseIf | ifElseElse => rfl
  | variablesGet => exact htext _

end Congruence

/-- An operand is shorter than the expression around it. -/
theorem length_value_lt (k : Kind) (hrole : k.definition.shape.role.isValue = true) {i : String}
    (hi : i ∈ k.definition.shape.valueInputs none) :
    (p.value i).length < (k.definition.render p).length := by
  have hpair {x y : String} (h : i ∈ [x, y]) : i = x ∨ i = y := by simpa using h
  have hcall (name x y : String) (h : i ∈ [x, y]) :
      (p.value i).length < (call name [p.value x, p.value y]).length := by
    rcases hpair h with rfl | rfl <;> simp [call, join] <;> omega
  have hbinary (op : List Char) (h : i ∈ ["A", "B"]) :
      (p.value i).length < (binaryText (p.value "A") op (p.value "B")).length := by
    rcases hpair h with rfl | rfl <;> simp [binaryText] <;> omega
  cases k with
  | logicNegate =>
    obtain rfl : i = "BOOL" := List.mem_singleton.mp hi
    show (p.value "BOOL").length < ("(not ".toList ++ p.value "BOOL" ++ [')']).length
    simp only [List.length_append, List.length_singleton]
    omega
  | logicCompare | logicOperation | mathArithmetic => exact hbinary _ hi
  | mathRandom => exact hcall _ "FROM" "TO" hi
  | mathNumber | text | logicBoolean | buttonIsPressed | temperature | acceleration
  | variablesGet => cases hi
  | _ => cases hrole

/-! ## Trees -/

/-- A value block with its operands; where no operand stands it is absent. -/
inductive Expr where
  | absent
  | block (kind : Kind) (fields : SortedMap String FieldValue) (operand : String → Expr)

/-- A sequence of statement blocks with what stands in their inputs. -/
inductive Script where
  | done
  | block (kind : Kind) (fields : SortedMap String FieldValue) (mutation : Option Mutation)
      (value : String → Expr) (body : String → Script) (next : Script)

/-- What a generator is given of a block in a tree. -/
def shownParts (kind : Kind) (fields : SortedMap String FieldValue) (mutation : Option Mutation)
    (value body : String → List Char) : Parts :=
  ⟨⟨0, kind, fields, [], none, false, none, mutation⟩, {}, value, body⟩

/-- The text of a statement input, given the text of what stands in it. -/
def blockText (options : Options) (text : List Char) : List Char :=
  indent options.indent.toList (if text.isEmpty then options.noop.toList ++ ['\n'] else text)

namespace Expr

/-- The text of an expression. -/
def text : Expr → List Char
  | absent => []
  | block kind fields operand =>
    kind.definition.render (shownParts kind fields none (fun i => (operand i).text) fun _ => [])

/-- Every block is a value with the fields of its shape and with all operands. -/
def Proper : Expr → Prop
  | absent => False
  | block kind fields operand => kind.definition.shape.role.isValue = true ∧
      kind.definition.shape.Admits fields ∧ Plain fields ∧
      ∀ i ∈ kind.definition.shape.valueInputs none, (operand i).Proper

/-- The block at the top is a value. -/
def Valued : Expr → Prop
  | absent => False
  | block kind _ _ => kind.definition.shape.role.isValue = true

theorem Proper.valued {e : Expr} (h : e.Proper) : e.Valued := by
  cases e with
  | absent => exact h
  | block kind fields operand => exact h.1

/-- The text of an expression is a term. -/
theorem Proper.term {e : Expr} (h : e.Proper) : Term e.text := by
  induction e with
  | absent => cases h
  | block kind fields operand ih =>
    obtain ⟨hrole, hadmits, hplain, hoperands⟩ := h
    exact (phrase kind hrole rfl hadmits hplain fun i hi => ih i (hoperands i hi)).term

end Expr

namespace Script

/-- The text of a sequence. -/
def text (options : Options) : Script → List Char
  | done => []
  | block kind fields mutation value body next =>
    kind.definition.render (shownParts kind fields mutation (fun i => (value i).text) fun i =>
      blockText options ((body i).text options)) ++ next.text options

/-- Every block is a statement, or the root of an event if it is at the top, with the fields of its
shape and with all values. -/
def Proper : Bool → Script → Prop
  | _, done => True
  | top, block kind fields mutation value body next =>
    (kind.definition.shape.role = .statement ∨
      top = true ∧ kind.definition.shape.role = .root) ∧
    mutation.isSome = kind.definition.shape.isBranching ∧
    kind.definition.shape.Admits fields ∧
    (∀ i ∈ kind.definition.shape.valueInputs mutation, (value i).Proper) ∧
    (∀ i ∈ kind.definition.shape.statementInputs mutation, (body i).Proper false) ∧
    next.Proper top

/-- Every block of the sequence itself is a statement, or the root of an event if it is at the
top. -/
def Ranked (top : Bool) : Script → Prop
  | done => True
  | block kind _ _ _ _ next => (kind.definition.shape.role = .statement ∨
      top = true ∧ kind.definition.shape.role = .root) ∧ next.Ranked top

theorem Proper.ranked {t : Script} {top : Bool} (h : t.Proper top) : t.Ranked top := by
  induction t with
  | done => trivial
  | block kind fields mutation value body next _ ih =>
    obtain ⟨hrole, -, -, -, -, hnext⟩ := h
    exact ⟨hrole, ih hnext⟩

end Script

/-! ## Sheets of trees -/

theorem Program.spell_line (number : Nat) (t : List Char) (items : List Item) :
    spell (.line number t :: items) = t ++ '\n' :: spell items := by
  simp [spell]

theorem Program.spell_block (inner items : List Item) :
    spell (.block inner :: items) = blockMark ++ '\n' :: spell items := by
  simp [spell]

namespace Program.Sheet

/-- Rows with sheets for their bodies, and a sheet after them. -/
def ofRows (body : String → Sheet) (next : Sheet) : List Row → Sheet
  | [] => next
  | ⟨t, none⟩ :: rows => line t (ofRows body next rows)
  | ⟨t, some input⟩ :: rows => header t (body input) (ofRows body next rows)

/-- A sheet, or one line if it is empty. -/
def orLine (t : List Char) : Sheet → Sheet
  | done => line t done
  | s => s

variable {body : String → Sheet} {next : Sheet} {rows : List Row}

theorem orLine_ne_done (t : List Char) (s : Sheet) : s.orLine t ≠ done := by
  cases s <;> simp [orLine]

theorem Proper.orLine {t : List Char} {s : Sheet} (h : s.Proper) (ht : s = done → OneLine t) :
    (s.orLine t).Proper := by
  cases s with
  | done => exact ⟨ht rfl, trivial⟩
  | _ => exact h

theorem ofRows_ne_done (h : rows ≠ []) : ofRows body next rows ≠ done := by
  rcases rows with _ | ⟨⟨t, _ | input⟩, rows⟩
  · exact absurd rfl h
  · simp [ofRows]
  · simp [ofRows]

theorem text_ofRows (unit : List Char) : (ofRows body next rows).text unit =
    rows.flatMap (Row.write fun i => indent unit ((body i).text unit)) ++ next.text unit := by
  induction rows with
  | nil => rfl
  | cons r rows ih =>
    rcases r with ⟨t, _ | input⟩
    · simp [ofRows, text, ih]
    · simp [ofRows, text, ih]

theorem proper_ofRows (hlines : ∀ r ∈ rows, OneLine r.text)
    (hbody : ∀ i ∈ rows.filterMap Row.body, body i ≠ done ∧ (body i).Proper)
    (hnext : next.Proper) : (ofRows body next rows).Proper := by
  induction rows with
  | nil => exact hnext
  | cons r rows ih =>
    rw [List.forall_mem_cons] at hlines
    rcases r with ⟨t, _ | input⟩
    · exact ⟨hlines.1, ih hlines.2 hbody⟩
    · replace hbody : ∀ i ∈ input :: rows.filterMap Row.body,
          body i ≠ done ∧ (body i).Proper := hbody
      rw [List.forall_mem_cons] at hbody
      exact ⟨hlines.1, hbody.1.1, hbody.1.2, ih hlines.2 hbody.2⟩

theorem text_ne_nil {s : Sheet} (h : s ≠ done) (unit : List Char) : s.text unit ≠ [] := by
  cases s with
  | done => exact absurd rfl h
  | line t next => simp [text]
  | header t body next => simp [text]

/-- The items of rows: those of the lines with their bodies, then those of the sheet after them. -/
theorem items_ofRows {items : List Item} (h : (ofRows body next rows).Items items) :
    ∃ covered rest, items = covered ++ rest ∧ next.Items rest ∧ spell covered = spellRows rows ∧
      (∀ number t, .line number t ∈ covered → ∃ r ∈ rows, r.text = t) ∧
      List.Forall₂ (fun i inner => (body i).Items inner) (rows.filterMap Row.body)
        (blocks covered) := by
  induction rows generalizing items with
  | nil => exact ⟨[], items, rfl, h, rfl, fun _ _ h => absurd h List.not_mem_nil, .nil⟩
  | cons r rows ih =>
    rcases r with ⟨t, _ | input⟩
    · obtain ⟨number, items, rfl, h⟩ := h
      obtain ⟨covered, rest, rfl, hnext, hspell, hlines, hbodies⟩ := ih h
      refine ⟨.line number t :: covered, rest, rfl, hnext, ?_, ?_, hbodies⟩
      · rw [spell_line, hspell]
        simp [spellRows]
      · intro number' t' ht
        rcases List.mem_cons.mp ht with ht | ht
        · cases ht
          exact ⟨_, List.mem_cons_self, rfl⟩
        · obtain ⟨r, hr, rfl⟩ := hlines number' t' ht
          exact ⟨r, List.mem_cons_of_mem _ hr, rfl⟩
    · obtain ⟨number, inner, items, rfl, hinner, h⟩ := h
      obtain ⟨covered, rest, rfl, hnext, hspell, hlines, hbodies⟩ := ih h
      refine ⟨.line number t :: .block inner :: covered, rest, rfl, hnext, ?_, ?_,
        .cons hinner hbodies⟩
      · rw [spell_line, spell_block, hspell]
        simp [spellRows, markedBody]
      · intro number' t' ht
        rcases List.mem_cons.mp ht with ht | ht
        · cases ht
          exact ⟨_, List.mem_cons_self, rfl⟩
        · obtain ⟨r, hr, rfl⟩ := hlines number' t' ((List.mem_cons.mp ht).resolve_left (by simp))
          exact ⟨r, List.mem_cons_of_mem _ hr, rfl⟩

end Program.Sheet

theorem IsLine.oneLine {t : List Char} (h : IsLine t) : OneLine t :=
  ⟨h.trimmed, fun c hc hcontrol => absurd (h.visible c hc) (by simp [hcontrol])⟩

/-- Some body in a sequence is empty, so that the placeholder is written for it. -/
def Script.Hollow : Script → Prop
  | done => False
  | block kind _ mutation _ body next =>
    (∃ i ∈ kind.definition.shape.statementInputs mutation, body i = done ∨ (body i).Hollow) ∨
      next.Hollow

/-- The rows of a statement block. -/
noncomputable def sentenceRows (k : Kind) (p : Parts) : List Row :=
  open Classical in
  if h : ∃ rows, Sentence k.definition p rows then Classical.choose h else []

namespace Script

/-- A sequence as a sheet, with the placeholder in empty bodies. -/
noncomputable def sheet (noop : List Char) : Script → Sheet
  | done => .done
  | block kind fields mutation value body next =>
    .ofRows (fun i => ((body i).sheet noop).orLine noop) (next.sheet noop)
      (sentenceRows kind (shownParts kind fields mutation (fun i => (value i).text) fun _ => []))

variable {kind : Kind} {fields : SortedMap String FieldValue} {mutation : Option Mutation}
  {value : String → Expr} {body : String → Script} {next t : Script} {top : Bool}

/-- The first block of a sequence is a sentence. -/
theorem Proper.sentence (h : (block kind fields mutation value body next).Proper top) :
    Sentence kind.definition
      (shownParts kind fields mutation (fun i => (value i).text) fun _ => [])
      (sentenceRows kind
        (shownParts kind fields mutation (fun i => (value i).text) fun _ => [])) := by
  obtain ⟨hrole, hm, hadmits, hvalues, -, -⟩ := h
  have hex := BlockText.sentence kind
    (p := shownParts kind fields mutation (fun i => (value i).text) fun _ => [])
    (hrole.imp_right And.right) hm hadmits fun i hi => (hvalues i hi).term
  rw [sentenceRows, dif_pos hex]
  exact Classical.choose_spec hex

theorem sheet_ne_done (h : (block kind fields mutation value body next).Proper top)
    (noop : List Char) : (block kind fields mutation value body next).sheet noop ≠ .done :=
  Sheet.ofRows_ne_done h.sentence.ne_nil

variable {options : Options}

theorem proper_sheet (h : t.Proper top) (hnoop : t.Hollow → OneLine options.noop.toList) :
    (t.sheet options.noop.toList).Proper := by
  induction t generalizing top with
  | done => trivial
  | block kind fields mutation value body next ihb ih =>
    have hsentence := h.sentence
    obtain ⟨-, -, -, -, hbodies, hnext⟩ := h
    refine Sheet.proper_ofRows (fun r hr => ?_) (fun i hi => ?_)
      (ih hnext fun hh => hnoop (.inr hh))
    · exact (hsentence.lines r hr).oneLine
    · rw [hsentence.bodies] at hi
      refine ⟨Sheet.orLine_ne_done _ _, ?_⟩
      refine (ihb i (hbodies i hi) fun hh => hnoop (.inl ⟨i, hi, .inr hh⟩)).orLine fun hs => ?_
      cases hb : body i with
      | done => exact hnoop (.inl ⟨i, hi, .inl hb⟩)
      | block kind fields mutation value body next =>
        have hp := hbodies i hi
        rw [hb] at hs hp
        exact absurd hs (sheet_ne_done hp _)

/-- The sheet of a sequence is written as the sequence is. -/
theorem text_sheet (h : t.Proper top) :
    (t.sheet options.noop.toList).text options.indent.toList = t.text options := by
  induction t generalizing top with
  | done => rfl
  | block kind fields mutation value body next ihb ih =>
    have hsentence := h.sentence
    obtain ⟨-, -, -, -, hbodies, hnext⟩ := h
    have hbody : ∀ i ∈ kind.definition.shape.statementInputs mutation,
        indent options.indent.toList
          ((((body i).sheet options.noop.toList).orLine options.noop.toList).text
            options.indent.toList) = blockText options ((body i).text options) := by
      intro i hi
      have htext := ihb i (hbodies i hi)
      rw [← htext, blockText]
      cases hs : (body i).sheet options.noop.toList with
      | done => rfl
      | line t next => simp [Sheet.orLine, Sheet.text]
      | header t body next => simp [Sheet.orLine, Sheet.text]
    rw [sheet, Sheet.text_ofRows, ih hnext, ← hsentence.render, text]
    refine congrArg (· ++ _) (render_congr kind (fun _ => rfl) rfl (fun _ _ => rfl) fun i hi => ?_)
    exact hbody i hi

/-- The outline of the text of a sequence is its sheet. -/
theorem ofSource_text {step : Nat} (hstep : 0 < step)
    (hindent : options.indent.toList = List.replicate step ' ')
    (h : t.Proper top) (hnoop : t.Hollow → OneLine options.noop.toList) :
    ∃ items, Outline.ofSource (t.text options) = .ok items ∧
      (t.sheet options.noop.toList).Items items := by
  rw [← text_sheet h, hindent]
  exact Outline.ofSource_text hstep (proper_sheet h hnoop)

end Script

end BlockText

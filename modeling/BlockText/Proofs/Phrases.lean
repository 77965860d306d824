import BlockText.Catalogue.Builtin
import BlockText.Proofs.Idioms
import BlockText.Proofs.Operands

/-!
# Phrases

The text of a value block is a term, if the texts of its operands are, and the value idioms read it
back: the first one that fits is that of its kind, and it gives back the block. The idioms are told
apart by how a text starts; those of the operators by the only operator outside of parentheses.
-/

namespace BlockText

open Text Lexeme Expression Catalogue Workspace

/-! ## Fields -/

theorem Shape.Admits.get {s : Shape} {fields : SortedMap String FieldValue} {spec : FieldSpec}
    (h : s.Admits fields) (name : String) (hf : s.field? name = some spec) :
    ∃ v, fields.get? name = some v ∧ spec.accepts v = true := by
  have := h name
  rw [hf] at this
  exact this

namespace FieldSpec

variable {name : String} {v : FieldValue}

theorem accepts_number {x : Double} (h : (number name x).accepts v = true) :
    ∃ x, v = .number x ∧ x.isFinite = true := by
  cases v with
  | number x => exact ⟨x, rfl, h⟩
  | _ => cases h

theorem accepts_text {s : String} (h : (text name s).accepts v = true) : ∃ s, v = .text s := by
  cases v with
  | text s => exact ⟨s, rfl⟩
  | _ => cases h

theorem accepts_choice {options : List String} (h : (choice name options).accepts v = true) :
    ∃ s ∈ options, v = .choice s := by
  cases v with
  | choice s => exact ⟨s, List.contains_iff_mem.mp h, rfl⟩
  | _ => cases h

theorem accepts_bool {b : Bool} (h : (bool name b).accepts v = true) : ∃ b, v = .bool b := by
  cases v with
  | bool b => exact ⟨b, rfl⟩
  | _ => cases h

theorem accepts_bitmap (h : (bitmap name).accepts v = true) : ∃ b, v = .bitmap b := by
  cases v with
  | bitmap b => exact ⟨b, rfl⟩
  | _ => cases h

theorem accepts_var (h : (var name).accepts v = true) :
    ∃ s, v = .var s ∧ Word.isIdentifier s.toList = true := by
  cases v with
  | var s => exact ⟨s, rfl, h⟩
  | _ => cases h

end FieldSpec

namespace Expression

variable {t a b inner : List Char} {ls : List Lexeme}

/-! ## Terms -/

theorem not_negation_of_head {c : Char} {cs : List Char} (h : c ≠ 'n') (rest : List Char) :
    ¬ ['n', 'o', 't', ' '] <+: c :: cs ++ ' ' :: rest := by
  rintro ⟨more, he⟩
  exact h (List.cons.inj he).1.symm

/-- A name with something in parentheses. -/
theorem term_call {c : Char} {f : List Char} (hc : isBlank c = false) (hn : c ≠ 'n')
    (hf : ∀ d ∈ c :: f, isControl d = false)
    (hfirst : ∀ rest, first? (c :: f ++ '(' :: rest) = some (.name, c :: f, '(' :: rest))
    (hjoins : joins ⟨[], .name, c :: f⟩ = false) (hscans : Scans inner ls) (hbal : Balanced ls)
    (hvisible : ∀ d ∈ inner, isControl d = false) : Term (c :: f ++ ('(' :: inner ++ [')'])) where
  trimmed := by
    refine ⟨by simp, stops_cons hc, fun d hd => ?_⟩
    rw [← List.append_assoc, List.getLast?_concat] at hd
    cases hd
    decide
  visible := by
    intro d hd
    simp only [List.mem_append, List.mem_cons, List.not_mem_nil, or_false] at hd
    rcases hd with (rfl | hd) | (rfl | hd) | rfl
    · exact hf d List.mem_cons_self
    · exact hf d (List.mem_cons_of_mem _ hd)
    · decide
    · exact hvisible d hd
    · decide
  tokens := by
    refine ⟨⟨[], .name, c :: f⟩ :: (⟨[], .opening, ['(']⟩ :: ls ++ [⟨[], .closing, [')']⟩]), ?_,
      .call ⟨by simp, by simp, by simp, hjoins⟩ rfl hbal rfl⟩
    intro rest hrest
    have htext : c :: f ++ ('(' :: inner ++ [')']) ++ rest =
        c :: f ++ '(' :: (inner ++ [')'] ++ rest) := by simp
    rw [htext, scan_first (hfirst _)]
    have := scans_enclosed hscans rest hrest
    rw [List.cons_append, List.cons_append] at this
    rw [this, Option.map_map]
    rfl
  not_negation := not_negation_of_head hn

/-- A call whose one argument is an option of a list. -/
theorem term_call_option {c : Char} {f : List Char} (hc : isBlank c = false) (hn : c ≠ 'n')
    (hf : ∀ d ∈ c :: f, isControl d = false)
    (hfirst : ∀ rest, first? (c :: f ++ '(' :: rest) = some (.name, c :: f, '(' :: rest))
    (hjoins : joins ⟨[], .name, c :: f⟩ = false) (ha : Word.isWord a = true)
    (hb : Word.isWord b = true) : Term (c :: f ++ ('(' :: (a ++ '.' :: b) ++ [')'])) := by
  refine term_call hc hn hf hfirst hjoins (scans_dotted ha hb) (.token (by simp) (by simp) .nil)
    fun d hd => ?_
  simp only [List.mem_append, List.mem_cons] at hd
  rcases hd with hd | rfl | hd
  · exact isControl_of_isPart (isPart_of_isWord ha d hd)
  · decide
  · exact isControl_of_isPart (isPart_of_isWord hb d hd)

/-- Something in parentheses. -/
theorem term_enclosed (hscans : Scans inner ls) (hbal : Balanced ls)
    (hvisible : ∀ d ∈ inner, isControl d = false) : Term ('(' :: inner ++ [')']) where
  trimmed := trimmed_enclosed inner
  visible := by
    intro d hd
    simp only [List.mem_append, List.mem_cons, List.not_mem_nil, or_false] at hd
    rcases hd with (rfl | hd) | rfl
    · decide
    · exact hvisible d hd
    · decide
  tokens := ⟨_, scans_enclosed hscans, .enclosed rfl hbal rfl⟩
  not_negation := not_negation_of_head (by decide)

/-- A word that is no operator and no sign of a negation. -/
theorem term_word (h : Word.isWord t = true) (hand : t ≠ ['a', 'n', 'd']) (hor : t ≠ ['o', 'r'])
    (hnot : t ≠ ['n', 'o', 't']) : Term t where
  trimmed := by
    have hparts := isPart_of_isWord h
    refine ⟨?_, fun c hc => ?_, fun c hc => ?_⟩
    · rintro rfl
      cases h
    · exact isBlank_of_isPart (hparts c (List.mem_of_mem_head? hc))
    · exact isBlank_of_isPart (hparts c (List.mem_of_mem_getLast? hc))
  visible := fun c hc => isControl_of_isPart (isPart_of_isWord h c hc)
  tokens := by
    refine ⟨_, scans_word h, .atom ⟨by simp, by simp, by simp, ?_⟩⟩
    simp [joins, hand, hor]
  not_negation := by
    rintro rest ⟨more, he⟩
    -- the blank after `not` is either the one that follows the word or a part of the word
    rcases t with _ | ⟨x, _ | ⟨y, _ | ⟨z, _ | ⟨w, t⟩⟩⟩⟩ <;>
      simp only [List.cons_append, List.nil_append, List.cons.injEq, Char.reduceEq, false_and,
        and_false] at he
    · obtain ⟨rfl, rfl, rfl, -⟩ := he
      exact hnot rfl
    · have := isPart_of_isWord h w (by simp)
      rw [← he.2.2.2.1] at this
      cases this

theorem term_literal (cs : List Char) : Term (Quoted.encode cs) where
  trimmed := by
    refine ⟨by simp [Quoted.encode], stops_cons (by decide), fun d hd => ?_⟩
    rw [Quoted.encode, List.getLast?_concat] at hd
    cases hd
    decide
  visible := fun c hc => Quoted.isControl_encode hc
  tokens := ⟨_, scans_literal cs, .atom ⟨by simp, by simp, by simp, rfl⟩⟩
  not_negation := not_negation_of_head (by decide)

theorem term_numeral (negative : Bool) {whole fraction : List Char}
    (h : Decimal.IsNumeral whole fraction) :
    Term (Double.signed negative (Decimal.numeral whole fraction)) := by
  have hdigit {c : Char} (hc : c.isDigit = true) : isBlank c = false ∧ isControl c = false :=
    ⟨isBlank_of_isPart (isPart_of_isDigit hc), isControl_of_isPart (isPart_of_isDigit hc)⟩
  obtain ⟨c, cs, hcs, hc⟩ := Double.isDigit_head h
  have hlast : ∀ d ∈ (c :: cs).getLast?, d.isDigit = true := by
    intro d hd
    rw [← hcs, Decimal.numeral] at hd
    cases fraction with
    | nil =>
      rw [List.isEmpty_nil, if_pos rfl, List.append_nil] at hd
      exact h.whole_digits d (List.mem_of_mem_getLast? hd)
    | cons e es =>
      rw [List.isEmpty_cons, if_neg Bool.false_ne_true, List.getLast?_append_cons,
        List.getLast?_cons_cons] at hd
      exact h.fraction_digits d (List.mem_of_mem_getLast? hd)
  have hvisible : ∀ d ∈ c :: cs, isControl d = false := by
    intro d hd
    rw [← hcs, Decimal.numeral, List.mem_append] at hd
    rcases hd with hd | hd
    · exact (hdigit (h.whole_digits d hd)).2
    · split at hd
      · cases hd
      · rcases List.mem_cons.mp hd with rfl | hd
        · decide
        · exact (hdigit (h.fraction_digits d hd)).2
  have hscans := scans_numeral h
  have hatom : IsAtom ⟨[], .number, Decimal.numeral whole fraction⟩ :=
    ⟨by simp, by simp, by simp, rfl⟩
  rw [hcs] at hscans hatom
  rw [hcs]
  cases negative with
  | true =>
    refine ⟨⟨by simp [Double.signed], stops_cons (by decide), fun d hd => ?_⟩, fun d hd => ?_,
      ⟨_, hscans.sign (u := ['-']) (k := .operator) fun _ => rfl, .signed rfl hatom⟩,
      not_negation_of_head (by decide)⟩
    · rw [Double.signed, if_pos rfl, List.getLast?_cons_cons] at hd
      exact (hdigit (hlast d hd)).1
    · rcases List.mem_cons.mp hd with rfl | hd
      · decide
      · exact hvisible d hd
  | false =>
    refine ⟨⟨by simp [Double.signed], stops_cons (hdigit hc).1, fun d hd => ?_⟩, fun d hd => ?_,
      ⟨_, hscans, .atom hatom⟩, not_negation_of_head ?_⟩
    · exact (hdigit (hlast d hd)).1
    · exact hvisible d hd
    · rintro rfl
      cases hc

/-- The numeral of a finite number. -/
theorem numberText_eq {x : Double} (h : x.isFinite = true) : ∃ negative whole fraction,
    numberText x = Double.signed negative (Decimal.numeral whole fraction) ∧
      Decimal.IsNumeral whole fraction := by
  unfold numberText
  split
  · exact ⟨false, ['0'], [], rfl, by simp, by simp, by simp⟩
  · cases x with
    | finite negative rank =>
      obtain ⟨whole, fraction, htext, hnum, -⟩ := Double.text_finite negative rank
      exact ⟨negative, whole, fraction, htext, hnum⟩
    | infinite negative => cases h
    | nan => cases h

theorem term_number {x : Double} (h : x.isFinite = true) : Term (numberText x) := by
  obtain ⟨negative, whole, fraction, htext, hnum⟩ := numberText_eq h
  rw [htext]
  exact term_numeral negative hnum

end Expression

/-! ## Zero has no sign -/

/-- A value as it is read back: a zero loses its sign. -/
def FieldValue.plain : FieldValue → FieldValue
  | number x => number (if x.isZero then 0 else x)
  | v => v

/-- Fields that are read back as they are. -/
def Plain (fields : SortedMap String FieldValue) : Prop :=
  ∀ name v, fields.get? name = some v → v.plain = v

theorem ofText?_numberText {x : Double} (h : x.isFinite = true)
    (hplain : (FieldValue.number x).plain = .number x) :
    Double.ofText? (numberText x) = some x := by
  unfold numberText
  split
  · next hz =>
    rw [FieldValue.plain, hz, if_pos rfl, FieldValue.number.injEq] at hplain
    rw [← hplain]
    decide +kernel
  · exact Double.ofText?_text h

namespace Parts

variable {p : Parts} {name s : String}

theorem text_eq {v : FieldValue} (h : p.node.fields.get? name = some v) (hs : v.string? = some s) :
    p.text name = s.toList := by
  simp [Parts.text, Node.field?, h, hs]

theorem number_eq {x : Double} (h : p.node.fields.get? name = some (.number x)) :
    p.number name = x := by
  simp [Parts.number, Node.field?, h, FieldValue.number?]

end Parts

/-! ## Phrases -/

/-- The text of a value block is a term, and the block is read back from it. -/
structure Phrase (d : Definition) (p : Parts) : Prop where
  term : Term (d.render p)
  found : ∃ e, Registry.builtin.valueIdioms.findSome? (·.recover (d.render p)) =
    some (e, ⟨d.kind, e.fields, e.mutation⟩, d.render p) ∧ e.Gives d.shape p

theorem Phrase.of_recover {d : Definition} {p : Parts} {e : Extraction}
    (before after : List Definition) (hlist : Registry.builtin.valueIdioms = before ++ d :: after)
    (hterm : Term (d.render p)) (hbefore : ∀ d' ∈ before, d'.recover (d.render p) = none)
    (hrecover : d.recover (d.render p) = some (e, ⟨d.kind, e.fields, e.mutation⟩, d.render p))
    (hgives : e.Gives d.shape p) : Phrase d p := by
  refine ⟨hterm, e, ?_, hgives⟩
  rw [hlist, List.findSome?_append, List.findSome?_eq_none_iff.mpr hbefore, List.findSome?_cons,
    hrecover]
  rfl

section Refusals

variable {c : Char} {cs t : List Char}

theorem mathNumber_recover_cons (hs : c ≠ '-') (hd : c.isDigit = false) :
    mathNumber.recover (c :: cs) = none := by
  refine Definition.recover_eq_none_of_scan rfl ?_
  simp [Pattern.scan, Pattern.spanNumber, Pattern.named, hs, hd]

theorem text_recover_cons (h : c ≠ '"') : Catalogue.text.recover (c :: cs) = none := by
  refine Definition.recover_eq_none_of_scan rfl ?_
  rw [Pattern.scan, Quoted.span.eq_def]
  split
  · next he => exact absurd (List.cons.inj he).1 h
  · rfl

/-- A word that goes on after a truth value is none. -/
theorem logicBoolean_recover_word (ht : t ≠ "True".toList) (hf : t ≠ "False".toList) :
    logicBoolean.recover t = none := by
  cases hs : (Pattern.oneOf "BOOL" [truthText true, truthText false]).scan t with
  | none => exact Definition.recover_eq_none_of_scan rfl hs
  | some r =>
    refine Definition.recover_eq_none_of_rest rfl rfl hs fun hr => ?_
    obtain ⟨⟨o, rest⟩, ho, rfl⟩ := Option.map_eq_some_iff.mp hs
    obtain ⟨hmem, rfl⟩ := Pattern.firstOption?_eq_some ho
    replace hr : rest = [] := hr
    rw [hr, List.append_nil] at ht hf
    rcases List.mem_pair.mp hmem with rfl | rfl
    · exact ht rfl
    · exact hf rfl

/-- What holds more than a word is not the start of a word. -/
theorem not_prefix_word {ds : List Char} (hd : ∃ d ∈ ds, Word.isPart d = false)
    (ht : Word.isWord t = true) : ¬ ds <+: t := by
  rintro ⟨more, rfl⟩
  obtain ⟨d, hd, hpart⟩ := hd
  rw [isPart_of_isWord ht d (List.mem_append_left more hd)] at hpart
  cases hpart

/-- The kinds of values other than variables. -/
def Kind.unnamed : List Kind :=
  [mathNumber, text, logicBoolean, logicNegate, logicCompare, logicOperation, mathArithmetic,
    mathRandom, buttonIsPressed, temperature, acceleration]

/-- No other idiom of a value reads a variable name. -/
theorem recover_identifier (h : Word.isIdentifier t = true) :
    ∀ k ∈ Kind.unnamed, k.definition.recover t = none := by
  simp only [Word.isIdentifier, Bool.and_eq_true, Bool.not_eq_true', List.contains_eq_mem,
    decide_eq_false_iff_not] at h
  obtain ⟨hword, hreserved⟩ := h
  have hne (s : String) (hs : s ∈ Word.reserved) : t ≠ s.toList := by
    rintro rfl
    rw [String.ofList_toList] at hreserved
    exact hreserved hs
  obtain ⟨c, cs, hcs⟩ : ∃ c cs, t = c :: cs := List.exists_cons_of_ne_nil (by
    rintro rfl
    cases hword)
  have hstart : Word.isStart c = true := by
    rw [hcs, Word.isWord, Bool.and_eq_true] at hword
    exact hword.1
  have hc (d : Char) (hd : Word.isStart d = false) : c ≠ d := by
    rintro rfl
    rw [hstart] at hd
    cases hd
  simp only [Kind.unnamed, List.forall_mem_cons, List.not_mem_nil, false_implies, implies_true,
    and_true]
  refine ⟨?_, ?_, ?_, ?_, ?_, ?_, ?_, ?_, ?_, ?_, ?_⟩
  · rw [hcs]
    exact mathNumber_recover_cons (hc _ (by decide)) (not_isDigit_of_isStart hstart)
  · rw [hcs]
    exact text_recover_cons (hc _ (by decide))
  · exact logicBoolean_recover_word (hne "True" (by decide)) (hne "False" (by decide))
  -- the other openings hold what no name does
  all_goals exact Definition.recover_eq_none_of_opening rfl (not_prefix_word (by decide) hword)

end Refusals

section Atoms

variable {p : Parts} (hm : p.node.mutation = none)
include hm

theorem phrase_mathNumber (h : mathNumber.shape.Admits p.node.fields)
    (hplain : Plain p.node.fields) : Phrase mathNumber p := by
  obtain ⟨v, hv, hacc⟩ := h.get "NUM" rfl
  obtain ⟨x, rfl, hx⟩ := FieldSpec.accepts_number hacc
  have hrender : mathNumber.render p = numberText x := congrArg numberText (Parts.number_eq hv)
  obtain ⟨negative, whole, fraction, htext, hnum⟩ := numberText_eq hx
  have hscan : (Pattern.number "NUM").scan (numberText x) = some ([("NUM", numberText x)], []) := by
    rw [htext]
    exact Pattern.scan_number "NUM" negative hnum
  refine .of_recover (e := { fields := [("NUM", .number x)] }) [] _ rfl ?_ ?_ ?_ ?_
  · rw [hrender]
    exact term_number hx
  · simp
  · rw [hrender]
    refine Definition.recover_value rfl rfl rfl rfl hscan ?_
    show (Double.ofText? (numberText x) >>= _) = _
    rw [ofText?_numberText hx (hplain _ _ hv)]
    simp [hx]
  · exact ⟨fun id => fillFields_singleton rfl h hv id, rfl, rfl, hm.symm⟩

theorem phrase_text (h : Catalogue.text.shape.Admits p.node.fields) : Phrase Catalogue.text p := by
  obtain ⟨v, hv, hacc⟩ := h.get "TEXT" rfl
  obtain ⟨s, rfl⟩ := FieldSpec.accepts_text hacc
  have hrender : Catalogue.text.render p = Quoted.encode s.toList :=
    congrArg Quoted.encode (Parts.text_eq hv rfl)
  have hscan := Pattern.scan_literal "TEXT" s.toList []
  rw [List.append_nil] at hscan
  refine .of_recover (e := { fields := [("TEXT", .text s)] }) [mathNumber] _ rfl ?_ ?_ ?_ ?_
  · rw [hrender]
    exact term_literal s.toList
  · rw [hrender]
    simp only [List.mem_singleton, forall_eq]
    exact mathNumber_recover_cons (by decide) (by decide)
  · rw [hrender]
    refine Definition.recover_value rfl rfl rfl rfl hscan ?_
    show (Quoted.decode (Quoted.encode s.toList) >>= _) = _
    rw [Quoted.decode_encode]
    simp
  · exact ⟨fun id => fillFields_singleton rfl h hv id, rfl, rfl, hm.symm⟩

theorem phrase_variablesGet (h : variablesGet.shape.Admits p.node.fields) :
    Phrase variablesGet p := by
  obtain ⟨v, hv, hacc⟩ := h.get "VAR" rfl
  obtain ⟨s, rfl, hs⟩ := FieldSpec.accepts_var hacc
  have hrender : variablesGet.render p = s.toList := Parts.text_eq hv rfl
  have hid := hs
  simp only [Word.isIdentifier, Bool.and_eq_true, Bool.not_eq_true', List.contains_eq_mem,
    decide_eq_false_iff_not, String.ofList_toList] at hs
  obtain ⟨hword, hreserved⟩ := hs
  have hne (k : String) (hk : k ∈ Word.reserved) : s.toList ≠ k.toList := by
    intro he
    rw [String.toList_inj.mp he] at hreserved
    exact hreserved hk
  have hscan := Pattern.scan_word "VAR" hword stops_nil
  rw [List.append_nil] at hscan
  refine .of_recover (e := { fields := [("VAR", .var s)] }) (Kind.unnamed.map Kind.definition) _
    rfl ?_ ?_ ?_ ?_
  · rw [hrender]
    exact term_word hword (hne "and" (by decide)) (hne "or" (by decide)) (hne "not" (by decide))
  · rw [hrender]
    exact List.forall_mem_map.mpr (recover_identifier hid)
  · rw [hrender]
    refine Definition.recover_value rfl rfl rfl rfl hscan ?_
    simp [Captures.first?, hid]
  · exact ⟨fun id => fillFields_singleton rfl h hv id, rfl, rfl, hm.symm⟩

theorem phrase_logicBoolean (h : logicBoolean.shape.Admits p.node.fields) :
    Phrase logicBoolean p := by
  obtain ⟨v, hv, hacc⟩ := h.get "BOOL" rfl
  obtain ⟨b, rfl⟩ := FieldSpec.accepts_bool hacc
  have hrender : logicBoolean.render p = truthText b := by
    show truthText (((p.node.fields.get? "BOOL").bind FieldValue.bool?).getD false) = _
    rw [hv]
    rfl
  refine .of_recover (e := { fields := [("BOOL", .bool b)] }) [mathNumber, Catalogue.text] _ rfl
    ?_ ?_ ?_ ⟨fun id => fillFields_singleton rfl h hv id, rfl, rfl, hm.symm⟩
  · rw [hrender]
    cases b
    · exact term_word (by decide) (by decide) (by decide) (by decide)
    · exact term_word (by decide) (by decide) (by decide) (by decide)
  · rw [hrender]
    simp only [List.forall_mem_cons, List.not_mem_nil, false_implies, implies_true, and_true]
    cases b <;> exact ⟨rfl, rfl⟩
  · rw [hrender]
    cases b <;> rfl

theorem phrase_temperature (h : temperature.shape.Admits p.node.fields) : Phrase temperature p := by
  refine .of_recover (e := {}) [mathNumber, Catalogue.text, logicBoolean, logicNegate, logicCompare,
    logicOperation, mathArithmetic, mathRandom, buttonIsPressed] _ rfl ?_ ?_ rfl
    ⟨fun id => fillFields_nil rfl h id, rfl, rfl, hm.symm⟩
  · exact term_call (f := "nput.temperature".toList) (by decide) (by decide) (by decide)
      (fun _ => rfl) rfl scans_nil .nil (by simp)
  · simp only [List.forall_mem_cons, List.not_mem_nil, false_implies, implies_true, and_true]
    exact ⟨rfl, rfl, rfl, rfl, rfl, rfl, rfl, rfl, rfl⟩

theorem phrase_buttonIsPressed (h : buttonIsPressed.shape.Admits p.node.fields) :
    Phrase buttonIsPressed p := by
  obtain ⟨v, hv, hacc⟩ := h.get "BUTTON" rfl
  obtain ⟨s, hs, rfl⟩ := FieldSpec.accepts_choice hacc
  have hrender : buttonIsPressed.render p =
      call "input.button_is_pressed" ["Button.".toList ++ s.toList] := by
    rw [← Parts.text_eq hv rfl]
    rfl
  refine .of_recover (e := { fields := [("BUTTON", .choice s)] }) [mathNumber, Catalogue.text,
    logicBoolean, logicNegate, logicCompare, logicOperation, mathArithmetic, mathRandom] _ rfl ?_ ?_
    ?_ ⟨fun id => fillFields_singleton rfl h hv id, rfl, rfl, hm.symm⟩
  · rw [hrender]
    have hword : ∀ s ∈ buttons, Word.isWord s.toList = true := by decide
    exact term_call_option (f := "nput.button_is_pressed".toList) (a := "Button".toList) (by decide)
      (by decide) (by decide) (fun _ => rfl) rfl (by decide)
      (hword s hs)
  · rw [hrender]
    simp only [List.forall_mem_cons, List.not_mem_nil, false_implies, implies_true, and_true]
    exact ⟨rfl, rfl, rfl, rfl, rfl, rfl, rfl, rfl⟩
  · rw [hrender]
    simp only [buttons, List.mem_cons, List.not_mem_nil, or_false] at hs
    rcases hs with rfl | rfl | rfl <;> rfl

theorem phrase_acceleration (h : acceleration.shape.Admits p.node.fields) :
    Phrase acceleration p := by
  obtain ⟨v, hv, hacc⟩ := h.get "DIMENSION" rfl
  obtain ⟨s, hs, rfl⟩ := FieldSpec.accepts_choice hacc
  have hrender : acceleration.render p =
      call "input.acceleration" ["Dimension.".toList ++ s.toList] := by
    rw [← Parts.text_eq hv rfl]
    rfl
  refine .of_recover (e := { fields := [("DIMENSION", .choice s)] }) [mathNumber, Catalogue.text,
    logicBoolean, logicNegate, logicCompare, logicOperation, mathArithmetic, mathRandom,
    buttonIsPressed, temperature] _ rfl ?_ ?_ ?_
    ⟨fun id => fillFields_singleton rfl h hv id, rfl, rfl, hm.symm⟩
  · rw [hrender]
    have hword : ∀ s ∈ dimensions, Word.isWord s.toList = true := by decide
    exact term_call_option (f := "nput.acceleration".toList) (a := "Dimension".toList) (by decide)
      (by decide) (by decide) (fun _ => rfl) rfl (by decide)
      (hword s hs)
  · rw [hrender]
    simp only [List.forall_mem_cons, List.not_mem_nil, false_implies, implies_true, and_true]
    exact ⟨rfl, rfl, rfl, rfl, rfl, rfl, rfl, rfl, rfl, rfl⟩
  · rw [hrender]
    simp only [dimensions, List.mem_cons, List.not_mem_nil, or_false] at hs
    rcases hs with rfl | rfl | rfl | rfl <;> rfl

end Atoms

/-! ### Calls with arguments -/

theorem isControl_join {args : List (List Char)} (hargs : ∀ a ∈ args, Term a) :
    ∀ c ∈ join [',', ' '] args, isControl c = false := by
  intro c hc
  rcases mem_join hc with hc | ⟨a, ha, hc⟩
  · rcases List.mem_pair.mp hc with rfl | rfl <;> decide
  · exact (hargs a ha).visible c hc

theorem join_ne_nil {args : List (List Char)} (hne : args ≠ []) (hargs : ∀ a ∈ args, Term a) :
    join [',', ' '] args ≠ [] := by
  obtain ⟨a, args, rfl⟩ := List.exists_cons_of_ne_nil hne
  have ha := (hargs a List.mem_cons_self).trimmed.1
  cases args with
  | nil => exact ha
  | cons b args => simp [join, ha]

theorem scan_call (function name : String) {args : List (List Char)} {rest : List Char}
    (hne : args ≠ []) (hargs : ∀ a ∈ args, Term a)
    (hrest : rest = [] ∨ ∃ more, rest = '\n' :: more) :
    (callIdiom function name).scan (call function args ++ rest) =
      some ([(name, join [',', ' '] args)], rest) := by
  have htext : call function args ++ rest =
      (function ++ "(").toList ++ (join [',', ' '] args ++ ([')'] ++ rest)) := by
    simp [call]
  have hline : ∀ c ∈ join [',', ' '] args, c ≠ '\n' := by
    rintro c hc rfl
    have := isControl_join hargs _ hc
    cases this
  have hhole := Pattern.scan_hole name [')'] (join_ne_nil hne hargs) hline (by decide) hrest
  rw [htext]
  exact Pattern.scan_append (Pattern.scan_append (Pattern.scan_lits _ _) hhole)
    (Pattern.scan_lits ")" rest)

theorem foldl_value (e : Extraction) (args : List (String × List Char)) :
    args.foldl (fun e a => e.value a.1 a.2) e =
      { e with values := e.values ++ args.map fun a => (a.1, trim a.2) } := by
  induction args generalizing e with
  | nil => simp
  | cons a args ih =>
    rw [List.foldl_cons, ih]
    simp [Extraction.value]

/-- The arguments of a call come back to their inputs. -/
theorem readArguments_join (name : String) {inputs : List String} {f : String → List Char}
    (hne : inputs ≠ []) (hargs : ∀ i ∈ inputs, Term (f i)) :
    readArguments name inputs [(name, join [',', ' '] (inputs.map f))] =
      some { values := inputs.map fun i => (i, f i) } := by
  have hterms : ∀ a ∈ inputs.map f, Term a := by
    intro a ha
    obtain ⟨i, hi, rfl⟩ := List.mem_map.mp ha
    exact hargs i hi
  have hvalues : (inputs.zip (inputs.map f)).map (fun a => (a.1, trim a.2)) =
      inputs.map fun i => (i, f i) := by
    rw [← List.map_prod_left_eq_zip, List.map_map]
    refine List.map_congr_left fun i hi => ?_
    exact congrArg (i, ·) (hargs i hi).trimmed.trim
  have hsplit := splitArguments_join (by simpa using hne) fun a ha => (hterms a ha).isArgument
  unfold readArguments
  simp [Captures.first?, hsplit, foldl_value, hvalues]

theorem phrase_mathRandom {p : Parts} (hm : p.node.mutation = none)
    (h : mathRandom.shape.Admits p.node.fields)
    (hargs : ∀ i ∈ ["FROM", "TO"], Term (p.value i)) : Phrase mathRandom p := by
  have hterms : ∀ a ∈ [p.value "FROM", p.value "TO"], Term a := by
    intro a ha
    rcases List.mem_pair.mp ha with rfl | rfl
    · exact hargs "FROM" (by decide)
    · exact hargs "TO" (by decide)
  have hscan := scan_call "randint" "args" (List.cons_ne_nil _ _) hterms (.inl rfl)
  rw [List.append_nil] at hscan
  refine .of_recover (e := { values := ["FROM", "TO"].map fun i => (i, p.value i) }) [mathNumber,
    Catalogue.text, logicBoolean, logicNegate, logicCompare, logicOperation, mathArithmetic] _ rfl
    ?_ ?_ ?_ ⟨fun id => fillFields_nil rfl h id, rfl, rfl, hm.symm⟩
  · obtain ⟨l, ls, hscans, hbal⟩ := scans_arguments
      (fun x hx => hterms x (List.mem_cons_of_mem _ hx)) (hterms _ List.mem_cons_self)
    exact term_call (f := "andint".toList) (by decide) (by decide) (by decide) (fun _ => rfl) rfl
      hscans hbal (isControl_join hterms)
  · simp only [List.forall_mem_cons, List.not_mem_nil, false_implies, implies_true, and_true]
    exact ⟨rfl, rfl, rfl, rfl, rfl, rfl, rfl⟩
  · exact Definition.recover_value rfl rfl rfl rfl hscan
      (readArguments_join "args" (List.cons_ne_nil _ _) hargs)

/-! ### Operators -/

/-- A text in parentheses is taken by a hole. -/
theorem scan_enclosed (start : String) (name : String) {inner : List Char} (hne : inner ≠ [])
    (hline : ∀ c ∈ inner, c ≠ '\n') :
    (Pattern.lits start ++ Pattern.hole name [')'] ++ Pattern.lits ")").scan
      (start.toList ++ (inner ++ [')'])) = some ([(name, inner)], []) := by
  have hhole := Pattern.scan_hole name [')'] hne hline (by decide) (.inl rfl)
  exact Pattern.scan_append (Pattern.scan_append (Pattern.scan_lits _ _) hhole)
    (Pattern.scan_lits ")" [])

theorem phrase_logicNegate {p : Parts} (hm : p.node.mutation = none)
    (h : logicNegate.shape.Admits p.node.fields) (hv : Term (p.value "BOOL")) :
    Phrase logicNegate p := by
  obtain ⟨ls, hscans, hop⟩ := hv.tokens
  obtain ⟨l, ls, rfl⟩ := List.exists_cons_of_ne_nil hop.ne_nil
  have hinner := (scans_word (w := ['n', 'o', 't']) (by decide)).append hscans.space (by simp)
    (stops_cons (by decide))
  have hbal : Balanced (⟨[], .name, ['n', 'o', 't']⟩ :: { l with gap := ' ' :: l.gap } :: ls) :=
    .token (by simp) (by simp) (hop.balanced.gap _)
  refine .of_recover (e := { values := [("BOOL", p.value "BOOL")] }) [mathNumber, Catalogue.text,
    logicBoolean] _ rfl ?_ ?_ ?_ ⟨fun id => fillFields_nil rfl h id, rfl, rfl, hm.symm⟩
  · show Term ('(' :: (['n', 'o', 't'] ++ ' ' :: p.value "BOOL") ++ [')'])
    refine term_enclosed hinner hbal fun d hd => ?_
    simp only [List.mem_append, List.mem_cons, List.not_mem_nil, or_false] at hd
    rcases hd with (rfl | rfl | rfl) | rfl | hd
    iterate 4 decide
    exact hv.visible d hd
  · simp only [List.forall_mem_cons, List.not_mem_nil, false_implies, implies_true, and_true]
    exact ⟨rfl, rfl, rfl⟩
  · have henclosed : isEnclosed ('(' :: 'n' :: 'o' :: 't' :: ' ' :: (p.value "BOOL" ++ [')'])) =
        true := isEnclosed_of_balanced hinner hbal
    refine Definition.recover_value rfl rfl rfl rfl
      (scan_enclosed "(not " "BOOL" hv.trimmed.1 hv.ne_newline) ?_
    simp [Captures.first?, henclosed, Extraction.value, hv.trimmed.trim]

/-- An operator is spelled by a token between two operands, and its spelling is read as it. -/
structure Spelled (operators : Operators) (o : String × List Char) : Prop where
  spelling : spelling operators o.1 = o.2
  find : operators.find? (fun o' => o'.2 == o.2) = some o
  joint : ∃ k, IsJoint o.2 k

theorem spelled_comparisons : ∀ o ∈ comparisons, Spelled comparisons o := by
  simp only [comparisons, List.forall_mem_cons, List.not_mem_nil, false_implies, implies_true,
    and_true]
  refine ⟨?_, ?_, ?_, ?_, ?_, ?_⟩ <;>
    exact ⟨rfl, rfl, .operator, fun _ => rfl, fun _ => rfl, by decide⟩

theorem spelled_connectives : ∀ o ∈ connectives, Spelled connectives o := by
  simp only [connectives, List.forall_mem_cons, List.not_mem_nil, false_implies, implies_true,
    and_true]
  refine ⟨?_, ?_⟩ <;> exact ⟨rfl, rfl, .name, fun _ => rfl, fun _ => rfl, by decide⟩

theorem spelled_arithmetics : ∀ o ∈ arithmetics, Spelled arithmetics o := by
  simp only [arithmetics, List.forall_mem_cons, List.not_mem_nil, false_implies, implies_true,
    and_true]
  refine ⟨?_, ?_, ?_, ?_⟩ <;> exact ⟨rfl, rfl, .operator, fun _ => rfl, fun _ => rfl, by decide⟩

section Binary

variable {kind : Kind} {description : String} {result : Check} {operators : Operators}
  {x y : InputSpec} {a b operator : List Char} {k : Token}

/-- Two operands with an operator between them, in parentheses. -/
def binaryText (a operator b : List Char) : List Char :=
  '(' :: (a ++ ' ' :: operator ++ ' ' :: b) ++ [')']

theorem isControl_joined (ha : Term a) (hb : Term b) (hj : IsJoint operator k) :
    ∀ c ∈ a ++ ' ' :: operator ++ ' ' :: b, isControl c = false := by
  intro c hc
  simp only [List.mem_append, List.mem_cons] at hc
  rcases hc with (hc | rfl | hc) | rfl | hc
  · exact ha.visible c hc
  · decide
  · exact hj.visible c hc
  · decide
  · exact hb.visible c hc

/-- What the idiom of an operator makes of a text with an operator: the block, if it is one of its
own operators. -/
theorem binary_recover (ha : Term a) (hb : Term b) (hj : IsJoint operator k) :
    (binary kind description result operators x y).recover (binaryText a operator b) =
      (operators.find? fun o => o.2 == operator).map fun o =>
        ({ fields := [("OP", .choice o.1)], values := [(x.name, a), (y.name, b)] },
          ⟨kind, [("OP", .choice o.1)], none⟩, binaryText a operator b) := by
  obtain ⟨ls, hls, hlop⟩ := ha.tokens
  obtain ⟨ms, hms, hmop⟩ := hb.tokens
  obtain ⟨l, ms, rfl⟩ := List.exists_cons_of_ne_nil hmop.ne_nil
  have henclosed : isEnclosed (binaryText a operator b) = true :=
    isEnclosed_of_balanced (scans_joined hls hj hms)
      (balanced_joined _ hlop.balanced hj hmop.balanced)
  have hline : ∀ c ∈ a ++ ' ' :: operator ++ ' ' :: b, c ≠ '\n' := by
    rintro c hc rfl
    have := isControl_joined ha hb hj _ hc
    cases this
  have hscan : (Pattern.lits "(" ++ Pattern.hole "inner" [')'] ++ Pattern.lits ")").scan
      (binaryText a operator b) = some ([("inner", a ++ ' ' :: operator ++ ' ' :: b)], []) :=
    scan_enclosed "(" "inner" (by simp) hline
  have hsplit := splitBinary_joined (operators.map (·.2)) ha hj hb
  cases hfind : operators.find? fun o => o.2 == operator with
  | some o =>
    have ho : o.2 = operator := by simpa using List.find?_some hfind
    have hcontains : (operators.map (·.2)).contains operator = true := by
      rw [List.contains_iff_mem, ← ho]
      exact List.mem_map_of_mem (List.mem_of_find?_eq_some hfind)
    rw [hcontains, if_pos rfl] at hsplit
    refine Definition.recover_value rfl rfl rfl rfl hscan ?_
    show ((guard (isEnclosed (binaryText a operator b) = true) : Option Unit) >>= fun _ =>
      splitBinary (operators.map (·.2)) (a ++ ' ' :: operator ++ ' ' :: b) >>= _) = _
    rw [henclosed, hsplit]
    simp [hfind, Extraction.value, ha.trimmed.trim, hb.trimmed.trim]
  | none =>
    refine Definition.recover_eq_none_of_extract rfl rfl hscan ?_
    show ((guard (isEnclosed (binaryText a operator b) = true) : Option Unit) >>= fun _ =>
      splitBinary (operators.map (·.2)) (a ++ ' ' :: operator ++ ' ' :: b) >>= _) = _
    rw [henclosed, hsplit]
    split <;> simp [hfind]

theorem phrase_binary {p : Parts} {i j : String} {checkI checkJ : Check}
    {defaultI defaultJ : Option ShadowSpec} {d : Definition} (hm : p.node.mutation = none)
    (hd : d = binary kind description result operators (.value i checkI defaultI)
      (.value j checkJ defaultJ)) (h : d.shape.Admits p.node.fields)
    (hops : ∀ o ∈ operators, Spelled operators o) (ha : Term (p.value i)) (hb : Term (p.value j))
    (before after : List Definition) (hlist : Registry.builtin.valueIdioms = before ++ d :: after)
    (hbefore : ∀ o ∈ operators, ∀ d' ∈ before,
      d'.recover (binaryText (p.value i) o.2 (p.value j)) = none) : Phrase d p := by
  subst hd
  obtain ⟨v, hv, hacc⟩ := h.get "OP" rfl
  obtain ⟨s, hs, rfl⟩ := FieldSpec.accepts_choice hacc
  obtain ⟨o, ho, rfl⟩ := List.mem_map.mp hs
  obtain ⟨hspelling, hfind, k, hj⟩ := hops o ho
  have hrender : (binary kind description result operators (.value i checkI defaultI)
      (.value j checkJ defaultJ)).render p = binaryText (p.value i) o.2 (p.value j) := by
    show binaryText (p.value i) (spelling operators (String.ofList (p.text "OP"))) (p.value j) = _
    rw [Parts.text_eq hv rfl, String.ofList_toList, hspelling]
  obtain ⟨ls, hls, hlop⟩ := ha.tokens
  obtain ⟨ms, hms, hmop⟩ := hb.tokens
  obtain ⟨l, ms, rfl⟩ := List.exists_cons_of_ne_nil hmop.ne_nil
  refine .of_recover
    (e := { fields := [("OP", .choice o.1)], values := [(i, p.value i), (j, p.value j)] })
    before after hlist ?_ ?_ ?_ ⟨fun id => fillFields_singleton rfl h hv id, rfl, rfl, hm.symm⟩
  · rw [hrender]
    exact term_enclosed (scans_joined hls hj hms) (balanced_joined _ hlop.balanced hj hmop.balanced)
      (isControl_joined ha hb hj)
  · rw [hrender]
    exact hbefore o ho
  · rw [hrender, binary_recover ha hb hj, hfind]
    rfl

/-- The idiom of an operator refuses the others. -/
theorem recover_binary_other (ha : Term a) (hb : Term b) (hj : IsJoint operator k)
    (h : operators.find? (fun o => o.2 == operator) = none) :
    (binary kind description result operators x y).recover (binaryText a operator b) = none := by
  rw [binary_recover ha hb hj, h]
  rfl

/-- The idioms of atoms and of negations refuse a text with an operator. -/
theorem recover_binaryText (ha : Term a) :
    ∀ d ∈ [mathNumber, Catalogue.text, logicBoolean, logicNegate],
      d.recover (binaryText a operator b) = none := by
  simp only [List.forall_mem_cons, List.not_mem_nil, false_implies, implies_true, and_true]
  refine ⟨rfl, rfl, rfl, Definition.recover_eq_none_of_opening rfl ?_⟩
  rintro ⟨more, he⟩
  refine ha.not_negation (operator ++ ' ' :: b ++ [')']) ⟨more, ?_⟩
  have hinner : ['n', 'o', 't', ' '] ++ more = a ++ ' ' :: operator ++ ' ' :: b ++ [')'] :=
    (List.cons.inj he).2
  rw [hinner]
  simp

end Binary

/-- The text of a value block is a phrase. -/
theorem phrase (k : Kind) {p : Parts} (hrole : k.definition.shape.role.isValue = true)
    (hm : p.node.mutation = none) (h : k.definition.shape.Admits p.node.fields)
    (hplain : Plain p.node.fields)
    (hvalues : ∀ i ∈ k.definition.shape.valueInputs none, Term (p.value i)) :
    Phrase k.definition p := by
  cases k with
  | mathNumber => exact phrase_mathNumber hm h hplain
  | text => exact phrase_text hm h
  | logicBoolean => exact phrase_logicBoolean hm h
  | logicNegate => exact phrase_logicNegate hm h (hvalues "BOOL" (by decide))
  | logicCompare =>
    have ha := hvalues "A" (by decide)
    exact phrase_binary hm rfl h spelled_comparisons ha (hvalues "B" (by decide)) _ _ rfl
      fun _ _ => recover_binaryText ha
  | logicOperation =>
    have ha := hvalues "A" (by decide)
    have hb := hvalues "B" (by decide)
    refine phrase_binary hm rfl h spelled_connectives ha hb ([mathNumber, Catalogue.text,
      logicBoolean, logicNegate] ++ [logicCompare]) _ rfl fun o ho => ?_
    obtain ⟨-, -, k, hj⟩ := spelled_connectives o ho
    have hother : ∀ o ∈ connectives, comparisons.find? (fun o' => o'.2 == o.2) = none := by decide
    rw [List.forall_mem_append]
    refine ⟨recover_binaryText ha, ?_⟩
    simp only [List.mem_singleton, forall_eq]
    exact recover_binary_other ha hb hj (hother o ho)
  | mathArithmetic =>
    have ha := hvalues "A" (by decide)
    have hb := hvalues "B" (by decide)
    refine phrase_binary hm rfl h spelled_arithmetics ha hb ([mathNumber, Catalogue.text,
      logicBoolean, logicNegate] ++ [logicCompare, logicOperation]) _ rfl fun o ho => ?_
    obtain ⟨-, -, k, hj⟩ := spelled_arithmetics o ho
    have hcompare : ∀ o ∈ arithmetics, comparisons.find? (fun o' => o'.2 == o.2) = none := by decide
    have hconnect : ∀ o ∈ arithmetics, connectives.find? (fun o' => o'.2 == o.2) = none := by decide
    rw [List.forall_mem_append]
    refine ⟨recover_binaryText ha, ?_⟩
    simp only [List.forall_mem_cons, List.not_mem_nil, false_implies, implies_true, and_true]
    exact ⟨recover_binary_other ha hb hj (hcompare o ho),
      recover_binary_other ha hb hj (hconnect o ho)⟩
  | mathRandom => exact phrase_mathRandom hm h hvalues
  | buttonIsPressed => exact phrase_buttonIsPressed hm h
  | temperature => exact phrase_temperature hm h
  | acceleration => exact phrase_acceleration hm h
  | variablesGet => exact phrase_variablesGet hm h
  | _ => cases hrole

end BlockText

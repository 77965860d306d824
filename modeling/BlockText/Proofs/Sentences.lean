import BlockText.Proofs.Phrases
import BlockText.Proofs.Pictures

/-!
# Sentences

The text of a statement block is a few lines, some of which have a body after them. With the mark of
a block in place of each body, the statement idioms read the block back from the front of a level:
the first one that fits is that of its kind, it takes exactly the lines of the block, and it gives
back the block. The idioms are told apart by how a text starts, those of the assignments by the name
at the start; a conditional ends where no further branch follows.
-/

namespace BlockText

open Text Lexeme Expression Catalogue Workspace

/-! ## Rows -/

/-- A line, and the statement input whose body follows it. -/
structure Row where
  text : List Char
  body : Option String

/-- A row with the bodies written in place. -/
def Row.write (body : String → List Char) (r : Row) : List Char :=
  r.text ++ '\n' :: (r.body.map body).getD []

@[simp] theorem Row.write_line (body : String → List Char) (t : List Char) :
    Row.write body ⟨t, none⟩ = t ++ ['\n'] := rfl

@[simp] theorem Row.write_header (body : String → List Char) (t : List Char) (input : String) :
    Row.write body ⟨t, some input⟩ = t ++ '\n' :: body input := rfl

/-- What the reader has in place of a body. -/
def markedBody (_ : String) : List Char := blockMark ++ ['\n']

/-- Rows as the reader has them. -/
def spellRows (rows : List Row) : List Char := rows.flatMap (Row.write markedBody)

/-- The lines of a row as a level shows them. -/
def Row.shown (r : Row) : List (List Char) := r.text :: (r.body.map fun _ => blockMark).toList

theorem spellRows_eq_unlines (rows : List Row) :
    spellRows rows = unlines (rows.flatMap Row.shown) := by
  rw [unlines, List.flatMap_assoc, spellRows]
  refine List.flatMap_congr fun r _ => ?_
  cases hr : r.body <;> simp [Row.write, Row.shown, markedBody, hr]

/-- A line of a program: it has no blanks at its ends and no control characters, and it is more than
a word. -/
structure IsLine (t : List Char) : Prop where
  trimmed : Trimmed t
  visible : ∀ c ∈ t, isControl c = false
  mark : ∃ c ∈ t, Word.isPart c = false

/-- A check for lines that end with more than a word. -/
def lineCheck (t : List Char) : Bool :=
  t.head?.any (fun c => !isBlank c) && t.getLast?.any (fun c => !isBlank c && !Word.isPart c)
    && t.all fun c => !isControl c

theorem isLine_of_check {t : List Char} (h : lineCheck t = true) : IsLine t := by
  simp only [lineCheck, Bool.and_eq_true, List.all_eq_true, Bool.not_eq_true'] at h
  obtain ⟨⟨hs, he⟩, hv⟩ := h
  obtain ⟨e, hlast, he⟩ := (Option.any_eq_true _ _).mp he
  rw [Bool.and_eq_true, Bool.not_eq_true', Bool.not_eq_true'] at he
  refine ⟨trimmed_of_ends hs ?_, hv, e, List.mem_of_getLast? hlast, he.2⟩
  rw [hlast, Option.any_some, he.1]
  rfl

/-- A line with a fixed beginning and a fixed ending. -/
theorem isLine_framed (start mid ending : List Char)
    (hs : start.head?.any (fun c => !isBlank c) = true) (hsv : start.all fun c => !isControl c)
    (hm : ∀ c ∈ mid, isControl c = false)
    (he : ending.getLast?.any (fun c => !isBlank c && !Word.isPart c) = true)
    (hev : ending.all fun c => !isControl c) : IsLine (start ++ mid ++ ending) := by
  refine isLine_of_check ?_
  have hmv : (mid.all fun c => !isControl c) = true := by simpa using hm
  rw [lineCheck, List.all_append, List.all_append, hsv, hmv, hev, List.append_assoc,
    List.head?_append, ← List.append_assoc, List.getLast?_append]
  cases hhead : start.head? with
  | none =>
    rw [hhead] at hs
    cases hs
  | some c =>
    cases hlast : ending.getLast? with
    | none =>
      rw [hlast] at he
      cases he
    | some e =>
      rw [hhead] at hs
      rw [hlast] at he
      simp only [Option.any_some] at hs he
      simp [hs, he]

/-! ## Continuations -/

/-- How a further branch of a conditional starts. -/
def continuations : List (List Char) := ["elif ".toList, "else:".toList]

/-- No further branch of a conditional. -/
def Fresh (cs : List Char) : Prop := ∀ o ∈ continuations, ¬ o <+: cs

/-- Neither of two texts starts with the other, so no text starts with both. -/
abbrev Apart (o o' : List Char) : Prop := ¬ o <+: o' ∧ ¬ o' <+: o

theorem Apart.not_startsWith {o o' cs : List Char} (h : Apart o o') (ho : o <+: cs) :
    ¬ o' <+: cs := by
  intro ho'
  rcases List.prefix_or_prefix_of_prefix ho ho' with hp | hp
  · exact h.1 hp
  · exact h.2 hp

/-! ## Sentences -/

/-- The rows of a statement block, and that the block is read back from them. -/
structure Sentence (d : Definition) (p : Parts) (rows : List Row) : Prop where
  render : ∀ body, d.render { p with body := body } = rows.flatMap (Row.write body)
  ne_nil : rows ≠ []
  lines : ∀ r ∈ rows, IsLine r.text
  bodies : rows.filterMap Row.body = d.shape.statementInputs p.node.mutation
  fresh : ∀ rest, Fresh (spellRows rows ++ rest)
  first : ∀ rest, ∃ before after, Registry.builtin.statementIdioms true = before ++ d :: after ∧
    ∀ d' ∈ before, d'.recover (spellRows rows ++ rest) = none
  found : ∀ rest, Fresh rest → ∃ e, d.recover (spellRows rows ++ rest) =
    some (e, ⟨d.kind, e.fields, e.mutation⟩, spellRows rows) ∧ e.Gives d.shape p

/-- The statement idioms with a fixed opening. -/
def openingIdioms : List Definition :=
  [onStart, forever, onButtonPressed, onGesture, showString, showNumber, showIcon, showLeds,
    clearScreen, pause, displayShow, plot, unplot, playTone, repeatTimes, whileLoop, ifElse]

theorem statementIdioms_builtin :
    Registry.builtin.statementIdioms true = openingIdioms ++ [changeVariable, setVariable] := rfl

theorem apart_openings : openingIdioms.Pairwise fun d d' => Apart d'.opening d.opening := by decide

theorem apart_continuations : ∀ d ∈ openingIdioms, ∀ o ∈ continuations, Apart d.opening o := by
  decide

/-- What is left to show of a block whose idiom is told by how its text starts. -/
theorem Sentence.of_opening {d : Definition} {p : Parts} {rows : List Row} (hd : d ∈ openingIdioms)
    (hopens : d.opening <+: spellRows rows)
    (hrender : ∀ body, d.render { p with body := body } = rows.flatMap (Row.write body))
    (hlines : ∀ r ∈ rows, IsLine r.text)
    (hbodies : rows.filterMap Row.body = d.shape.statementInputs p.node.mutation)
    (hne : rows ≠ [])
    (hfound : ∀ rest, Fresh rest → ∃ e, d.recover (spellRows rows ++ rest) =
      some (e, ⟨d.kind, e.fields, e.mutation⟩, spellRows rows) ∧ e.Gives d.shape p) :
    Sentence d p rows where
  render := hrender
  ne_nil := hne
  lines := hlines
  bodies := hbodies
  fresh rest o ho :=
    (apart_continuations d hd o ho).not_startsWith (hopens.trans (List.prefix_append _ rest))
  first rest := by
    obtain ⟨before, after, hlist⟩ := List.append_of_mem hd
    have hapart := apart_openings
    rw [hlist, List.pairwise_append] at hapart
    refine ⟨before, after ++ [changeVariable, setVariable], ?_, fun d' hd' => ?_⟩
    · rw [statementIdioms_builtin, hlist, List.append_assoc, List.cons_append]
    · exact Definition.recover_eq_none_of_not_opening
        ((hapart.2.2 d' hd' d List.mem_cons_self).not_startsWith
          (hopens.trans (List.prefix_append _ rest)))
  found := hfound

theorem getLast?_spellRows {rows : List Row} (h : rows ≠ []) :
    (spellRows rows).getLast? = some '\n' := by
  rw [← List.dropLast_concat_getLast h, spellRows, List.flatMap_append, List.flatMap_singleton]
  have hrow (r : Row) : (r.write markedBody).getLast? = some '\n' := by
    rw [Row.write]
    cases r.body with
    | none => exact List.getLast?_concat
    | some body =>
      have : r.text ++ '\n' :: (markedBody body) = r.text ++ '\n' :: blockMark ++ ['\n'] := by
        simp [markedBody]
      rw [Option.map_some, Option.getD_some, this]
      exact List.getLast?_concat
  rw [List.getLast?_append, hrow]
  rfl

/-! ## Calls -/

section Calls

variable {p : Parts} (hm : p.node.mutation = none)
include hm

theorem sentence_clearScreen (h : clearScreen.shape.Admits p.node.fields) :
    Sentence clearScreen p [⟨"basic.clear_screen()".toList, none⟩] := by
  refine .of_opening (List.mem_of_getElem? (i := 8) rfl) ⟨_, rfl⟩ (fun _ => rfl) ?_ rfl (by simp)
    fun rest _ => ⟨{}, ?_, fun id => fillFields_nil rfl h id, rfl, rfl, hm.symm⟩
  · simp only [List.mem_singleton, forall_eq]
    exact isLine_of_check rfl
  · exact Definition.recover_statement rfl rfl rfl rfl (c := []) rfl
      (getLast?_spellRows (by simp)) rfl

theorem sentence_showString (h : showString.shape.Admits p.node.fields) :
    ∃ rows, Sentence showString p rows := by
  obtain ⟨v, hv, hacc⟩ := h.get "TEXT" rfl
  obtain ⟨s, rfl⟩ := FieldSpec.accepts_text hacc
  have htext := Parts.text_eq hv rfl
  have hscan (rest : List Char) : (Pattern.lits "basic.show_string(" ++ Pattern.literal "TEXT"
      ++ Pattern.lits ")\n").scan ("basic.show_string(".toList ++ (Quoted.encode s.toList ++
        (")\n".toList ++ rest))) = some ([("TEXT", Quoted.encode s.toList)], rest) :=
    Pattern.scan_append (Pattern.scan_append (Pattern.scan_lits _ _) (Pattern.scan_literal _ _ _))
      (Pattern.scan_lits _ _)
  refine ⟨[⟨call "basic.show_string" [Quoted.encode s.toList], none⟩],
    .of_opening (List.mem_of_getElem? (i := 4) rfl) ⟨_, rfl⟩ (fun _ => by simp [← htext]; rfl) ?_
      rfl (by simp) fun rest _ => ⟨{ fields := [("TEXT", .text s)] }, ?_,
      fun id => fillFields_singleton rfl h hv id, rfl, rfl, hm.symm⟩⟩
  · simp only [List.mem_singleton, forall_eq]
    exact isLine_framed "basic.show_string(".toList _ [')'] rfl rfl
      (fun _ => Quoted.isControl_encode) rfl rfl
  · refine Definition.recover_statement rfl rfl rfl rfl
      (c := [("TEXT", Quoted.encode s.toList)]) ?_ (getLast?_spellRows (by simp)) ?_
    · rw [← hscan]
      simp [spellRows, Row.write, call, join]
    · show (Quoted.decode (Quoted.encode s.toList) >>= _) = _
      rw [Quoted.decode_encode]
      simp

/-- A call with its inputs as arguments. -/
theorem sentence_callStatement {kind : Kind} {description function : String}
    {inputs : List InputSpec} {names : List String} {d : Definition}
    (hd : d = callStatement kind description function inputs)
    (h : d.shape.Admits p.node.fields) (hnames : inputs.map InputSpec.name = names)
    (hvalues : inputs.filterMap InputSpec.value? = names)
    (hbodies : inputs.filterMap InputSpec.statement? = []) (hne : names ≠ [])
    (hargs : ∀ i ∈ names, Term (p.value i))
    (hmem : d ∈ openingIdioms)
    (hstart : (function ++ "(").toList.head?.any (fun c => !isBlank c) = true)
    (hvisible : (function ++ "(").toList.all (fun c => !isControl c) = true) :
    ∃ rows, Sentence d p rows := by
  subst hd
  have hterms : ∀ a ∈ names.map p.value, Term a := by
    intro a ha
    obtain ⟨i, hi, rfl⟩ := List.mem_map.mp ha
    exact hargs i hi
  have hcall : call function (names.map p.value) =
      (function ++ "(").toList ++ join [',', ' '] (names.map p.value) ++ [')'] := by
    simp [call]
  have hspell : spellRows [⟨call function (names.map p.value), none⟩] =
      call function (names.map p.value) ++ ['\n'] := by
    simp [spellRows, Row.write]
  refine ⟨[⟨call function (names.map p.value), none⟩],
    .of_opening hmem ?_ (fun body => ?_) ?_ hbodies.symm (by simp) fun rest _ =>
      ⟨{ values := names.map fun i => (i, p.value i) }, ?_, fun id => fillFields_nil rfl h id,
        ?_, hbodies.symm, hm.symm⟩⟩
  · rw [hspell, hcall, List.append_assoc, List.append_assoc]
    exact List.prefix_append _ _
  · subst hnames
    show call function (inputs.map fun i => p.value i.name) ++ ['\n'] = _
    simp [Row.write, List.map_map, Function.comp_def]
  · simp only [List.mem_singleton, forall_eq]
    rw [hcall]
    exact isLine_framed _ _ [')'] hstart hvisible (isControl_join hterms) rfl rfl
  · have hscan := scan_call function "args" (by simpa using hne) hterms
      (.inr ⟨rest, rfl⟩ : '\n' :: rest = [] ∨ _)
    refine Definition.recover_statement rfl rfl rfl rfl
      (c := [("args", join [',', ' '] (names.map p.value))]) ?_
      (getLast?_spellRows (by simp)) ?_
    · rw [hspell, List.append_assoc]
      exact Pattern.scan_append hscan (Pattern.scan_lits "\n" rest)
    · rw [hnames]
      exact readArguments_join "args" hne hargs
  · exact congrArg (List.map fun i => (i, p.value i)) hvalues.symm

theorem sentence_showIcon (h : showIcon.shape.Admits p.node.fields) :
    ∃ rows, Sentence showIcon p rows := by
  obtain ⟨v, hv, hacc⟩ := h.get "ICON" rfl
  obtain ⟨s, hs, rfl⟩ := FieldSpec.accepts_choice hacc
  have htext := Parts.text_eq hv rfl
  have hicons : ∀ s ∈ icons, s.toList ≠ [] ∧ (∀ c ∈ s.toList, isControl c = false) ∧
      ∀ c ∈ s.toList, Pattern.inRanges [('A', 'Z'), ('_', '_')] c = true := by decide
  obtain ⟨hne, hvisible, hrange⟩ := hicons s hs
  have hscan (rest : List Char) : (Pattern.lits "basic.show_icon(IconNames."
      ++ Pattern.run "ICON" [('A', 'Z'), ('_', '_')] ++ Pattern.lits ")\n").scan
        ("basic.show_icon(IconNames.".toList ++ (s.toList ++ (")\n".toList ++ rest))) =
          some ([("ICON", s.toList)], rest) :=
    Pattern.scan_append (Pattern.scan_append (Pattern.scan_lits _ _)
      (Pattern.scan_run "ICON" hne hrange (stops_cons (by decide)))) (Pattern.scan_lits ")\n" rest)
  refine ⟨[⟨"basic.show_icon(IconNames.".toList ++ s.toList ++ [')'], none⟩],
    .of_opening (List.mem_of_getElem? (i := 6) rfl) ⟨_, rfl⟩ (fun _ => ?_) ?_ rfl (by simp)
      fun rest _ => ⟨{ fields := [("ICON", .choice s)] }, ?_,
        fun id => fillFields_singleton rfl h hv id, rfl, rfl, hm.symm⟩⟩
  · show call "basic.show_icon" ["IconNames.".toList ++ p.text "ICON"] ++ ['\n'] = _
    rw [htext]
    simp [call, join]
  · simp only [List.mem_singleton, forall_eq]
    exact isLine_framed _ _ [')'] rfl rfl hvisible rfl rfl
  · refine Definition.recover_statement rfl rfl rfl rfl (c := [("ICON", s.toList)]) ?_
      (getLast?_spellRows (by simp)) ?_
    · rw [← hscan]
      simp [spellRows]
    · simp [Captures.first?, hs]

theorem sentence_showLeds (h : showLeds.shape.Admits p.node.fields) :
    ∃ rows, Sentence showLeds p rows := by
  obtain ⟨v, hv, hacc⟩ := h.get "LEDS" rfl
  obtain ⟨b, rfl⟩ := FieldSpec.accepts_bitmap hacc
  have hpicture : picture p.node = b := by
    rw [picture, Node.field?, hv]
  have hscan (rest : List Char) : (Pattern.lits "basic.show_leds(\""
      ++ Pattern.run "LEDS" [('0', '1'), (' ', ' ')] ++ Pattern.lits "\")\n").scan
        ("basic.show_leds(\"".toList ++ (b.text ++ ("\")\n".toList ++ rest))) =
          some ([("LEDS", b.text)], rest) :=
    Pattern.scan_append (Pattern.scan_append (Pattern.scan_lits _ _)
      (Pattern.scan_run "LEDS" b.text_ne_nil b.inRanges_text (stops_cons (by decide))))
      (Pattern.scan_lits "\")\n" rest)
  refine ⟨[⟨"basic.show_leds(\"".toList ++ b.text ++ ['"', ')'], none⟩],
    .of_opening (List.mem_of_getElem? (i := 7) rfl) ⟨_, rfl⟩ (fun _ => ?_) ?_ rfl (by simp)
      fun rest _ =>
      ⟨{ fields := [("LEDS", .bitmap b)] }, ?_, fun id => fillFields_singleton rfl h hv id, rfl,
        rfl, hm.symm⟩⟩
  · show call "basic.show_leds" ['"' :: (picture p.node).text ++ ['"']] ++ ['\n'] = _
    rw [hpicture]
    simp [call, join]
  · simp only [List.mem_singleton, forall_eq]
    exact isLine_framed _ _ ['"', ')'] rfl rfl b.isControl_text rfl rfl
  · refine Definition.recover_statement rfl rfl rfl rfl (c := [("LEDS", b.text)]) ?_
      (getLast?_spellRows (by simp)) ?_
    · rw [← hscan]
      simp [spellRows]
    · show (Bitmap.ofText? b.text >>= _) = _
      rw [Bitmap.ofText?_text]
      rfl

end Calls

/-! ## Loops and events -/

section Bodies

variable {p : Parts} (hm : p.node.mutation = none)
include hm

/-- A loop with one value in its header. -/
theorem sentence_loop {kind : Kind} {description opening closing i : String} {check : Check}
    {shadow : Option ShadowSpec} {d : Definition}
    (hd : d = loop kind description opening closing (.value i check shadow))
    (h : d.shape.Admits p.node.fields) (hv : Term (p.value i))
    (hmem : d ∈ openingIdioms)
    (hstart : opening.toList.head?.any (fun c => !isBlank c) = true)
    (hstartv : opening.toList.all (fun c => !isControl c) = true)
    (hend : closing.toList.getLast?.any (fun c => !isBlank c && !Word.isPart c) = true)
    (hendv : closing.toList.all (fun c => !isControl c) = true) :
    ∃ rows, Sentence d p rows := by
  subst hd
  have hspell : spellRows [⟨opening.toList ++ p.value i ++ closing.toList, some "DO"⟩] =
      opening.toList ++ (p.value i ++ (closing.toList ++ '\n' :: (blockMark ++ ['\n']))) := by
    simp [spellRows, markedBody]
  refine ⟨[⟨opening.toList ++ p.value i ++ closing.toList, some "DO"⟩],
    .of_opening hmem ?_ (fun body => ?_) ?_ rfl (by simp) fun rest _ =>
      ⟨{ values := [(i, p.value i)], bodies := ["DO"] }, ?_, fun id => fillFields_nil rfl h id,
        rfl, rfl, hm.symm⟩⟩
  · rw [hspell]
    exact List.prefix_append _ _
  · show opening.toList ++ p.value i ++ closing.toList ++ '\n' :: body "DO" = _
    simp
  · simp only [List.mem_singleton, forall_eq]
    exact isLine_framed _ _ _ hstart hstartv hv.visible hend hendv
  · have hclosing : ∀ c ∈ closing.toList, c ≠ '\n' := by
      rintro c hc rfl
      have := List.all_eq_true.mp hendv _ hc
      cases this
    have hhole := Pattern.scan_hole i closing.toList hv.trimmed.1 hv.ne_newline hclosing
      (.inr ⟨blockMark ++ '\n' :: rest, rfl⟩)
    have hlits := Pattern.scan_lits (closing ++ "\n") (blockMark ++ '\n' :: rest)
    rw [String.toList_append, List.append_assoc] at hlits
    have hscan := Pattern.scan_append (Pattern.scan_append (Pattern.scan_append
      (Pattern.scan_append (Pattern.scan_lits opening _) hhole) hlits)
        (Pattern.scan_block ('\n' :: rest))) (Pattern.scan_lits "\n" rest)
    refine Definition.recover_statement rfl rfl rfl rfl (c := [(i, p.value i)]) ?_
      (getLast?_spellRows (by simp)) ?_
    · rw [hspell]
      simpa [InputSpec.name] using hscan
    · simp [Captures.first?, InputSpec.name, Extraction.value, hv.trimmed.trim]

theorem sentence_onStart (h : onStart.shape.Admits p.node.fields) :
    Sentence onStart p [⟨"def on_start():".toList, some "DO"⟩, ⟨"on_start()".toList, none⟩] := by
  refine .of_opening (List.mem_of_getElem? (i := 0) rfl) ⟨_, rfl⟩ (fun _ => ?_) ?_ rfl (by simp)
    fun rest _ => ⟨{ bodies := ["DO"] }, ?_, fun id => fillFields_nil rfl h id, rfl, rfl, hm.symm⟩
  · show "def on_start():\n".toList ++ _ ++ "on_start()\n".toList = _
    simp
  · simp only [List.forall_mem_cons, List.not_mem_nil, false_implies, implies_true, and_true]
    exact ⟨isLine_of_check rfl, isLine_of_check rfl⟩
  · exact Definition.recover_statement rfl rfl rfl rfl (c := []) rfl
      (getLast?_spellRows (by simp)) rfl

theorem sentence_forever (h : forever.shape.Admits p.node.fields) :
    Sentence forever p [⟨"def on_forever():".toList, some "DO"⟩,
      ⟨"basic.forever(on_forever)".toList, none⟩] := by
  refine .of_opening (List.mem_of_getElem? (i := 1) rfl) ⟨_, rfl⟩ (fun _ => ?_) ?_ rfl (by simp)
    fun rest _ => ⟨{ bodies := ["DO"] }, ?_, fun id => fillFields_nil rfl h id, rfl, rfl, hm.symm⟩
  · show "def on_forever():\n".toList ++ _ ++ "basic.forever(on_forever)\n".toList = _
    simp
  · simp only [List.forall_mem_cons, List.not_mem_nil, false_implies, implies_true, and_true]
    exact ⟨isLine_of_check rfl, isLine_of_check rfl⟩
  · exact Definition.recover_statement rfl rfl rfl rfl (c := []) rfl
      (getLast?_spellRows (by simp)) rfl

/-- The rows of a handler. -/
def handlerRows (event values : String) (choice : List Char) : List Row :=
  let name := event.toList ++ ['_'] ++ lower choice
  [⟨"def ".toList ++ name ++ "():".toList, some "DO"⟩,
    ⟨"input.".toList ++ event.toList ++ ['('] ++ values.toList ++ ['.'] ++ choice ++ ", ".toList
      ++ name ++ [')'], none⟩]

omit hm in
theorem handler_rows (event values : String) (choice : List Char) (body : String → List Char) :
    handler event values choice (body "DO") =
      (handlerRows event values choice).flatMap (Row.write body) := by
  have hheader : "():\n".toList = "():".toList ++ ['\n'] := rfl
  have hlast : ")\n".toList = [')', '\n'] := rfl
  unfold handler handlerRows
  rw [hheader, hlast]
  generalize lower choice = name
  simp

omit hm in
theorem readHandler_choice {field s : String} {options : List String} (hs : s ∈ options)
    (hhandler : field ≠ "handler") (hregistered : field ≠ "registered") :
    readHandler field options
      [("handler", lower s.toList), (field, s.toList), ("registered", lower s.toList)] =
        some { fields := [(field, .choice s)], bodies := ["DO"] } := by
  have hh : ("handler" == field) = false := beq_eq_false_iff_ne.mpr hhandler.symm
  have hr : (field == "registered") = false := beq_eq_false_iff_ne.mpr hregistered
  have hhr : ("handler" == "registered") = false := rfl
  simp [readHandler, Captures.first?, hs, hh, hr, hhr]

/-- A handler is read back from its name, what is registered and what it handles. -/
theorem sentence_handler {event values field : String} {options : List String} {idiom : Pattern}
    {d : Definition} (hshape : d.shape = eventShape [.choice field options])
    (hgenerator : d.generator =
      some fun p => handler event values (p.text field) (p.body "DO"))
    (hidiom : d.idiom = some idiom) (hextractor : d.extractor = some (readHandler field options))
    (hconstructor : d.constructor = some .ofExtraction) (h : d.shape.Admits p.node.fields)
    (hmem : d ∈ openingIdioms)
    (hopens : ∀ s ∈ options, d.opening <+: spellRows (handlerRows event values s.toList))
    (hlines : ∀ s ∈ options, ∀ r ∈ handlerRows event values s.toList, lineCheck r.text = true)
    (hscan : ∀ s ∈ options, ∀ rest, idiom.scan
      (spellRows (handlerRows event values s.toList) ++ rest) =
        some ([("handler", lower s.toList), (field, s.toList), ("registered", lower s.toList)],
          rest))
    (hhandler : field ≠ "handler") (hregistered : field ≠ "registered") :
    ∃ rows, Sentence d p rows := by
  have hfield : d.shape.field? field = some (.choice field options) := by
    rw [hshape]
    exact List.find?_cons_of_pos (beq_self_eq_true field)
  obtain ⟨v, hv, hacc⟩ := h.get field hfield
  obtain ⟨s, hs, rfl⟩ := FieldSpec.accepts_choice hacc
  have htext := Parts.text_eq hv rfl
  have hrole : d.shape.role.isValue = false := by
    rw [hshape]
    rfl
  refine ⟨handlerRows event values s.toList, .of_opening hmem
    (hopens s hs) (fun body => ?_) (fun r hr => isLine_of_check (hlines s hs r hr)) ?_
    (by simp [handlerRows]) fun rest _ =>
      ⟨{ fields := [(field, .choice s)], bodies := ["DO"] }, ?_, fun id => ?_, ?_, ?_, hm.symm⟩⟩
  · have hrender : d.render { p with body := body } =
        handler event values (p.text field) (body "DO") := by
      rw [Definition.render, hgenerator]
      rfl
    rw [hrender, htext]
    exact handler_rows event values s.toList body
  · rw [hshape]
    rfl
  · refine Definition.recover_statement hrole hidiom hextractor hconstructor (hscan s hs rest)
      (getLast?_spellRows (by simp [handlerRows])) ?_
    exact readHandler_choice hs hhandler hregistered
  · exact fillFields_singleton (by rw [hshape]; rfl) h hv id
  · rw [hshape]
    rfl
  · rw [hshape]
    rfl

theorem sentence_onButtonPressed (h : onButtonPressed.shape.Admits p.node.fields) :
    ∃ rows, Sentence onButtonPressed p rows := by
  refine sentence_handler hm rfl rfl rfl rfl rfl h (List.mem_of_getElem? (i := 2) rfl)
    ?_ (by decide) ?_ (by decide) (by decide)
  · simp only [buttons, List.forall_mem_cons, List.not_mem_nil, false_implies, implies_true,
      and_true]
    exact ⟨⟨_, rfl⟩, ⟨_, rfl⟩, ⟨_, rfl⟩⟩
  · simp only [buttons, List.forall_mem_cons, List.not_mem_nil, false_implies, implies_true,
      and_true]
    exact ⟨fun _ => rfl, fun _ => rfl, fun _ => rfl⟩

theorem sentence_onGesture (h : onGesture.shape.Admits p.node.fields) :
    ∃ rows, Sentence onGesture p rows := by
  refine sentence_handler hm rfl rfl rfl rfl rfl h (List.mem_of_getElem? (i := 3) rfl) ?_
    (by decide) ?_ (by decide) (by decide)
  · simp only [gestures, List.forall_mem_cons, List.not_mem_nil, false_implies, implies_true,
      and_true]
    exact ⟨⟨_, rfl⟩, ⟨_, rfl⟩, ⟨_, rfl⟩, ⟨_, rfl⟩, ⟨_, rfl⟩, ⟨_, rfl⟩, ⟨_, rfl⟩, ⟨_, rfl⟩⟩
  · simp only [gestures, List.forall_mem_cons, List.not_mem_nil, false_implies, implies_true,
      and_true]
    exact ⟨fun _ => rfl, fun _ => rfl, fun _ => rfl, fun _ => rfl, fun _ => rfl, fun _ => rfl,
      fun _ => rfl, fun _ => rfl⟩

end Bodies

/-! ## Assignments -/

/-- Whether a text can start with some characters although it starts with a name and a blank. -/
def startsName (o : List Char) : Bool :=
  match o.dropWhile Word.isPart with
  | [] => true
  | c :: _ => c == ' ' && !Word.reserved.contains (String.ofList (o.takeWhile Word.isPart))

theorem not_prefix_name {o name : List Char} (h : startsName o = false)
    (hname : Word.isIdentifier name = true) (more : List Char) : ¬ o <+: name ++ ' ' :: more := by
  rintro ⟨r, he⟩
  simp only [Word.isIdentifier, Bool.and_eq_true, Bool.not_eq_true'] at hname
  have hparts := isPart_of_isWord hname.1
  have hspace : Stops Word.isPart (' ' :: more) := stops_cons (by decide)
  have htake := takeWhile_run hparts hspace
  have hdrop := dropWhile_run hparts hspace
  unfold startsName at h
  split at h
  · cases h
  · next c cs hcs =>
    have hc : Word.isPart c = false := by
      have := List.head?_dropWhile_not Word.isPart o
      rw [hcs] at this
      simpa using this
    have ho : o.takeWhile Word.isPart ++ c :: cs = o := by
      rw [← hcs]
      exact List.takeWhile_append_dropWhile
    have hstops : Stops Word.isPart (c :: (cs ++ r)) := stops_cons hc
    have hword : ∀ d ∈ o.takeWhile Word.isPart, Word.isPart d = true :=
      List.all_eq_true.mp List.all_takeWhile
    -- both texts have the same first word and go on alike, so the opening would start with a name
    have htake' := takeWhile_run hword hstops
    have hdrop' := dropWhile_run hword hstops
    rw [← List.cons_append, ← List.append_assoc, ho, he] at htake' hdrop'
    rw [htake] at htake'
    rw [hdrop] at hdrop'
    rw [← htake', hname.2, ← (List.cons.inj hdrop').1] at h
    cases h

/-- A line that assigns a value to a name. -/
theorem isLine_assignment {name operator value : List Char} (hname : Word.isWord name = true)
    (hoperator : ∀ c ∈ operator, isControl c = false) (hv : Term value) :
    IsLine (name ++ ' ' :: operator ++ ' ' :: value) := by
  have hparts := isPart_of_isWord hname
  refine ⟨⟨by simp, ?_, ?_⟩, fun c hc => ?_, ' ', by simp, by decide⟩
  · intro c hc
    cases name with
    | nil => cases hname
    | cons d name =>
      cases hc
      exact isBlank_of_isPart (hparts c List.mem_cons_self)
  · intro c hc
    obtain ⟨d, value, rfl⟩ := List.exists_cons_of_ne_nil hv.trimmed.1
    rw [List.getLast?_append_cons, List.getLast?_cons_cons] at hc
    exact hv.trimmed.2.2 c hc
  · simp only [List.mem_append, List.mem_cons] at hc
    rcases hc with (hc | rfl | hc) | rfl | hc
    · exact isControl_of_isPart (hparts c hc)
    · decide
    · exact hoperator c hc
    · decide
    · exact hv.visible c hc

theorem sentence_assignment {p : Parts} {kind : Kind} {description operator input : String}
    {check : Check} {x : Double} {d : Definition} (hm : p.node.mutation = none)
    (hd : d = assignment kind description operator input check x)
    (h : d.shape.Admits p.node.fields) (hv : Term (p.value input)) (hinput : input ≠ "VAR")
    (hoperator : ∀ c ∈ operator.toList, isControl c = false) (before after : List Definition)
    (hlist : Registry.builtin.statementIdioms true = before ++ d :: after)
    (hbefore : ∀ name rest, Word.isIdentifier name = true → ∀ d' ∈ before,
      d'.recover (name ++ ' ' :: (operator.toList ++ ' ' :: rest)) = none) :
    ∃ rows, Sentence d p rows := by
  subst hd
  obtain ⟨v, hvar, hacc⟩ := h.get "VAR" rfl
  obtain ⟨s, rfl, hs⟩ := FieldSpec.accepts_var hacc
  have htext := Parts.text_eq hvar rfl
  have hword : Word.isWord s.toList = true := by
    simp only [Word.isIdentifier, Bool.and_eq_true] at hs
    exact hs.1
  have hspell (rest : List Char) :
      spellRows [⟨s.toList ++ ' ' :: operator.toList ++ ' ' :: p.value input, none⟩] ++ rest =
        s.toList ++ ' ' :: (operator.toList ++ ' ' :: (p.value input ++ '\n' :: rest)) := by
    simp [spellRows]
  refine ⟨[⟨s.toList ++ ' ' :: operator.toList ++ ' ' :: p.value input, none⟩],
    fun body => ?_, by simp, ?_, rfl, fun rest o ho => ?_, fun rest => ⟨before, after, hlist, ?_⟩,
    fun rest _ => ⟨{ fields := [("VAR", .var s)], values := [(input, p.value input)] }, ?_,
      fun id => fillFields_singleton rfl h hvar id, rfl, rfl, hm.symm⟩⟩
  · show p.text "VAR" ++ ' ' :: operator.toList ++ ' ' :: p.value input ++ ['\n'] = _
    rw [htext]
    simp
  · simp only [List.mem_singleton, forall_eq]
    exact isLine_assignment hword hoperator hv
  · rw [hspell]
    have hcontinue : ∀ o ∈ continuations, startsName o = false := by decide
    exact not_prefix_name (hcontinue o ho) hs _
  · rw [hspell]
    exact hbefore _ _ hs
  · have hlits := Pattern.scan_lits (" " ++ operator ++ " ") (p.value input ++ '\n' :: rest)
    have hhole := Pattern.scan_hole input [] hv.trimmed.1 hv.ne_newline (by simp)
      (.inr ⟨rest, rfl⟩)
    have hspace : Stops Word.isPart
        ((" " ++ operator ++ " ").toList ++ (p.value input ++ '\n' :: rest)) := by
      simpa using stops_cons (by decide)
    have hname := Pattern.scan_word "VAR" hword hspace
    have hscan := Pattern.scan_append (Pattern.scan_append (Pattern.scan_append hname hlits) hhole)
      (Pattern.scan_lits "\n" rest)
    refine Definition.recover_statement rfl rfl rfl rfl
      (c := [("VAR", s.toList), (input, p.value input)]) ?_ (getLast?_spellRows (by simp)) ?_
    · rw [hspell]
      simpa using hscan
    · have hfirst : ("VAR" == input) = false := beq_eq_false_iff_ne.mpr hinput.symm
      simp [Captures.first?, hfirst, hs, Extraction.value, hv.trimmed.trim]

theorem recover_name {name : List Char} (hname : Word.isIdentifier name = true)
    (rest : List Char) : ∀ d ∈ openingIdioms, d.recover (name ++ ' ' :: rest) = none := by
  have hopening : ∀ d ∈ openingIdioms, startsName d.opening = false := by decide
  intro d hd
  exact Definition.recover_eq_none_of_not_opening (not_prefix_name (hopening d hd) hname rest)

theorem sentence_changeVariable {p : Parts} (hm : p.node.mutation = none)
    (h : changeVariable.shape.Admits p.node.fields) (hv : Term (p.value "DELTA")) :
    ∃ rows, Sentence changeVariable p rows :=
  sentence_assignment hm rfl h hv (by decide) (by decide) openingIdioms _ rfl
    fun _ rest hname => recover_name hname _

theorem sentence_setVariable {p : Parts} (hm : p.node.mutation = none)
    (h : setVariable.shape.Admits p.node.fields) (hv : Term (p.value "VALUE")) :
    ∃ rows, Sentence setVariable p rows := by
  refine sentence_assignment hm rfl h hv (by decide) (by decide) (openingIdioms ++ [changeVariable])
    [] rfl fun name rest hname => ?_
  rw [List.forall_mem_append]
  refine ⟨recover_name hname _, ?_⟩
  simp only [List.mem_singleton, forall_eq]
  refine Definition.recover_eq_none_of_scan rfl ?_
  have hword : Word.isWord name = true := by
    simp only [Word.isIdentifier, Bool.and_eq_true] at hname
    exact hname.1
  refine Pattern.scan_append_eq_none (Pattern.scan_append_eq_none (Pattern.scan_append_none
    (Pattern.scan_word "VAR" hword (stops_cons (by decide))) rfl))

/-! ## The conditional -/

namespace Conditional

theorem valueInputs_inputs (m : Mutation) :
    (inputs m).filterMap InputSpec.value? = (List.range m.branches).map condition := by
  rw [inputs, List.filterMap_append, List.filterMap_flatMap, List.map_eq_flatMap]
  split <;> simp [List.filterMap_cons, InputSpec.value?]

theorem statementInputs_inputs (m : Mutation) :
    (inputs m).filterMap InputSpec.statement? =
      (List.range m.branches).map body ++ if m.hasElse then [otherwise] else [] := by
  rw [inputs, List.filterMap_append, List.filterMap_flatMap, List.map_eq_flatMap]
  split <;> simp [List.filterMap_cons, InputSpec.statement?]

end Conditional

namespace Catalogue

open Pattern

variable {p : Parts} {m : Mutation} {piece t rest : List Char} {pieces : List (List Char)}

theorem map_zipIdx_snd {α β : Type} (f : Nat → β) (l : List α) (k : Nat) :
    (l.zipIdx k).map (fun s => f s.2) = (List.range l.length).map fun i => f (k + i) :=
  List.ext_getElem (by simp) fun i _ _ => by simp

/-- The rows of further branches, counted from `i`. -/
def branchRows (i : Nat) (pieces : List (List Char)) : List Row :=
  (pieces.zipIdx i).map fun s =>
    ⟨"elif ".toList ++ (s.1 ++ [':']), some (Conditional.body s.2)⟩

/-- The row of the `else`. -/
def elseRows (m : Mutation) : List Row :=
  if m.hasElse then [⟨"else:".toList, some Conditional.otherwise⟩] else []

/-- The rows of a conditional: one for each condition, and one for the `else`. -/
def conditionalRows (piece : List Char) (pieces : List (List Char)) (m : Mutation) : List Row :=
  ⟨"if ".toList ++ (piece ++ [':']), some (Conditional.body 0)⟩ ::
    (branchRows 1 pieces ++ elseRows m)

/-- What is extracted from the conditions of a conditional. -/
def conditionalExtraction (piece : List Char) (pieces : List (List Char)) (m : Mutation) :
    Extraction where
  values := (piece :: pieces).zipIdx.map fun s => (Conditional.condition s.2, trim s.1)
  bodies := (List.range (pieces.length + 1)).map Conditional.body
    ++ if m.hasElse then [Conditional.otherwise] else []
  mutation := some ⟨pieces.length, m.hasElse⟩

theorem bodies_conditionalRows : (conditionalRows piece pieces m).filterMap Row.body =
    (conditionalExtraction piece pieces m).bodies := by
  have hbranches : (branchRows 1 pieces).filterMap Row.body =
      (List.range pieces.length).map fun i => Conditional.body (1 + i) := by
    rw [branchRows, List.filterMap_map, ← map_zipIdx_snd]
    exact congrFun List.filterMap_eq_map' _
  have helse : (elseRows m).filterMap Row.body =
      if m.hasElse then [Conditional.otherwise] else [] := by
    unfold elseRows
    split <;> rfl
  show Conditional.body 0 :: (branchRows 1 pieces ++ elseRows m).filterMap Row.body = _
  rw [List.filterMap_append, hbranches, helse, conditionalExtraction, List.range_succ_eq_map,
    List.map_cons, List.map_map]
  simp [Function.comp_def, Nat.add_comm]

/-! ### What the pattern takes -/

/-- What a hole can take: some text on one line. -/
def FitsHole (t : List Char) : Prop := t ≠ [] ∧ '\n' ∉ t

/-- No further branch can be taken from the front of a text. -/
structure EndsChain (rest : List Char) : Prop where
  elseIf : (branchIdiom "elif " "elif").scan rest = none
  otherwise : elseIdiom.scan rest = none

theorem endsChain_of_fresh (h : Fresh rest) : EndsChain rest where
  elseIf := scan_eq_none (h _ (by decide))
  otherwise := by
    refine scan_eq_none fun hopening => h "else:".toList (by decide) ?_
    exact (List.prefix_append "else:".toList ['\n']).trans hopening

theorem scan_branch (start name input : String) (ht : FitsHole t) (rest : List Char) :
    (branchIdiom start name).scan
      (Row.write markedBody ⟨start.toList ++ (t ++ [':']), some input⟩ ++ rest) =
        some ([(name, t)], rest) := by
  have htext : Row.write markedBody ⟨start.toList ++ (t ++ [':']), some input⟩ ++ rest =
      start.toList ++ (t ++ ([':'] ++ '\n' :: (blockMark ++ '\n' :: rest))) := by
    simp [markedBody]
  have hhole := scan_hole name [':'] ht.1 (fun c hc he => ht.2 (he ▸ hc)) (by decide)
    (.inr ⟨blockMark ++ '\n' :: rest, rfl⟩)
  rw [htext]
  exact Pattern.scan_append (Pattern.scan_append (Pattern.scan_append (Pattern.scan_append
    (scan_lits _ _) hhole) (scan_lits ":\n" _)) (scan_block _)) (scan_lits "\n" rest)

/-- The `else` is taken if it is there. -/
theorem scan_else (hrest : m.hasElse = false → EndsChain rest) :
    (opt elseIdiom).scan (spellRows (elseRows m) ++ rest) = some ([], rest) := by
  unfold elseRows
  split
  · rfl
  · next h =>
    show (opt elseIdiom).scan rest = _
    rw [Pattern.scan, (hrest (Bool.eq_false_of_not_eq_true h)).otherwise]
    rfl

/-- All further branches with a condition are taken. -/
theorem scan_elseIfs (i : Nat) (hpieces : ∀ t ∈ pieces, FitsHole t)
    (hrest : m.hasElse = false → EndsChain rest) :
    (many (branchIdiom "elif " "elif")).scan
      (spellRows (branchRows i pieces) ++ (spellRows (elseRows m) ++ rest)) =
        some (pieces.map fun t => ("elif", t), spellRows (elseRows m) ++ rest) := by
  -- each branch with what the pattern takes from it
  let taken : List (List Char × Captures) := (pieces.zipIdx i).map fun s =>
    (Row.write markedBody ⟨"elif ".toList ++ (s.1 ++ [':']), some (Conditional.body s.2)⟩,
      [("elif", s.1)])
  have htext : spellRows (branchRows i pieces) = taken.flatMap (·.1) := by
    simp [taken, branchRows, spellRows, List.flatMap_map]
  have htaken : ∀ s ∈ taken, s.1 ≠ [] ∧
      ∀ rest, (branchIdiom "elif " "elif").scan (s.1 ++ rest) = some (s.2, rest) := by
    intro u hu
    obtain ⟨s, hs, rfl⟩ := List.mem_map.mp hu
    have hline := hpieces s.1 (List.fst_mem_of_mem_zipIdx hs)
    exact ⟨by simp, fun rest => scan_branch "elif " "elif" _ hline rest⟩
  have hstop : (branchIdiom "elif " "elif").scan (spellRows (elseRows m) ++ rest) = none := by
    unfold elseRows
    split
    · refine scan_eq_none ?_
      show ¬ "elif ".toList <+: _
      exact (by decide : Apart "else:".toList "elif ".toList).not_startsWith ⟨_, rfl⟩
    · next h => exact (hrest (Bool.eq_false_of_not_eq_true h)).elseIf
  have hcaptures : taken.flatMap (·.2) = pieces.map fun t => ("elif", t) := by
    rw [List.flatMap_map, ← List.map_eq_flatMap]
    exact List.ext_getElem (by simp) fun i _ _ => by simp
  rw [Pattern.scan, htext, iterate_pieces htaken hstop _ (by simp), hcaptures]

/-- What the conditional's pattern takes: the text of its rows, and the first condition. -/
def conditionalCaptures (piece : List Char) (pieces : List (List Char)) (m : Mutation) : Captures :=
  [("lines", spellRows (conditionalRows piece pieces m)), ("if", piece)]

/-- The pattern takes the rows of a conditional, and no more, before a text that ends the chain. -/
theorem scan_conditional (hpieces : ∀ t ∈ piece :: pieces, FitsHole t)
    (hrest : m.hasElse = false → EndsChain rest) :
    conditionalIdiom.scan (spellRows (conditionalRows piece pieces m) ++ rest) =
      some (conditionalCaptures piece pieces m, rest) := by
  obtain ⟨hpiece, hpieces⟩ := List.forall_mem_cons.mp hpieces
  have hfirst := scan_branch "if " "if" (Conditional.body 0) hpiece
    (spellRows (branchRows 1 pieces) ++ (spellRows (elseRows m) ++ rest))
  have hrows : spellRows (conditionalRows piece pieces m) ++ rest =
      Row.write markedBody ⟨"if ".toList ++ (piece ++ [':']), some (Conditional.body 0)⟩ ++
        (spellRows (branchRows 1 pieces) ++ (spellRows (elseRows m) ++ rest)) := by
    simp [conditionalRows, spellRows]
  refine scan_whole "lines" ?_
  rw [hrows]
  exact Pattern.scan_append (Pattern.scan_append hfirst
    (scan_silent (scan_elseIfs 1 hpieces hrest))) (scan_else hrest)

/-! ### What its lines say -/

theorem elseIfCondition?_header (ht : FitsHole t) :
    elseIfCondition? ("elif ".toList ++ (t ++ [':'])) = some t := by
  have hhole := scan_hole "condition" [':'] ht.1 (fun c hc he => ht.2 (he ▸ hc)) (by decide)
    (.inl rfl)
  have hscan : elseIfLine.scan ("elif ".toList ++ (t ++ [':'])) = some ([("condition", t)], []) :=
    Pattern.scan_append (Pattern.scan_append (scan_lits _ _) hhole) (scan_lits ":" [])
  rw [elseIfCondition?, hscan]
  rfl

theorem readHeaders_step {e e' : Extraction} {m m' : Mutation} {header : List Char}
    (h : readHeader e m header = some (e', m')) (lines : List (List Char)) :
    readHeaders e m (header :: blockMark :: lines) = readHeaders e' m' lines := by
  simp [readHeaders, h]

/-- The rows of further branches add their conditions and bodies, one after the other. -/
theorem readHeaders_branchRows (hpieces : ∀ t ∈ pieces, FitsHole t) (e : Extraction) (m : Mutation)
    (lines : List (List Char)) :
    readHeaders e m ((branchRows (m.elseIfs + 1) pieces).flatMap Row.shown ++ lines) =
      readHeaders
        { e with
          values := e.values ++ (pieces.zipIdx (m.elseIfs + 1)).map fun s =>
            (Conditional.condition s.2, trim s.1)
          bodies := e.bodies ++ (pieces.zipIdx (m.elseIfs + 1)).map fun s => Conditional.body s.2 }
        { m with elseIfs := m.elseIfs + pieces.length } lines := by
  induction pieces generalizing e m with
  | nil => simp [branchRows]
  | cons t pieces ih =>
    obtain ⟨ht, hpieces⟩ := List.forall_mem_cons.mp hpieces
    have hne : "elif ".toList ++ (t ++ [':']) ≠ "else:".toList := by
      intro he
      cases he
    have hheader : readHeader e m ("elif ".toList ++ (t ++ [':'])) =
        some ((e.value (Conditional.condition (m.elseIfs + 1)) t).body
          (Conditional.body (m.elseIfs + 1)), { m with elseIfs := m.elseIfs + 1 }) := by
      rw [readHeader, if_neg hne, elseIfCondition?_header ht]
      rfl
    refine (readHeaders_step hheader _).trans ?_
    refine (ih hpieces _ { m with elseIfs := m.elseIfs + 1 }).trans ?_
    simp [Extraction.value, Extraction.body, Nat.add_comm, Nat.add_left_comm]

theorem readHeaders_elseRows (e : Extraction) (i : Nat) :
    readHeaders e ⟨i, false⟩ ((elseRows m).flatMap Row.shown) =
      some { e with
        bodies := e.bodies ++ if m.hasElse then [Conditional.otherwise] else []
        mutation := some ⟨i, m.hasElse⟩ } := by
  unfold elseRows
  cases m.hasElse <;> simp [readHeaders, readHeader, Extraction.body, Row.shown]

/-- The lines of a conditional are those of its rows. -/
theorem lines_conditionalRows (hpieces : ∀ t ∈ piece :: pieces, FitsHole t) :
    Text.lines (spellRows (conditionalRows piece pieces m)) =
      (conditionalRows piece pieces m).flatMap Row.shown := by
  obtain ⟨hpiece, hpieces⟩ := List.forall_mem_cons.mp hpieces
  -- a header ends with its colon
  have hheader {start t : List Char} (hstart : '\n' ∉ start) (ht : FitsHole t) :
      '\n' ∉ start ++ (t ++ [':']) ∧ (start ++ (t ++ [':'])).getLast? ≠ some '\r' := by
    rw [← List.append_assoc, List.getLast?_concat]
    exact ⟨by simp [hstart, ht.2], by decide⟩
  have hrows : ∀ r ∈ conditionalRows piece pieces m,
      '\n' ∉ r.text ∧ r.text.getLast? ≠ some '\r' := by
    rw [conditionalRows, List.forall_mem_cons, List.forall_mem_append]
    refine ⟨hheader (by decide) hpiece, fun r hr => ?_, fun r hr => ?_⟩
    · obtain ⟨s, hs, rfl⟩ := List.mem_map.mp hr
      exact hheader (by decide) (hpieces s.1 (List.fst_mem_of_mem_zipIdx hs))
    · unfold elseRows at hr
      split at hr
      · rw [List.mem_singleton.mp hr]
        decide
      · cases hr
  have hshown : ∀ l ∈ (conditionalRows piece pieces m).flatMap Row.shown,
      '\n' ∉ l ∧ l.getLast? ≠ some '\r' := by
    intro l hl
    obtain ⟨r, hr, hl⟩ := List.mem_flatMap.mp hl
    rcases List.mem_cons.mp hl with rfl | hl
    · exact hrows r hr
    · obtain ⟨_, -, rfl⟩ := Option.map_eq_some_iff.mp (Option.mem_toList.mp hl)
      decide
  rw [spellRows_eq_unlines, lines_unlines (fun l hl => (hshown l hl).1) fun l hl => (hshown l hl).2]

/-- The second reading of a match finds every branch that the repetition took, and the `else`. -/
theorem readConditional_captures (hpieces : ∀ t ∈ piece :: pieces, FitsHole t) :
    readConditional (conditionalCaptures piece pieces m) =
      some (conditionalExtraction piece pieces m) := by
  have hlines := lines_conditionalRows (m := m) hpieces
  have hfurther : ((conditionalRows piece pieces m).flatMap Row.shown).drop 2 =
      (branchRows 1 pieces).flatMap Row.shown ++ (elseRows m).flatMap Row.shown := by
    rw [← List.flatMap_append]
    rfl
  show readHeaders _ {} ((Text.lines (spellRows (conditionalRows piece pieces m))).drop 2) = _
  rw [hlines, hfurther]
  refine (readHeaders_branchRows (List.forall_mem_cons.mp hpieces).2 _ {} _).trans ?_
  refine (readHeaders_elseRows _ _).trans ?_
  simp [conditionalExtraction, Extraction.value, Extraction.body, List.range_succ_eq_map,
    map_zipIdx_snd, Function.comp_def, Nat.add_comm]

/-- A conditional is read back from its rows. -/
theorem recover_conditionalRows (hpieces : ∀ t ∈ piece :: pieces, FitsHole t)
    (hrest : m.hasElse = false → EndsChain rest) :
    ifElse.recover (spellRows (conditionalRows piece pieces m) ++ rest) =
      some (conditionalExtraction piece pieces m,
        ⟨.ifElse, [], some ⟨pieces.length, m.hasElse⟩⟩,
        spellRows (conditionalRows piece pieces m)) :=
  Definition.recover_statement rfl rfl rfl rfl (scan_conditional hpieces hrest)
    (getLast?_spellRows (List.cons_ne_nil _ _)) (readConditional_captures hpieces)

/-! ### The text of a block -/

/-- The conditions of the branches after the first. -/
def furtherConditions (p : Parts) (m : Mutation) : List (List Char) :=
  (List.range m.elseIfs).map fun i => p.value (Conditional.condition (i + 1))

theorem branchRows_further (p : Parts) (m : Mutation) : branchRows 1 (furtherConditions p m) =
    (List.range m.elseIfs).map fun i => ⟨"elif ".toList ++
      (p.value (Conditional.condition (i + 1)) ++ [':']), some (Conditional.body (i + 1))⟩ :=
  List.ext_getElem (by simp [branchRows, furtherConditions]) fun i _ _ => by
    simp [branchRows, furtherConditions, Nat.add_comm]

theorem conditionalExtraction_parts
    (hv : ∀ i < m.branches, Term (p.value (Conditional.condition i))) :
    (conditionalExtraction (p.value (Conditional.condition 0)) (furtherConditions p m) m).values =
      (List.range m.branches).map fun i =>
        (Conditional.condition i, p.value (Conditional.condition i)) := by
  have hconditions : p.value (Conditional.condition 0) :: furtherConditions p m =
      (List.range m.branches).map fun i => p.value (Conditional.condition i) := by
    rw [furtherConditions, Mutation.branches, List.range_succ_eq_map]
    simp [Function.comp_def]
  rw [conditionalExtraction, hconditions]
  refine List.ext_getElem (by simp) fun i hi _ => ?_
  have hlt : i < m.branches := by simpa using hi
  simp [(hv i hlt).trimmed.trim]

theorem sentence_ifElse (hm : p.node.mutation = some m) (h : ifElse.shape.Admits p.node.fields)
    (hv : ∀ i < m.branches, Term (p.value (Conditional.condition i))) :
    ∃ rows, Sentence ifElse p rows := by
  have hfurther : ∀ t ∈ furtherConditions p m, Term t := by
    intro t ht
    obtain ⟨i, hi, rfl⟩ := List.mem_map.mp ht
    exact hv (i + 1) (Nat.succ_lt_succ (List.mem_range.mp hi))
  have hterms : ∀ t ∈ p.value (Conditional.condition 0) :: furtherConditions p m, Term t :=
    List.forall_mem_cons.mpr ⟨hv 0 (Nat.succ_pos m.elseIfs), hfurther⟩
  have hlines : ∀ t ∈ p.value (Conditional.condition 0) :: furtherConditions p m, FitsHole t :=
    fun t ht => ⟨(hterms t ht).trimmed.1, fun hn => (hterms t ht).ne_newline _ hn rfl⟩
  have hlength : (furtherConditions p m).length = m.elseIfs := by simp [furtherConditions]
  refine ⟨conditionalRows (p.value (Conditional.condition 0)) (furtherConditions p m) m,
    .of_opening (List.mem_of_getElem? (i := 16) rfl) ⟨_, rfl⟩ (fun body => ?_) (fun r hr => ?_) ?_
      (List.cons_ne_nil _ _) fun rest hrest =>
        ⟨_, recover_conditionalRows hlines fun _ => endsChain_of_fresh hrest, ?_⟩⟩
  · show conditionalText { p with body := body } = _
    have hfirst : branchText { p with body := body } 0 = Row.write body ⟨"if ".toList ++
        (p.value (Conditional.condition 0) ++ [':']), some (Conditional.body 0)⟩ := by
      simp [branchText]
    have hbranches : (branchRows 1 (furtherConditions p m)).flatMap (Row.write body) =
        (List.range m.elseIfs).flatMap fun i => branchText { p with body := body } (i + 1) := by
      rw [branchRows_further, List.flatMap_map]
      refine List.flatMap_congr fun i _ => ?_
      simp [branchText]
    have helse : (elseRows m).flatMap (Row.write body) =
        if m.hasElse then "else:\n".toList ++ body Conditional.otherwise else [] := by
      unfold elseRows
      split <;> simp
    unfold conditionalText
    simp only [hm, Option.getD_some]
    rw [Mutation.branches, List.range_succ_eq_map, List.flatMap_cons, List.flatMap_map,
      conditionalRows, List.flatMap_cons, List.flatMap_append, hbranches, helse, hfirst,
      List.append_assoc]
  · rw [conditionalRows, List.mem_cons, List.mem_append] at hr
    rcases hr with rfl | hr | hr
    · rw [← List.append_assoc]
      exact isLine_framed _ _ [':'] rfl rfl (hterms _ List.mem_cons_self).visible rfl rfl
    · obtain ⟨s, hs, rfl⟩ := List.mem_map.mp hr
      rw [← List.append_assoc]
      exact isLine_framed _ _ [':'] rfl rfl
        (hfurther s.1 (List.fst_mem_of_mem_zipIdx hs)).visible rfl rfl
    · unfold elseRows at hr
      split at hr
      · rw [List.mem_singleton.mp hr]
        exact isLine_of_check rfl
      · cases hr
  · rw [hm, bodies_conditionalRows, conditionalExtraction, hlength]
    exact (Conditional.statementInputs_inputs m).symm
  · refine ⟨fun id => fillFields_nil rfl h id, ?_, ?_, ?_⟩
    · rw [hm, conditionalExtraction_parts hv]
      show _ = ((Conditional.inputs m).filterMap InputSpec.value?).map _
      rw [Conditional.valueInputs_inputs, List.map_map]
      rfl
    · rw [hm, conditionalExtraction, hlength]
      exact (Conditional.statementInputs_inputs m).symm
    · rw [hm, conditionalExtraction, hlength]

end Catalogue

/-! ## All kinds -/

/-- The text of a statement block is a sentence. -/
theorem sentence (k : Kind) {p : Parts}
    (hrole : k.definition.shape.role = .statement ∨ k.definition.shape.role = .root)
    (hm : p.node.mutation.isSome = k.definition.shape.isBranching)
    (h : k.definition.shape.Admits p.node.fields)
    (hvalues : ∀ i ∈ k.definition.shape.valueInputs p.node.mutation, Term (p.value i)) :
    ∃ rows, Sentence k.definition p rows := by
  have hnone (hb : k.definition.shape.isBranching = false) : p.node.mutation = none := by
    rw [hb] at hm
    simpa using hm
  cases k with
  | onStart => exact ⟨_, sentence_onStart (hnone rfl) h⟩
  | forever => exact ⟨_, sentence_forever (hnone rfl) h⟩
  | onButtonPressed => exact sentence_onButtonPressed (hnone rfl) h
  | onGesture => exact sentence_onGesture (hnone rfl) h
  | showString => exact sentence_showString (hnone rfl) h
  | showNumber =>
    exact sentence_callStatement (hnone rfl) rfl h rfl rfl rfl (List.cons_ne_nil _ _) hvalues
      (List.mem_of_getElem? (i := 5) rfl) rfl
      rfl
  | showIcon => exact sentence_showIcon (hnone rfl) h
  | showLeds => exact sentence_showLeds (hnone rfl) h
  | clearScreen => exact ⟨_, sentence_clearScreen (hnone rfl) h⟩
  | pause =>
    exact sentence_callStatement (hnone rfl) rfl h rfl rfl rfl (List.cons_ne_nil _ _) hvalues
      (List.mem_of_getElem? (i := 9) rfl) rfl rfl
  | displayShow =>
    exact sentence_callStatement (hnone rfl) rfl h rfl rfl rfl (List.cons_ne_nil _ _) hvalues
      (List.mem_of_getElem? (i := 10) rfl) rfl rfl
  | plot =>
    exact sentence_callStatement (hnone rfl) rfl h rfl rfl rfl (List.cons_ne_nil _ _) hvalues
      (List.mem_of_getElem? (i := 11) rfl) rfl rfl
  | unplot =>
    exact sentence_callStatement (hnone rfl) rfl h rfl rfl rfl (List.cons_ne_nil _ _) hvalues
      (List.mem_of_getElem? (i := 12) rfl) rfl rfl
  | playTone =>
    exact sentence_callStatement (hnone rfl) rfl h rfl rfl rfl (List.cons_ne_nil _ _) hvalues
      (List.mem_of_getElem? (i := 13) rfl) rfl rfl
  | setVariable =>
    exact sentence_setVariable (hnone rfl) h (hvalues "VALUE" (List.mem_singleton_self _))
  | changeVariable =>
    exact sentence_changeVariable (hnone rfl) h (hvalues "DELTA" (List.mem_singleton_self _))
  | repeatTimes =>
    exact sentence_loop (hnone rfl) rfl h (hvalues "TIMES" (List.mem_singleton_self _))
      (List.mem_of_getElem? (i := 14) rfl) rfl rfl rfl rfl
  | whileLoop =>
    exact sentence_loop (hnone rfl) rfl h (hvalues "COND" (List.mem_singleton_self _))
      (List.mem_of_getElem? (i := 15) rfl) rfl rfl rfl rfl
  | ifElse =>
    obtain ⟨m, hm⟩ := Option.isSome_iff_exists.mp hm
    refine sentence_ifElse hm h fun i hi => hvalues _ ?_
    rw [hm]
    show _ ∈ (Conditional.inputs m).filterMap InputSpec.value?
    rw [Conditional.valueInputs_inputs]
    exact List.mem_map_of_mem (List.mem_range.mpr hi)
  | _ => rcases hrole with hrole | hrole <;> cases hrole

end BlockText

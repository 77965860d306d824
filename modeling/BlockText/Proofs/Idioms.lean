import BlockText.Block.Registry
import BlockText.Proofs.Making
import BlockText.Proofs.Tokens

/-!
# Idioms

How a pattern matches a text that was put together for it, and when it refuses one: a pattern that
starts with certain characters refuses what does not start with them. What a match has to give back
is said of the block that was written: its fields, the sources of its value inputs, the names of its
statement inputs and its mutation.
-/

namespace BlockText

open Text

namespace Pattern

variable {p q : Pattern} {cs mid rest t : List Char} {c c' : Captures}

/-! ## Matches -/

theorem scan_append (hp : p.scan cs = some (c, mid)) (hq : q.scan mid = some (c', rest)) :
    (p ++ q).scan cs = some (c ++ c', rest) := by
  rw [scan_seq, hp, Option.bind_some, hq]
  rfl

theorem scan_append_eq_none (hp : p.scan cs = none) : (p ++ q).scan cs = none := by
  rw [scan_seq, hp]
  rfl

theorem scan_append_none (hp : p.scan cs = some (c, mid)) (hq : q.scan mid = none) :
    (p ++ q).scan cs = none := by
  rw [scan_seq, hp, Option.bind_some, hq]
  rfl

theorem scan_lits (s : String) (cs : List Char) :
    (lits s).scan (s.toList ++ cs) = some ([], cs) := by
  show (dropStart? s.toList (s.toList ++ cs)).map _ = _
  rw [dropStart?_append]
  rfl

theorem scan_block (cs : List Char) : block.scan (blockMark ++ cs) = some ([], cs) := by
  show (dropStart? blockMark (blockMark ++ cs)).map _ = _
  rw [dropStart?_append]
  rfl

/-- A hole takes what stands before the ending of its line. -/
theorem scan_hole (name : String) (ending : List Char) (hne : t ≠ []) (ht : ∀ c ∈ t, c ≠ '\n')
    (he : ∀ c ∈ ending, c ≠ '\n') (hrest : rest = [] ∨ ∃ more, rest = '\n' :: more) :
    (hole name ending).scan (t ++ (ending ++ rest)) = some ([(name, t)], ending ++ rest) := by
  have hline : ∀ c ∈ t ++ ending, (c != '\n') = true := by
    intro c hc
    rcases List.mem_append.mp hc with hc | hc
    · simpa using ht c hc
    · simpa using he c hc
  have hstops : Stops (· != '\n') rest := by
    rcases hrest with rfl | ⟨more, rfl⟩
    · exact stops_nil
    · exact stops_cons (by decide)
  have hempty : t.isEmpty = false := by simpa using hne
  rw [scan, ← List.append_assoc, takeWhile_run hline hstops, dropWhile_run hline hstops,
    dropEnd?_append]
  simp [named, hempty]

/-- A run takes as many characters as it can. -/
theorem scan_run (name : String) {ranges : List (Char × Char)} (hne : t ≠ [])
    (ht : ∀ c ∈ t, inRanges ranges c = true) (hrest : Stops (inRanges ranges) rest) :
    (run name ranges).scan (t ++ rest) = some ([(name, t)], rest) := by
  have hempty : t.isEmpty = false := by simpa using hne
  rw [scan, takeWhile_run ht hrest, dropWhile_run ht hrest]
  simp [named, hempty]

/-- A word is taken up to its end. -/
theorem scan_word (name : String) (ht : Word.isWord t = true) (hrest : Stops Word.isPart rest) :
    (word name).scan (t ++ rest) = some ([(name, t)], rest) := by
  cases t with
  | nil => cases ht
  | cons c t =>
    have hpart := Lexeme.isPart_of_isWord ht
    simp only [Word.isWord, Bool.and_eq_true] at ht
    rw [scan, takeWhile_run hpart hrest, dropWhile_run hpart hrest]
    simp [named, ht.1]

theorem scan_literal (name : String) (cs rest : List Char) :
    (literal name).scan (Quoted.encode cs ++ rest) = some ([(name, Quoted.encode cs)], rest) := by
  rw [scan, Quoted.span_encode_append]
  rfl

/-- A numeral is taken with its sign. -/
theorem scan_number (name : String) (negative : Bool) {whole fraction : List Char}
    (h : Decimal.IsNumeral whole fraction) :
    (number name).scan (Double.signed negative (Decimal.numeral whole fraction)) =
      some ([(name, Double.signed negative (Decimal.numeral whole fraction))], []) := by
  obtain ⟨c, cs, hcs, hc⟩ := Double.isDigit_head h
  have hminus : (c == '-') = false := by
    rw [beq_eq_false_iff_ne]
    rintro rfl
    cases hc
  have hsign : ((Double.signed negative (Decimal.numeral whole fraction)).takeWhile
      (· == '-')).take 1 = if negative then ['-'] else [] := by
    rw [hcs]
    cases negative <;> simp [Double.signed, hminus]
  have hdrop : (Double.signed negative (Decimal.numeral whole fraction)).drop
      (if negative then ['-'] else []).length = Decimal.numeral whole fraction := by
    cases negative <;> rfl
  have hstops := Double.stops_numeral_tail fraction [] stops_nil
  rw [List.append_nil] at hstops
  have hempty : whole.isEmpty = false := by simpa using h.whole_ne
  have hspan : spanNumber (Double.signed negative (Decimal.numeral whole fraction)) =
      (Double.signed negative (Decimal.numeral whole fraction), []) := by
    unfold spanNumber
    simp only [hsign, hdrop]
    rw [Decimal.numeral, takeWhile_run h.whole_digits hstops, dropWhile_run h.whole_digits hstops,
      if_neg (by simp [hempty])]
    cases fraction with
    | nil => cases negative <;> simp [Double.signed]
    | cons d ds =>
      have htake := takeWhile_run h.fraction_digits stops_nil
      have hdrop := dropWhile_run h.fraction_digits stops_nil
      rw [List.append_nil] at htake hdrop
      simp only [List.isEmpty_cons, Bool.false_eq_true, if_false, htake, hdrop]
      cases negative <;> simp [Double.signed]
  have hne : (Double.signed negative (Decimal.numeral whole fraction)).isEmpty = false := by
    rw [hcs]
    cases negative <;> rfl
  rw [scan, hspan]
  simp [named, hne]

theorem scan_silent (h : p.scan cs = some (c, rest)) : (silent p).scan cs = some ([], rest) := by
  rw [scan, h]
  rfl

theorem scan_whole (name : String) (h : p.scan (t ++ rest) = some (c, rest)) :
    (whole name p).scan (t ++ rest) = some ((name, t) :: c, rest) := by
  rw [scan, h]
  simp

/-- A step that fits some pieces one after the other, and not what follows them, takes them all. -/
theorem iterate_pieces {step : List Char → Option (Captures × List Char)}
    {pieces : List (List Char × Captures)}
    (hpieces : ∀ s ∈ pieces, s.1 ≠ [] ∧ ∀ rest, step (s.1 ++ rest) = some (s.2, rest))
    (hstop : step rest = none) (fuel : Nat) (hfuel : (pieces.flatMap (·.1)).length ≤ fuel) :
    iterate step fuel (pieces.flatMap (·.1) ++ rest) = (pieces.flatMap (·.2), rest) := by
  induction pieces generalizing fuel with
  | nil =>
    cases fuel with
    | zero => rfl
    | succ fuel => simp [iterate, hstop]
  | cons s pieces ih =>
    obtain ⟨hne, hstep⟩ := hpieces s List.mem_cons_self
    have hlen := List.length_pos_iff.mpr hne
    rw [List.flatMap_cons, List.length_append] at hfuel
    obtain ⟨fuel, rfl⟩ := Nat.exists_eq_add_one_of_ne_zero (show fuel ≠ 0 by omega)
    rw [List.flatMap_cons, List.append_assoc, iterate, hstep]
    simp only [List.length_append]
    rw [if_pos (by omega), ih (fun t ht => hpieces t (List.mem_cons_of_mem s ht)) fuel (by omega),
      List.flatMap_cons]

/-! ## Refusals -/

/-- The characters that a text has to start with to be matched. -/
def opening : Pattern → List Char
  | lit text => text
  | seq p _ => p.opening
  | whole _ p => p.opening
  | _ => []

theorem startsWith_opening {r : Captures × List Char} (h : p.scan cs = some r) :
    p.opening <+: cs := by
  induction p generalizing cs r with
  | lit text =>
    rw [scan] at h
    obtain ⟨rest, hrest, -⟩ := Option.map_eq_some_iff.mp h
    exact ⟨rest, (dropStart?_eq_some.mp hrest).symm⟩
  | seq p q ihp _ =>
    rw [scan] at h
    split at h
    · cases h
    · next hp => exact ihp hp
  | whole name p ih =>
    rw [scan] at h
    obtain ⟨r', hr', -⟩ := Option.map_eq_some_iff.mp h
    exact ih hr'
  | _ => exact List.nil_prefix

theorem firstOption?_eq_some {options : List (List Char)}
    (h : firstOption? options cs = some (t, rest)) : t ∈ options ∧ cs = t ++ rest := by
  induction options with
  | nil => cases h
  | cons o options ih =>
    rw [firstOption?] at h
    split at h
    · next hd =>
      cases h
      exact ⟨List.mem_cons_self, dropStart?_eq_some.mp hd⟩
    · exact ⟨List.mem_cons_of_mem o (ih h).1, (ih h).2⟩

theorem scan_eq_none (h : ¬ p.opening <+: cs) : p.scan cs = none := by
  cases hs : p.scan cs with
  | none => rfl
  | some r => exact absurd (startsWith_opening hs) h

end Pattern

/-! ## What a match gives back -/

/-- The name of a value input. -/
def InputSpec.value? : InputSpec → Option String
  | .value name _ _ => some name
  | .statement _ => none

/-- The name of a statement input. -/
def InputSpec.statement? : InputSpec → Option String
  | .value _ _ _ => none
  | .statement name => some name

namespace Shape

/-- The value inputs of a shape in order. -/
def valueInputs (s : Shape) (m : Option Mutation) : List String :=
  (s.inputsFor m).filterMap InputSpec.value?

/-- The statement inputs of a shape in order. -/
def statementInputs (s : Shape) (m : Option Mutation) : List String :=
  (s.inputsFor m).filterMap InputSpec.statement?

end Shape

/-- An extraction gives back a block of a shape with its fields and its mutation, and the texts of
its value inputs. -/
structure Extraction.Gives (e : Extraction) (s : Shape) (p : Parts) : Prop where
  fields : ∀ id, Workspace.fillFields s id e.fields (Workspace.defaultFields s) = .ok p.node.fields
  values : e.values = (s.valueInputs p.node.mutation).map fun i => (i, p.value i)
  bodies : e.bodies = s.statementInputs p.node.mutation
  mutation : e.mutation = p.node.mutation

namespace Workspace

variable {s : Shape} {fields : SortedMap String FieldValue}

theorem fillFields_nil (hs : s.fields = []) (h : s.Admits fields) (id : NodeId) :
    fillFields s id [] (defaultFields s) = .ok fields := by
  refine congrArg Except.ok (SortedMap.ext fun name => ?_)
  have := h name
  rw [Shape.field?, hs] at this
  rw [defaultFields, hs]
  exact this.symm

/-- A shape with one field is filled by its value. -/
theorem fillFields_singleton {spec : FieldSpec} {v : FieldValue} (hs : s.fields = [spec])
    (h : s.Admits fields) (hv : fields.get? spec.name = some v) (id : NodeId) :
    fillFields s id [(spec.name, v)] (defaultFields s) = .ok fields := by
  have hfield : s.field? spec.name = some spec := by simp [Shape.field?, hs]
  have hacc : spec.accepts v = true := by
    obtain ⟨v', hv', hacc⟩ := by
      have := h spec.name
      rw [hfield] at this
      exact this
    rw [hv, Option.some.injEq] at hv'
    rw [hv']
    exact hacc
  rw [fillFields, hfield]
  simp only [hacc, if_true]
  refine congrArg Except.ok (SortedMap.ext fun name => ?_)
  rw [SortedMap.get?_insert]
  split
  · next he =>
    rw [he]
    exact hv.symm
  · next he =>
    have hnone : s.field? name = none := by
      simp [Shape.field?, hs, beq_eq_false_iff_ne.mpr (Ne.symm he)]
    have := h name
    rw [hnone] at this
    rw [this, defaultFields, hs]
    show ((SortedMap.empty : SortedMap String FieldValue).insert spec.name spec.default).get? name =
      none
    rw [SortedMap.get?_insert, if_neg he, SortedMap.get?_empty]

end Workspace

namespace Definition

variable {d : Definition} {idiom : Pattern} {extractor : Captures → Option Extraction}
  {cs rest : List Char} {c : Captures} {e : Extraction}

/-- A value is read from all of a text. -/
theorem recover_value (hv : d.shape.role.isValue = true) (hi : d.idiom = some idiom)
    (he : d.extractor = some extractor) (hc : d.constructor = some .ofExtraction)
    (hs : idiom.scan cs = some (c, [])) (hx : extractor c = some e) :
    d.recover cs = some (e, ⟨d.kind, e.fields, e.mutation⟩, cs) := by
  simp [recover, hi, hs, hv, he, hc, hx, Blueprint.ofExtraction]

/-- A statement is read from the front of a text. -/
theorem recover_statement {matched : List Char} (hv : d.shape.role.isValue = false)
    (hi : d.idiom = some idiom) (he : d.extractor = some extractor)
    (hc : d.constructor = some .ofExtraction)
    (hs : idiom.scan (matched ++ rest) = some (c, rest))
    (hline : matched.getLast? = some '\n') (hx : extractor c = some e) :
    d.recover (matched ++ rest) = some (e, ⟨d.kind, e.fields, e.mutation⟩, matched) := by
  simp [recover, hi, hs, hv, he, hc, hx, hline, Blueprint.ofExtraction]

theorem recover_eq_none_of_scan (hi : d.idiom = some idiom) (hs : idiom.scan cs = none) :
    d.recover cs = none := by
  simp [recover, hi, hs]

theorem recover_eq_none_of_opening (hi : d.idiom = some idiom) (h : ¬ idiom.opening <+: cs) :
    d.recover cs = none :=
  recover_eq_none_of_scan hi (Pattern.scan_eq_none h)

/-- The characters that a text has to start with for a definition to read it. -/
def opening (d : Definition) : List Char := (d.idiom.map Pattern.opening).getD []

theorem recover_eq_none_of_not_opening (h : ¬ d.opening <+: cs) : d.recover cs = none := by
  cases hi : d.idiom with
  | none => simp [recover, hi]
  | some idiom =>
    refine recover_eq_none_of_opening hi ?_
    rwa [opening, hi] at h

/-- A value is not read from a part of a text. -/
theorem recover_eq_none_of_rest (hv : d.shape.role.isValue = true) (hi : d.idiom = some idiom)
    (hs : idiom.scan cs = some (c, rest)) (hr : rest ≠ []) : d.recover cs = none := by
  simp [recover, hi, hs, hv, hr]

theorem recover_eq_none_of_extract (hi : d.idiom = some idiom) (he : d.extractor = some extractor)
    (hs : idiom.scan cs = some (c, rest)) (hx : extractor c = none) : d.recover cs = none := by
  simp [recover, hi, hs, he, hx]

end Definition

end BlockText

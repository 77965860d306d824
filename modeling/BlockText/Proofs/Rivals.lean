import BlockText.Proofs.Clauses
import Mathlib.Data.List.Pairwise

/-!
# Idioms that compete for a text

Two statement idioms never read the same text: an opening tells all but the assignments, and these
start with a variable name and tell one another by their operators. Of the idioms of values only
those with parentheses start alike. A comparison, a connection and arithmetic are told by the only
operator between the parentheses. What is left is the negation: `(not a == b)` and `(not -1)` are
read as negations and as two operands with an operator between them.
-/

namespace BlockText

open Text Lexeme Catalogue

variable {k k' : Kind} {cs : List Char}

/-- The idiom of a kind reads a text, or the front of it if it is the idiom of a statement. -/
def Kind.Reads (k : Kind) (cs : List Char) : Prop := (k.definition.recover cs).isSome = true

theorem Kind.Reads.exists_recover (h : k.Reads cs) :
    ∃ e b matched, k.definition.recover cs = some (e, b, matched) := by
  obtain ⟨⟨e, b, matched⟩, h⟩ := Option.isSome_iff_exists.mp h
  exact ⟨e, b, matched, h⟩

theorem Kind.Reads.ne_none (h : k.Reads cs) : k.definition.recover cs ≠ none :=
  Option.isSome_iff_ne_none.mp h

theorem Kind.Reads.opening (h : k.Reads cs) : k.definition.opening <+: cs := by
  by_contra hno
  exact h.ne_none (Definition.recover_eq_none_of_not_opening hno)

/-! ## Statements -/

/-- A statement that is read has a fixed opening or is an assignment. -/
theorem Kind.Reads.opened_or_assigned (h : k.Reads cs)
    (hrole : k.definition.shape.role.isValue = false) :
    k.definition ∈ openingIdioms ∨ k = .changeVariable ∨ k = .setVariable := by
  cases k with
  | changeVariable => exact .inr (.inl rfl)
  | setVariable => exact .inr (.inr rfl)
  | ifElseElseIf | ifElseElse => cases h
  | mathNumber | text | logicBoolean | logicCompare | logicOperation | logicNegate
  | mathArithmetic | mathRandom | buttonIsPressed | temperature | acceleration | variablesGet =>
    cases hrole
  | _ => exact .inl (by simp [openingIdioms, Kind.definition])

theorem dropWhile_identifier {name : List Char} (h : Word.isIdentifier name = true)
    (more : List Char) : (name ++ ' ' :: more).dropWhile Word.isPart = ' ' :: more := by
  simp only [Word.isIdentifier, Bool.and_eq_true] at h
  exact dropWhile_run (isPart_of_isWord h.1) (stops_cons (by decide))

/-- The text of an assignment starts with a variable name and a blank. -/
theorem Kind.Reads.assigned (h : k.Reads cs) (hk : k = .changeVariable ∨ k = .setVariable) :
    ∃ name more, Word.isIdentifier name = true ∧ cs = name ++ ' ' :: more ∧
      more.head? = some (if k = .changeVariable then '+' else '=') := by
  obtain ⟨e, b, matched, h⟩ := h.exists_recover
  rcases hk with rfl | rfl
  · obtain ⟨name, value, hname, rfl⟩ := Kind.assigned_of_recover rfl h
    exact ⟨name, _, hname, rfl, rfl⟩
  · obtain ⟨name, value, hname, rfl⟩ := Kind.assigned_of_recover rfl h
    exact ⟨name, _, hname, rfl, rfl⟩

/-- One statement at most is read from the front of a text. -/
theorem Kind.Reads.eq_of_statement (h : k.Reads cs) (h' : k'.Reads cs)
    (hrole : k.definition.shape.role.isValue = false)
    (hrole' : k'.definition.shape.role.isValue = false) : k = k' := by
  -- a text that starts with a name and a blank has no opening
  have hname {k k' : Kind} (h : k.Reads cs) (h' : k'.Reads cs) (hd : k.definition ∈ openingIdioms)
      (hk' : k' = .changeVariable ∨ k' = .setVariable) : False := by
    obtain ⟨name, more, hname, rfl, -⟩ := h'.assigned hk'
    exact h.ne_none (recover_name hname more _ hd)
  rcases h.opened_or_assigned hrole with hd | hk <;>
    rcases h'.opened_or_assigned hrole' with hd' | hk'
  · by_contra hne
    have hdefinition : k.definition ≠ k'.definition := fun he =>
      hne (by rw [← k.kind_definition, he, k'.kind_definition])
    have hsymm : Std.Symm fun d d' : Definition => Apart d'.opening d.opening :=
      ⟨fun _ _ hapart => ⟨hapart.2, hapart.1⟩⟩
    exact (apart_openings.forall hd hd' hdefinition).not_startsWith h'.opening h.opening
  · exact (hname h h' hd hk').elim
  · exact (hname h' h hd' hk).elim
  · obtain ⟨name, more, hid, rfl, hsign⟩ := h.assigned hk
    obtain ⟨name', more', hid', he, hsign'⟩ := h'.assigned hk'
    obtain rfl : more = more' := by
      have hdrop := congrArg (List.dropWhile Word.isPart) he
      rw [dropWhile_identifier hid, dropWhile_identifier hid'] at hdrop
      exact (List.cons.inj hdrop).2
    rw [hsign] at hsign'
    rcases hk with rfl | rfl <;> rcases hk' with rfl | rfl
    · rfl
    · cases hsign'
    · cases hsign'
    · rfl

/-! ## Values with different starts -/

/-- What the text of a block can start with. -/
def Kind.starts : Kind → List (List Char)
  | .mathNumber => "-0123456789".toList.map ([·])
  | .text => [['"']]
  | .logicBoolean => [truthText true, truthText false]
  | k => [k.definition.opening]

theorem mem_digits_of_isDigit {c : Char} (h : c.isDigit = true) : c ∈ "0123456789".toList := by
  simp only [Char.isDigit, Bool.and_eq_true, decide_eq_true_eq, ge_iff_le,
    UInt32.le_iff_toNat_le] at h
  have hdigits : ∀ n < 10, Char.ofNat (48 + n) ∈ "0123456789".toList := by decide
  have hlow : 48 ≤ c.toNat := h.1
  have hhigh : c.toNat ≤ 57 := h.2
  have hc := hdigits (c.toNat - 48) (by omega)
  rwa [Nat.add_sub_cancel' hlow, Char.ofNat_toNat] at hc

theorem Kind.Reads.start (h : k.Reads cs) : ∃ o ∈ k.starts, o <+: cs := by
  cases k with
  | mathNumber =>
    cases cs with
    | nil => cases h
    | cons c cs =>
      have hc : c ∈ "-0123456789".toList := by
        by_contra hno
        have hsign : c ≠ '-' := fun he => hno (by rw [he]; decide)
        have hdigit : c.isDigit = false := by
          rw [Bool.eq_false_iff]
          exact fun hd => hno (List.mem_cons_of_mem '-' (mem_digits_of_isDigit hd))
        exact h.ne_none (mathNumber_recover_cons hsign hdigit)
      exact ⟨[c], List.mem_map_of_mem hc, List.prefix_append [c] cs⟩
  | text =>
    refine ⟨_, List.mem_singleton_self _, ?_⟩
    cases cs with
    | nil => cases h
    | cons c cs =>
      by_cases hc : c = '"'
      · exact ⟨cs, by rw [hc]; rfl⟩
      · exact absurd (text_recover_cons hc) h.ne_none
  | logicBoolean =>
    have hcs : cs = truthText true ∨ cs = truthText false := by
      by_contra hno
      exact h.ne_none (logicBoolean_recover_word (fun he => hno (.inl he)) fun he => hno (.inr he))
    exact ⟨cs, List.mem_pair.mpr hcs, List.prefix_refl cs⟩
  | _ => exact ⟨_, List.mem_singleton_self _, h.opening⟩

/-- The kinds with two operands in parentheses. -/
def Kind.binaries : List Kind := [logicCompare, logicOperation, mathArithmetic]

/-- The kinds of values in parentheses. -/
def Kind.grouped : List Kind := logicNegate :: binaries

/-- Only the values in parentheses start alike. -/
theorem Kind.apart_starts : ∀ k ∈ Kind.unnamed, ∀ k' ∈ Kind.unnamed, k ≠ k' →
    k ∉ Kind.grouped ∨ k' ∉ Kind.grouped → ∀ o ∈ k.starts, ∀ o' ∈ k'.starts, Apart o o' := by
  decide +kernel

open Pattern in
theorem Kind.Reads.identifier (h : Kind.variablesGet.Reads cs) : Word.isIdentifier cs = true := by
  obtain ⟨e, b, matched, h⟩ := h.exists_recover
  obtain ⟨idiom, extractor, c, rest, hi, he, hs, hx, -, -, hrest⟩ := Kind.recover_some h
  obtain rfl := Option.some.inj hi
  obtain rfl := Option.some.inj he
  obtain rfl : rest = [] := hrest
  obtain ⟨name, rfl, rfl, -⟩ := scan_word_some hs
  obtain ⟨name', hname, hx⟩ := Option.bind_eq_some_iff.mp hx
  obtain rfl : name = name' := Option.some.inj hname
  obtain ⟨_, hguard, -⟩ := Option.bind_eq_some_iff.mp hx
  rw [List.append_nil]
  exact (Option.guard_eq_some' _).mp hguard

/-! ## Operators -/

/-- The only token outside parentheses that joins two operands. -/
def Expression.joint? (cs : List Char) : Option Lexeme :=
  (scan cs).bind fun r =>
    match joints 0 false 0 r.1 with
    | [place] => r.1[place]?
    | _ => none

/-- Wherever a text is split, it is split at the same token. -/
theorem Expression.joint?_of_splitBinary {operators : List (List Char)}
    {left sign right : List Char} (h : splitBinary operators cs = some (left, sign, right)) :
    ∃ l, joint? cs = some l ∧ l.text = sign ∧ sign ∈ operators := by
  unfold splitBinary at h
  cases hs : scan cs with
  | none =>
    rw [hs] at h
    cases h
  | some r =>
    obtain ⟨ls, gap⟩ := r
    simp only [hs] at h
    obtain ⟨-, h⟩ := Option.ite_none_left_eq_some.mp h
    cases hj : joints 0 false 0 ls with
    | nil =>
      rw [hj] at h
      cases h
    | cons place more =>
      cases more with
      | cons place' more =>
        rw [hj] at h
        cases h
      | nil =>
        simp only [hj] at h
        cases hl : ls.drop place with
        | nil =>
          rw [hl] at h
          cases h
        | cons l after =>
          simp only [hl] at h
          obtain ⟨hguard, h⟩ := Option.ite_none_right_eq_some.mp h
          cases h
          simp only [Bool.and_eq_true, List.contains_iff_mem] at hguard
          have hplace : ls[place]? = some l := by rw [← List.head?_drop, hl, List.head?_cons]
          exact ⟨l, by simp [joint?, hs, hj, hplace], rfl, hguard.1.1⟩

open Pattern in
/-- Two operands in parentheses have an operator of their kind between them. -/
theorem Kind.joint?_of_reads {description : String} {result : Check} {operators : Operators}
    {a b : InputSpec} (hk : k.definition = binary k description result operators a b)
    (h : k.Reads cs) : ∃ inner l, cs = '(' :: inner ++ [')'] ∧
      Expression.joint? inner = some l ∧ l.text ∈ operators.map (·.2) := by
  obtain ⟨e, b, matched, h⟩ := h.exists_recover
  obtain ⟨idiom, extractor, c, rest, hi, he, hs, hx, -, -, hrest⟩ := k.recover_some h
  rw [hk] at hi he hrest
  obtain rfl := Option.some.inj hi
  obtain rfl := Option.some.inj he
  obtain rfl : rest = [] := hrest
  obtain ⟨_, _, _, h₂, hclose, rfl⟩ := scan_append_some hs
  obtain ⟨_, _, _, hopen, hhole, rfl⟩ := scan_append_some h₂
  obtain ⟨rfl, rfl⟩ := scan_lits_some hopen
  obtain ⟨inner, rfl, rfl, -⟩ := scan_hole_some hhole
  obtain ⟨rfl, rfl⟩ := scan_lits_some hclose
  obtain ⟨inner', hinner, hx⟩ := Option.bind_eq_some_iff.mp hx
  obtain rfl : inner = inner' := Option.some.inj hinner
  obtain ⟨_, -, hx⟩ := Option.bind_eq_some_iff.mp hx
  obtain ⟨⟨left, sign, right⟩, hsplit, -⟩ := Option.bind_eq_some_iff.mp hx
  obtain ⟨l, hl, rfl, hmem⟩ := Expression.joint?_of_splitBinary hsplit
  exact ⟨inner, l, rfl, hl, hmem⟩

/-! ## Values -/

/-- The operators of a kind with two operands. -/
def Kind.operators : Kind → Operators
  | .logicCompare => comparisons
  | .logicOperation => connectives
  | .mathArithmetic => arithmetics
  | _ => []

theorem Kind.Reads.operator (h : k.Reads cs) (hk : k ∈ Kind.binaries) :
    ∃ inner l, cs = '(' :: inner ++ [')'] ∧ Expression.joint? inner = some l ∧
      l.text ∈ k.operators.map (·.2) := by
  cases k with
  | logicCompare | logicOperation | mathArithmetic => exact Kind.joint?_of_reads rfl h
  | _ => exact absurd hk (by decide)

/-- No kinds with two operands share an operator. -/
theorem Kind.operators_disjoint : ∀ k ∈ Kind.binaries, ∀ k' ∈ Kind.binaries,
    ∀ sign ∈ k.operators.map (·.2), sign ∈ k'.operators.map (·.2) → k = k' := by
  decide

/-- One kind at most reads two operands in parentheses. -/
theorem Kind.Reads.eq_of_binary (h : k.Reads cs) (h' : k'.Reads cs) (hk : k ∈ Kind.binaries)
    (hk' : k' ∈ Kind.binaries) : k = k' := by
  obtain ⟨inner, l, rfl, hl, hsign⟩ := h.operator hk
  obtain ⟨inner', l', he, hl', hsign'⟩ := h'.operator hk'
  obtain rfl : inner = inner' := List.append_cancel_right (List.cons.inj he).2
  obtain rfl : l = l' := Option.some.inj (hl.symm.trans hl')
  exact Kind.operators_disjoint k hk k' hk' l.text hsign hsign'

/-- A negation and two operands may be read from the same text. -/
def Kind.Rivals (k k' : Kind) : Prop :=
  k = .logicNegate ∧ k' ∈ Kind.binaries ∨ k ∈ Kind.binaries ∧ k' = .logicNegate

theorem Kind.mem_unnamed (hv : k.definition.shape.role.isValue = true) (hk : k ≠ .variablesGet) :
    k ∈ Kind.unnamed := by
  cases k with
  | variablesGet => exact absurd rfl hk
  | mathNumber | text | logicBoolean | logicCompare | logicOperation | logicNegate
  | mathArithmetic | mathRandom | buttonIsPressed | temperature | acceleration => decide
  | _ => cases hv

/-- One value at most is read from a text, but for a negation and what is in its parentheses. -/
theorem Kind.Reads.eq_or_rivals (h : k.Reads cs) (h' : k'.Reads cs)
    (hv : k.definition.shape.role.isValue = true)
    (hv' : k'.definition.shape.role.isValue = true) : k = k' ∨ k.Rivals k' := by
  have hname {k : Kind} (h : k.Reads cs) (hv : k.definition.shape.role.isValue = true)
      (hvar : Kind.variablesGet.Reads cs) : k = .variablesGet := by
    by_contra hk
    exact h.ne_none (recover_identifier hvar.identifier k (mem_unnamed hv hk))
  by_cases hk : k = .variablesGet
  · subst hk
    exact .inl (hname h' hv' h).symm
  by_cases hk' : k' = .variablesGet
  · subst hk'
    exact .inl (hname h hv h')
  by_contra hno
  obtain ⟨hne, hrivals⟩ := not_or.mp hno
  obtain ⟨o, ho, hstart⟩ := h.start
  obtain ⟨o', ho', hstart'⟩ := h'.start
  by_cases hgroup : k ∈ Kind.grouped ∧ k' ∈ Kind.grouped
  · -- with a negation they would be rivals
    obtain ⟨hg, hg'⟩ := hgroup
    rcases List.mem_cons.mp hg with rfl | hb <;> rcases List.mem_cons.mp hg' with rfl | hb'
    · exact hne rfl
    · exact hrivals (.inl ⟨rfl, hb'⟩)
    · exact hrivals (.inr ⟨hb, rfl⟩)
    · exact hne (h.eq_of_binary h' hb hb')
  · have hapart := apart_starts k (mem_unnamed hv hk) k' (mem_unnamed hv' hk') hne
      (not_and_or.mp hgroup) o ho o' ho'
    exact hapart.not_startsWith hstart hstart'

end BlockText

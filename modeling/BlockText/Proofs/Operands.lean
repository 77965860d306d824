import BlockText.Proofs.Arguments

/-!
# Operands

A list of tokens is balanced when its parentheses match; it is passed over by every walk that is
inside of parentheses. An operand is an atom, a signed number, or something in parentheses, perhaps
with a name before it; it is passed over outside of parentheses too: it holds no joint and no comma
there. A term is a text whose tokens are an operand. Lists of terms and pairs of terms with an
operator between them are taken apart into the terms.
-/

namespace BlockText

open Text

namespace Lexeme

/-! ## Balanced lists -/

/-- The parentheses match. -/
inductive Balanced : List Lexeme → Prop
  | nil : Balanced []
  | token {l : Lexeme} {ls : List Lexeme} : l.token ≠ .opening → l.token ≠ .closing →
      Balanced ls → Balanced (l :: ls)
  | nested {o c : Lexeme} {inner ls : List Lexeme} : o.token = .opening → Balanced inner →
      c.token = .closing → Balanced ls → Balanced (o :: inner ++ c :: ls)

theorem Balanced.append {ls ms : List Lexeme} (h : Balanced ls) (h' : Balanced ms) :
    Balanced (ls ++ ms) := by
  induction h with
  | nil => exact h'
  | token ho hc _ ih => exact .token ho hc ih
  | @nested o c inner ls ho hi hc _ _ ih =>
    have : o :: inner ++ c :: ls ++ ms = o :: inner ++ c :: (ls ++ ms) := by simp
    rw [this]
    exact .nested ho hi hc ih

/-- Blanks before a token do not matter. -/
theorem Balanced.gap {l : Lexeme} {ls : List Lexeme} (h : Balanced (l :: ls)) (gap : List Char) :
    Balanced ({ l with gap := gap } :: ls) := by
  generalize he : l :: ls = ms at h
  cases h with
  | nil => cases he
  | token ho hc h =>
    cases he
    exact .token ho hc h
  | nested ho hi hc h =>
    cases he
    exact .nested (o := { l with gap := gap }) ho hi hc h

theorem depthAfter_balanced {ls : List Lexeme} (h : Balanced ls) (d : Nat) (rest : List Lexeme) :
    depthAfter d (ls ++ rest) = depthAfter d rest := by
  induction h generalizing d rest with
  | nil => rfl
  | @token l ls ho hc _ ih =>
    rw [List.cons_append, depthAfter.eq_def]
    simp only
    split <;> simp_all
  | @nested o c inner ls ho _ hc _ ihi ih =>
    have : o :: inner ++ c :: ls ++ rest = o :: (inner ++ (c :: (ls ++ rest))) := by simp
    rw [this, depthAfter.eq_def]
    simp only [ho, ihi]
    rw [depthAfter.eq_def]
    simp only [hc, ih]

theorem Balanced.depth {ls : List Lexeme} (h : Balanced ls) : depthAfter 0 ls = some 0 := by
  have := depthAfter_balanced h 0 []
  rwa [List.append_nil] at this

/-- Inside of parentheses no comma of what is balanced matters. -/
theorem whole_balanced {ls : List Lexeme} (h : Balanced ls) (d : Nat) {rest : List Lexeme}
    (hrest : Whole (d + 1) rest) : Whole (d + 1) (ls ++ rest) := by
  induction h generalizing d rest with
  | nil => exact hrest
  | @token l ls ho hc _ ih =>
    refine whole_cons.mpr ⟨by simp, fun _ => ?_⟩
    rw [deepen_other ho hc]
    exact ih d hrest
  | @nested o c inner ls ho _ hc _ ihi ih =>
    have happ : o :: inner ++ c :: ls ++ rest = o :: (inner ++ (c :: (ls ++ rest))) := by simp
    rw [happ]
    refine whole_cons.mpr ⟨by simp, fun _ => ?_⟩
    rw [deepen_opening ho]
    refine ihi (d + 1) (whole_cons.mpr ⟨by simp, fun _ => ?_⟩)
    rw [deepen_closing hc]
    exact ih d hrest

end Lexeme

namespace Expression

open Lexeme

/-- Inside of parentheses no token is a joint. -/
theorem joints_balanced {ls : List Lexeme} (h : Balanced ls) (d : Nat) (operand : Bool)
    (place : Nat) (rest : List Lexeme) :
    ∃ operand', joints (d + 1) operand place (ls ++ rest) =
      joints (d + 1) operand' (place + ls.length) rest := by
  induction h generalizing d operand place rest with
  | nil => exact ⟨operand, rfl⟩
  | @token l ls ho hc _ ih =>
    obtain ⟨operand', h'⟩ := ih d (!joins l && l.token != .comma) (place + 1) rest
    refine ⟨operand', ?_⟩
    rw [List.cons_append, joints, List.length_cons, Nat.add_comm ls.length, ← Nat.add_assoc, ← h']
    split
    · contradiction
    · contradiction
    · cases joins l <;> simp
  | @nested o c inner ls ho _ hc _ ihi ih =>
    have happ : o :: inner ++ c :: ls ++ rest = o :: (inner ++ (c :: (ls ++ rest))) := by simp
    obtain ⟨x, hx⟩ := ihi (d + 1) false (place + 1) (c :: (ls ++ rest))
    obtain ⟨y, hy⟩ := ih d true (place + 1 + inner.length + 1) rest
    refine ⟨y, ?_⟩
    rw [happ, joints]
    simp only [ho, hx]
    rw [joints]
    simp only [hc, Nat.add_sub_cancel, hy]
    congr 1
    simp
    omega

/-! ## Operands -/

/-- A literal, a number or a name that joins nothing. -/
structure IsAtom (l : Lexeme) : Prop where
  not_opening : l.token ≠ .opening
  not_closing : l.token ≠ .closing
  not_comma : l.token ≠ .comma
  joins : joins l = false

/-- An atom, a signed atom, something in parentheses, or a name with something in parentheses. -/
inductive Operand : List Lexeme → Prop
  | atom {l : Lexeme} : IsAtom l → Operand [l]
  | signed {s l : Lexeme} : s.token = .operator → IsAtom l → Operand [s, l]
  | enclosed {o c : Lexeme} {inner : List Lexeme} : o.token = .opening → Balanced inner →
      c.token = .closing → Operand (o :: inner ++ [c])
  | call {f o c : Lexeme} {inner : List Lexeme} : IsAtom f → o.token = .opening → Balanced inner →
      c.token = .closing → Operand (f :: (o :: inner ++ [c]))

variable {ls : List Lexeme}

theorem IsAtom.balanced {l : Lexeme} (h : IsAtom l) (hls : Balanced ls) : Balanced (l :: ls) :=
  .token h.not_opening h.not_closing hls

theorem Operand.balanced (h : Operand ls) : Balanced ls := by
  cases h with
  | atom h => exact h.balanced .nil
  | signed hs h => exact .token (by simp [hs]) (by simp [hs]) (h.balanced .nil)
  | enclosed ho hi hc => exact .nested ho hi hc .nil
  | call h ho hi hc => exact h.balanced (.nested ho hi hc .nil)

/-- Blanks before an operand do not matter. -/
theorem Operand.gap {l : Lexeme} (h : Operand (l :: ls)) (gap : List Char) :
    Operand ({ l with gap := gap } :: ls) := by
  generalize he : l :: ls = ms at h
  cases h with
  | atom h =>
    cases he
    exact .atom ⟨h.not_opening, h.not_closing, h.not_comma, h.joins⟩
  | signed hs h =>
    cases he
    exact .signed (s := { l with gap := gap }) hs h
  | enclosed ho hi hc =>
    cases he
    exact .enclosed (o := { l with gap := gap }) ho hi hc
  | call h ho hi hc =>
    cases he
    exact .call ⟨h.not_opening, h.not_closing, h.not_comma, h.joins⟩ ho hi hc

theorem whole_enclosed {o : Lexeme} {inner : List Lexeme} (ho : o.token = .opening)
    (hi : Balanced inner) (c : Lexeme) : Whole 0 (o :: inner ++ [c]) := by
  refine whole_cons.mpr ⟨by simp [ho], fun _ => ?_⟩
  rw [deepen_opening ho]
  exact whole_balanced hi 0 (whole_cons.mpr ⟨by simp, fun _ => whole_nil⟩)

theorem IsAtom.whole {l : Lexeme} (h : IsAtom l) (hls : Whole 0 ls) : Whole 0 (l :: ls) := by
  refine whole_cons.mpr ⟨fun hc => h.not_comma hc.1, fun _ => ?_⟩
  rwa [deepen_other h.not_opening h.not_closing]

/-- An operand holds no comma outside of parentheses. -/
theorem Operand.whole (h : Operand ls) : Whole 0 ls := by
  cases h with
  | atom h => exact h.whole whole_nil
  | signed hs h =>
    refine whole_cons.mpr ⟨by simp [hs], fun _ => ?_⟩
    rw [deepen_other (by simp [hs]) (by simp [hs])]
    exact h.whole whole_nil
  | enclosed ho hi _ => exact whole_enclosed ho hi _
  | call h ho hi _ => exact h.whole (whole_enclosed ho hi _)

/-- An operand holds no joint. -/
theorem joints_operand (h : Operand ls) (place : Nat) (rest : List Lexeme) :
    joints 0 false place (ls ++ rest) = joints 0 true (place + ls.length) rest := by
  have hatom {l : Lexeme} (h : IsAtom l) (operand : Bool) (place : Nat) (ms : List Lexeme) :
      joints 0 operand place (l :: ms) = joints 0 true (place + 1) ms := by
    have hcomma : (l.token != .comma) = true := by simpa using h.not_comma
    rw [joints]
    split
    · next ho => exact absurd ho h.not_opening
    · next hc => exact absurd hc h.not_closing
    · rw [h.joins, hcomma]
      rfl
  have henclosed {o c : Lexeme} {inner : List Lexeme} (ho : o.token = .opening)
      (hi : Balanced inner) (hc : c.token = .closing) (operand : Bool) (place : Nat) :
      joints 0 operand place (o :: inner ++ [c] ++ rest) =
        joints 0 true (place + (o :: inner ++ [c]).length) rest := by
    have happ : o :: inner ++ [c] ++ rest = o :: (inner ++ (c :: rest)) := by simp
    obtain ⟨x, hx⟩ := joints_balanced hi 0 false (place + 1) (c :: rest)
    rw [happ, joints]
    simp only [ho, hx]
    rw [joints]
    simp only [hc, Nat.add_sub_cancel]
    congr 1
    simp
    omega
  cases h with
  | atom h => exact hatom h false place rest
  | @signed s l hs h =>
    have hjoins : joins s = true := by simp [joins, hs]
    rw [List.cons_append, joints]
    split
    · next ho => rw [hs] at ho; cases ho
    · next hc => rw [hs] at hc; cases hc
    · rw [hjoins, if_pos rfl, Bool.and_false, if_neg Bool.false_ne_true, List.singleton_append,
        hatom h]
      rfl
  | enclosed ho hi hc => exact henclosed ho hi hc false place
  | call h ho hi hc =>
    rw [List.cons_append, hatom h, henclosed ho hi hc]
    congr 1
    simp
    omega

/-! ## Terms -/

/-- A text on one line whose tokens are an operand, and that does not start as a negation does
inside of its parentheses. -/
structure Term (t : List Char) : Prop where
  trimmed : Trimmed t
  visible : ∀ c ∈ t, isControl c = false
  tokens : ∃ ls, Scans t ls ∧ Operand ls
  not_negation : ∀ rest, ¬ ['n', 'o', 't', ' '] <+: t ++ ' ' :: rest

variable {t a b : List Char} {ms : List Lexeme}

/-- A term stands on one line. -/
theorem Term.ne_newline (h : Term t) : ∀ c ∈ t, c ≠ '\n' := by
  rintro c hc rfl
  have := h.visible _ hc
  cases this

theorem Operand.ne_nil (h : Operand ls) : ls ≠ [] := by
  cases h <;> simp

/-- The tokens of a text in parentheses. -/
theorem scans_enclosed (h : Scans t ls) : Scans ('(' :: t ++ [')'])
    (⟨[], .opening, ['(']⟩ :: ls ++ [⟨[], .closing, [')']⟩]) := by
  have hclosing : Scans [')'] [⟨[], .closing, [')']⟩] := scans_first fun _ _ => rfl
  have hinner := h.append hclosing (by simp) (stops_cons (by decide))
  exact hinner.sign (u := ['(']) fun _ => rfl

theorem isEnclosed_of_balanced (h : Scans t ls) (hb : Balanced ls) :
    isEnclosed ('(' :: t ++ [')']) = true := by
  rw [isEnclosed_parentheses, isBalanced_of_scan h.eq, hb.depth]
  rfl

/-! ### Arguments -/

theorem Term.isArgument (h : Term t) : IsArgument t := by
  obtain ⟨ls, hscans, hop⟩ := h.tokens
  exact isArgument_iff.mpr ⟨h.trimmed, ls, [], hscans.eq, hop.balanced.depth, hop.whole⟩

/-- The tokens of arguments with commas between them. -/
theorem scans_arguments {args : List (List Char)} (hargs : ∀ a ∈ args, Term a) (ha : Term a) :
    ∃ l ls, Scans (join [',', ' '] (a :: args)) (l :: ls) ∧ Balanced (l :: ls) := by
  induction args generalizing a with
  | nil =>
    obtain ⟨ls, hscans, hop⟩ := ha.tokens
    obtain ⟨l, ls, rfl⟩ := List.exists_cons_of_ne_nil hop.ne_nil
    exact ⟨l, ls, hscans, hop.balanced⟩
  | cons b args ih =>
    obtain ⟨l, ls, hscans, hbal⟩ :=
      ih (fun x hx => hargs x (List.mem_cons_of_mem _ hx)) (hargs b List.mem_cons_self)
    obtain ⟨ks, hkscans, hop⟩ := ha.tokens
    obtain ⟨k, ks, rfl⟩ := List.exists_cons_of_ne_nil hop.ne_nil
    have hcomma := hscans.space.sign (u := [',']) (k := .comma) fun _ => rfl
    have hall := hkscans.append hcomma (by simp) (stops_cons (by decide))
    refine ⟨k, ks ++ ⟨[], .comma, [',']⟩ :: { l with gap := ' ' :: l.gap } :: ls, ?_, ?_⟩
    · rw [join_cons (List.cons_ne_nil b args), List.append_assoc]
      exact hall
    · exact hop.balanced.append (.token (by simp) (by simp) (hbal.gap _))

/-! ### Operators -/

/-- A token that joins two operands when blanks stand around it. -/
structure IsJoint (operator : List Char) (k : Token) : Prop where
  first : ∀ rest, first? (operator ++ ' ' :: rest) = some (k, operator, ' ' :: rest)
  joins : ∀ gap, joins ⟨gap, k, operator⟩ = true
  visible : ∀ c ∈ operator, isControl c = false

theorem IsJoint.not_parenthesis {operator : List Char} {k : Token} (h : IsJoint operator k) :
    k ≠ .opening ∧ k ≠ .closing := by
  constructor
  · rintro rfl
    exact absurd (h.joins []) (by simp [Expression.joins])
  · rintro rfl
    exact absurd (h.joins []) (by simp [Expression.joins])

/-- The tokens of two terms with an operator between them. -/
theorem scans_joined {operator : List Char} {k : Token} {l : Lexeme} (ha : Scans a ls)
    (hj : IsJoint operator k) (hb : Scans b (l :: ms)) :
    Scans (a ++ ' ' :: operator ++ ' ' :: b)
      (ls ++ ⟨[' '], k, operator⟩ :: { l with gap := ' ' :: l.gap } :: ms) := by
  have hop : Scans (operator ++ ' ' :: b)
      (⟨[], k, operator⟩ :: { l with gap := ' ' :: l.gap } :: ms) := by
    intro rest hrest
    rw [List.append_assoc, List.cons_append, scan_first (hj.first _), ← List.cons_append,
      hb.space rest hrest, Option.map_map]
    rfl
  have := ha.append hop.space (by simp) (stops_cons (by decide))
  rw [List.append_assoc, List.cons_append]
  exact this

theorem balanced_joined {operator : List Char} {k : Token} {l : Lexeme} (gap : List Char)
    (ha : Balanced ls) (hj : IsJoint operator k) (hb : Balanced (l :: ms)) :
    Balanced (ls ++ ⟨gap, k, operator⟩ :: { l with gap := ' ' :: l.gap } :: ms) :=
  ha.append (.token hj.not_parenthesis.1 hj.not_parenthesis.2 (hb.gap _))

/-- Two terms with an operator between them are taken apart at the operator, if it is asked for. -/
theorem splitBinary_joined {operator : List Char} {k : Token} (operators : List (List Char))
    (ha : Term a) (hj : IsJoint operator k) (hb : Term b) :
    splitBinary operators (a ++ ' ' :: operator ++ ' ' :: b) =
      if operators.contains operator then some (a, operator, b) else none := by
  obtain ⟨ls, hls, hlop⟩ := ha.tokens
  obtain ⟨ms, hms, hmop⟩ := hb.tokens
  obtain ⟨l, ms, rfl⟩ := List.exists_cons_of_ne_nil hmop.ne_nil
  have hscan := (scans_joined hls hj hms).eq
  have hbal := balanced_joined [' '] hlop.balanced hj hmop.balanced
  have hdepth := hbal.depth
  -- the operands have no joint outside parentheses, so the operator is the only one
  have hjoints : joints 0 false 0
      (ls ++ ⟨[' '], k, operator⟩ :: { l with gap := ' ' :: l.gap } :: ms) = [ls.length] := by
    have hend := joints_operand (hmop.gap (' ' :: l.gap)) (ls.length + 1) []
    rw [List.append_nil] at hend
    rw [joints_operand hlop, joints]
    simp only
    split
    · exact absurd rfl hj.not_parenthesis.1
    · exact absurd rfl hj.not_parenthesis.2
    · rw [if_pos (hj.joins _), if_pos (by decide), Nat.zero_add, hend]
      rfl
  have hleft : trim (spell ls ++ [' ']) = a := by
    rw [hls.spell]
    exact ha.trimmed.trim_append_space
  have hright : trim (spell ({ l with gap := ' ' :: l.gap } :: ms) ++ []) = b := by
    have : spell ({ l with gap := ' ' :: l.gap } :: ms) = ' ' :: spell (l :: ms) := by
      simp [spell_cons]
    rw [this, hms.spell, List.append_nil]
    exact hb.trimmed.trim_space_cons
  have hane : a.isEmpty = false := by simpa using ha.trimmed.1
  have hbne : b.isEmpty = false := by simpa using hb.trimmed.1
  rw [splitBinary, hscan]
  simp only [hdepth, ne_eq, not_true_eq_false, if_false, hjoints,
    List.drop_left, List.take_left, hleft, hright, hane, hbne, Bool.not_false, Bool.and_true]

end Expression

end BlockText

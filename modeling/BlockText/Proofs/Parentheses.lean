import BlockText.Proofs.Lexing

/-!
# Parentheses

Two walks over tokens count parentheses. One gives the depth after all of them, and has none when a
parenthesis is closed that was not opened. The other looks for the token that closes the first
parenthesis and ends there, so it never closes one at depth zero. For a text between parentheses
both say the same: the first parenthesis is closed by the last exactly when those between them
match.
-/

namespace BlockText

open Text

namespace Lexeme

variable {l : Lexeme} {ls ms : List Lexeme} {d : Nat}

/-! ## One token -/

/-- The depth after a token. -/
def deepen (d : Nat) (l : Lexeme) : Nat :=
  if l.token = .opening then d + 1 else if l.token = .closing then d - 1 else d

theorem deepen_opening (h : l.token = .opening) : deepen d l = d + 1 := if_pos h

theorem deepen_closing (h : l.token = .closing) : deepen d l = d - 1 := by
  rw [deepen, if_neg (by simp [h]), if_pos h]

theorem deepen_other (ho : l.token ≠ .opening) (hc : l.token ≠ .closing) : deepen d l = d := by
  rw [deepen, if_neg ho, if_neg hc]

theorem depthAfter_cons (d : Nat) (l : Lexeme) (ls : List Lexeme) :
    depthAfter d (l :: ls) =
      if l.token = .closing ∧ d = 0 then none else depthAfter (deepen d l) ls := by
  rw [depthAfter.eq_def]
  cases l with
  | mk gap token text => cases token <;> cases d <;> rfl

theorem closesLast_cons (d : Nat) (l : Lexeme) (ls : List Lexeme) :
    closesLast d (l :: ls) =
      if l.token = .closing ∧ d = 0 then none
      else if l.token = .closing ∧ d = 1 then some ls.isEmpty
      else closesLast (deepen d l) ls := by
  rw [closesLast.eq_def]
  cases l with
  | mk gap token text => cases token <;> cases d <;> simp [deepen]

theorem deepen_succ (h : l.token ≠ .closing ∨ d ≠ 0) : deepen (d + 1) l = deepen d l + 1 := by
  unfold deepen
  split
  · rfl
  · split
    · next hclosing =>
      have hd := h.resolve_left (absurd hclosing)
      omega
    · rfl

/-! ## All tokens -/

/-- A walk that is inside of parentheses closes none at depth zero. -/
theorem closesLast_succ_ne_none (d : Nat) (ls : List Lexeme) : closesLast (d + 1) ls ≠ none := by
  induction ls generalizing d with
  | nil => simp [closesLast]
  | cons l ls ih =>
    rw [closesLast_cons, if_neg (by simp)]
    by_cases hlast : l.token = .closing ∧ d + 1 = 1
    · rw [if_pos hlast]
      simp
    · rw [if_neg hlast, deepen_succ]
      · exact ih (deepen d l)
      · rw [← not_and_or]
        exact fun h => hlast ⟨h.1, by rw [h.2]⟩

/-- The parenthesis before some tokens is closed by the one after them when theirs match. -/
theorem closesLast_closing {c : Lexeme} (hc : c.token = .closing) (d : Nat) (ls : List Lexeme) :
    closesLast (d + 1) (ls ++ [c]) = some (depthAfter d ls == some 0) := by
  induction ls generalizing d with
  | nil =>
    rw [List.nil_append, closesLast_cons, if_neg (by simp), depthAfter]
    cases d with
    | zero => simp [hc]
    | succ d => simp [closesLast]
  | cons l ls ih =>
    rw [List.cons_append, closesLast_cons, if_neg (by simp), depthAfter_cons]
    by_cases hlast : l.token = .closing ∧ d = 0
    · rw [if_pos hlast, if_pos ⟨hlast.1, by rw [hlast.2]⟩]
      simp
    · rw [if_neg hlast, if_neg fun h => hlast ⟨h.1, by omega⟩, deepen_succ (not_and_or.mp hlast),
        ih]

/-- A text that ends with a closing parenthesis has it as its last token. -/
theorem scan_of_closing {cs last : List Char} (h : scan (cs ++ [')']) = some (ls, last)) :
    ∃ ms gap, scan cs = some (ms, gap) := by
  have hspell := spell_scan h
  -- no blanks follow the last token, since the text ends with none
  obtain rfl : last = [] := by
    rcases List.eq_nil_or_concat last with rfl | ⟨front, c, rfl⟩
    · rfl
    · rw [List.concat_eq_append, ← List.append_assoc] at hspell
      obtain rfl := List.singleton_inj.mp (List.append_inj' hspell rfl).2
      exact absurd (isGap_of_scan h ')' (by simp)) (by decide)
  rcases List.eq_nil_or_concat ls with rfl | ⟨ms, l, rfl⟩
  · simp [spell] at hspell
  · rw [List.concat_eq_append] at h hspell
    obtain ⟨hgap, after, hfirst⟩ := first?_of_mem_scan h (l := l) (by simp)
    have hlast : l.text.getLast? = some ')' := by
      rw [← getLast?_scan h, List.getLast?_concat]
    obtain ⟨-, htext⟩ := (ends_of_first hfirst).2 hlast
    rw [spell_append, List.append_nil, spell_cons, spell_nil, List.append_nil, htext,
      ← List.append_assoc] at hspell
    obtain rfl := List.append_cancel_right hspell
    refine ⟨ms, l.gap, scan_front h hgap ?_⟩
    rw [spell_cons, List.append_nil, List.append_assoc]
    exact List.prefix_append _ _

theorem scan_closing (cs : List Char) : scan (cs ++ [')']) =
    (scan cs).map fun r => (r.1 ++ [⟨r.2, .closing, [')']⟩], []) := by
  cases hcs : scan cs with
  | some r =>
    have hclosing : scan [')'] = some ([⟨[], .closing, [')']⟩], []) := rfl
    rw [scan_append hcs hclosing (stops_cons (by decide)), List.append_nil]
    rfl
  | none =>
    cases hall : scan (cs ++ [')']) with
    | none => rfl
    | some r =>
      obtain ⟨ms, gap, hms⟩ := scan_of_closing hall
      rw [hcs] at hms
      cases hms

theorem scan_opening (cs : List Char) : scan ('(' :: cs) =
    (scan cs).map fun r => (⟨[], .opening, ['(']⟩ :: r.1, r.2) :=
  scan_first rfl

end Lexeme

namespace Expression

open Lexeme

theorem trimmed_enclosed (t : List Char) : Trimmed ('(' :: t ++ [')']) := by
  refine ⟨by simp, stops_cons (by decide), fun c hc => ?_⟩
  rw [List.getLast?_concat] at hc
  cases hc
  decide

theorem isBalanced_of_scan {cs gap : List Char} {ls : List Lexeme} (h : scan cs = some (ls, gap)) :
    isBalanced cs = (depthAfter 0 ls == some 0) := by
  rw [isBalanced, h]

theorem isEnclosed_of_scan {cs : List Char} {l : Lexeme} {ls : List Lexeme} (hcs : Trimmed cs)
    (h : scan cs = some (l :: ls, [])) (hl : l.token = .opening) :
    isEnclosed cs = (closesLast 1 ls == some true) := by
  rw [isEnclosed, hcs.trim, h]
  simp only [List.head?_cons, Option.any_some, hl, beq_self_eq_true, Bool.true_and,
    List.isEmpty_nil, Bool.and_true]
  rw [closesLast_cons, if_neg (by simp [hl]), if_neg (by simp [hl]), deepen_opening hl]

/-- A text between parentheses is enclosed when its own parentheses match. -/
theorem isEnclosed_parentheses (cs : List Char) :
    isEnclosed ('(' :: cs ++ [')']) = isBalanced cs := by
  have hscan : scan ('(' :: cs ++ [')']) = (scan cs).map fun r =>
      (⟨[], .opening, ['(']⟩ :: (r.1 ++ [⟨r.2, .closing, [')']⟩]), []) := by
    rw [List.cons_append, scan_opening, scan_closing, Option.map_map]
    rfl
  cases hcs : scan cs with
  | none =>
    rw [hcs] at hscan
    rw [isEnclosed, (trimmed_enclosed cs).trim, hscan, isBalanced, hcs]
    rfl
  | some r =>
    rw [hcs] at hscan
    rw [isEnclosed_of_scan (trimmed_enclosed cs) hscan rfl, isBalanced_of_scan hcs,
      closesLast_closing rfl]
    cases depthAfter 0 r.1 == some 0 <;> rfl

/-- The two checks of parentheses agree: a text between parentheses is one pair with what stands
between them exactly when the parentheses of the text match. The walk of the second check is made
only from an opening parenthesis, and then it closes no parenthesis at depth zero. -/
theorem isEnclosed_agrees :
    (∀ cs : List Char, isEnclosed ('(' :: cs ++ [')']) = isBalanced cs) ∧
    ∀ cs ls gap, scan (trim cs) = some (ls, gap) →
      ls.head?.any (·.token == .opening) = true → closesLast 0 ls ≠ none := by
  refine ⟨isEnclosed_parentheses, fun cs ls gap _ hopening => ?_⟩
  cases ls with
  | nil => cases hopening
  | cons l ls =>
    have hl : l.token = .opening := by simpa using hopening
    rw [closesLast_cons, if_neg (by simp [hl]), if_neg (by simp [hl]), deepen_opening hl]
    exact closesLast_succ_ne_none 0 ls

/-- Two pairs of parentheses that look like one, and a text that closes more than it opens: the walk
ends with the first pair. -/
theorem isEnclosed_agrees_two_pairs :
    isEnclosed ('(' :: "a) == (b".toList ++ [')']) = isBalanced "a) == (b".toList ∧
    isBalanced "a) == (b".toList = false ∧
    scan (trim " (a)) ".toList) = some ([⟨[], .opening, ['(']⟩, ⟨[], .name, ['a']⟩,
      ⟨[], .closing, [')']⟩, ⟨[], .closing, [')']⟩], []) ∧
    closesLast 0 [⟨[], .opening, ['(']⟩, ⟨[], .name, ['a']⟩, ⟨[], .closing, [')']⟩,
      ⟨[], .closing, [')']⟩] ≠ none := by
  have hscan : scan (trim " (a)) ".toList) = some ([⟨[], .opening, ['(']⟩, ⟨[], .name, ['a']⟩,
      ⟨[], .closing, [')']⟩, ⟨[], .closing, [')']⟩], []) := by decide
  obtain ⟨hagree, hwalk⟩ := isEnclosed_agrees
  exact ⟨hagree _, by decide, hscan, hwalk _ _ _ hscan rfl⟩

end Expression

end BlockText

import BlockText.Dialect.Token
import BlockText.Proofs.Literal
import BlockText.Proofs.Numeral

/-!
# Tokens of expressions

The tokens of a text that is put together are those of its parts, as long as no token could go on
into what follows it. So the structure of an expression can be followed on lists of tokens: what is
balanced is passed over inside parentheses, and an operand is passed over outside of them too.
-/

namespace BlockText

open Text

namespace Lexeme

/-! ## Each token takes some of the text -/

/-- The letters by their codes. -/
theorem isAlpha_eq (c : Char) : c.isAlpha =
    (decide (65 ≤ c.val ∧ c.val ≤ 90) || decide (97 ≤ c.val) && decide (c.val ≤ 122)) :=
  rfl

theorem isPart_of_isStart {c : Char} (h : Word.isStart c = true) : Word.isPart c = true := by
  simp only [Word.isStart, Word.isPart, Char.isAlphanum, Bool.or_eq_true] at h ⊢
  tauto

theorem not_isDigit_of_isStart {c : Char} (h : Word.isStart c = true) : c.isDigit = false := by
  have hstart : 65 ≤ c.val.toNat := by
    simp only [Word.isStart, isAlpha_eq, Bool.or_eq_true, Bool.and_eq_true, decide_eq_true_eq,
      beq_iff_eq, UInt32.le_iff_toNat_le] at h
    rcases h with (h | h) | rfl
    · exact h.1
    · exact Nat.le_trans (by decide) h.1
    · decide
  simp only [Char.isDigit, UInt32.le_iff_toNat_le, ge_iff_le, Bool.and_eq_false_iff,
    decide_eq_false_iff_not]
  exact .inr fun hd => absurd (Nat.le_trans hstart hd) (by decide)

/-- Letters, digits and the underscore are among the visible characters. -/
theorem bounds_of_isPart {c : Char} (h : Word.isPart c = true) : 48 ≤ c.toNat ∧ c.toNat ≤ 122 := by
  simp only [Word.isPart, Char.isAlphanum, isAlpha_eq, Char.isDigit, Bool.or_eq_true,
    Bool.and_eq_true, decide_eq_true_eq, beq_iff_eq, ge_iff_le, UInt32.le_iff_toNat_le] at h
  rcases h with ((h | h) | h) | rfl
  · exact ⟨Nat.le_trans (by decide) h.1, Nat.le_trans h.2 (by decide)⟩
  · exact ⟨Nat.le_trans (by decide) h.1, h.2⟩
  · exact ⟨h.1, Nat.le_trans h.2 (by decide)⟩
  · decide

theorem isBlank_of_isPart {c : Char} (h : Word.isPart c = true) : isBlank c = false := by
  obtain ⟨hl, hh⟩ := bounds_of_isPart h
  simp only [isBlank, Bool.or_eq_false_iff, Bool.and_eq_false_iff, decide_eq_false_iff_not,
    beq_eq_false_iff_ne]
  omega

theorem isControl_of_isPart {c : Char} (h : Word.isPart c = true) : isControl c = false := by
  obtain ⟨hl, hh⟩ := bounds_of_isPart h
  simp only [isControl, Bool.or_eq_false_iff, Bool.and_eq_false_iff, decide_eq_false_iff_not]
  omega

theorem isPart_of_isDigit {c : Char} (h : c.isDigit = true) : Word.isPart c = true := by
  simp [Word.isPart, Char.isAlphanum, h]

theorem isPart_of_isWord {w : List Char} (h : Word.isWord w = true) :
    ∀ c ∈ w, Word.isPart c = true := by
  cases w with
  | nil => cases h
  | cons c w =>
    simp only [Word.isWord, Bool.and_eq_true, List.all_eq_true] at h
    intro d hd
    rcases List.mem_cons.mp hd with rfl | hd
    · exact isPart_of_isStart h.1
    · exact h.2 d hd

theorem spanName_append (cs : List Char) : (spanName cs).1 ++ (spanName cs).2 = cs := by
  induction cs with
  | nil => rfl
  | cons c cs ih =>
    rw [spanName]
    split
    · simp [ih]
    · rfl

theorem spanNumber_append (cs : List Char) : (spanNumber cs).1 ++ (spanNumber cs).2 = cs := by
  unfold spanNumber
  simp only
  split
  · next rest h =>
    split
    · rw [List.append_assoc, List.cons_append, List.takeWhile_append_dropWhile, ← h,
        List.takeWhile_append_dropWhile]
    · rw [← h, List.takeWhile_append_dropWhile]
  · exact List.takeWhile_append_dropWhile

theorem spanBody_append {cs : List Char} {r : List Char × List Char}
    (h : Quoted.spanBody cs = some r) : r.1 ++ r.2 = cs := by
  induction cs using Quoted.spanBody.induct generalizing r with
  | case1 => cases h
  | case2 cs => simp [Quoted.spanBody] at h
  | case3 c cs hc ih =>
    rw [Quoted.spanBody, if_neg hc] at h
    obtain ⟨q, hq, rfl⟩ := Option.map_eq_some_iff.mp h
    simp [ih hq]
  | case4 cs =>
    simp [Quoted.spanBody] at h
    subst h
    rfl
  | case5 cs _ _ => simp [Quoted.spanBody] at h
  | case6 c cs _ hq hb ih =>
    simp only [Quoted.spanBody, hq, hb, if_false] at h
    obtain ⟨q, hq, rfl⟩ := Option.map_eq_some_iff.mp h
    simp [ih hq]

theorem span_append {cs : List Char} {r : List Char × List Char}
    (h : Quoted.span cs = some r) : r.1 ++ r.2 = cs := by
  unfold Quoted.span at h
  split at h
  · obtain ⟨q, hq, rfl⟩ := Option.map_eq_some_iff.mp h
    simp [spanBody_append hq]
  · cases h

theorem first?_append {cs text rest : List Char} {t : Token}
    (h : first? cs = some (t, text, rest)) : text ++ rest = cs ∧ text ≠ [] := by
  unfold first? at h
  split at h
  -- the last case has the literals, numbers and names; the others are fixed signs
  case h_15 c cs _ _ _ _ _ _ _ _ _ _ _ _ _ =>
    split at h
    · obtain ⟨q, hq, he⟩ := Option.map_eq_some_iff.mp h
      cases he
      refine ⟨span_append hq, ?_⟩
      unfold Quoted.span at hq
      split at hq
      · obtain ⟨q, -, rfl⟩ := Option.map_eq_some_iff.mp hq
        simp
      · cases hq
    · split at h
      · next hd =>
        simp only [Option.some.injEq, Prod.mk.injEq] at h
        have hne : (spanNumber (c :: cs)).1 ≠ [] := by
          unfold spanNumber
          simp only
          split
          · split <;> simp [hd]
          · simp [hd]
        have happ := spanNumber_append (c :: cs)
        rw [h.2] at hne happ
        exact ⟨happ, hne⟩
      · split at h
        · next hs =>
          simp only [Option.some.injEq, Prod.mk.injEq] at h
          have hne : (spanName (c :: cs)).1 ≠ [] := by
            simp [spanName, isPart_of_isStart hs]
          have happ := spanName_append (c :: cs)
          rw [h.2] at hne happ
          exact ⟨happ, hne⟩
        · cases h
  all_goals
    cases h
  all_goals exact ⟨rfl, by simp⟩

/-! ## Scanning -/

theorem length_after_first {cs text rest after : List Char} {c : Char} {t : Token}
    (hdrop : cs.dropWhile isGap = c :: rest) (h : first? (c :: rest) = some (t, text, after)) :
    after.length < cs.length := by
  obtain ⟨happ, hne⟩ := first?_append h
  have hlen := congrArg List.length (List.takeWhile_append_dropWhile (p := isGap) (l := cs))
  have hpos := List.length_pos_iff.mpr hne
  rw [hdrop, ← happ, List.length_append, List.length_append] at hlen
  omega

theorem scanUpTo_of_le {cs : List Char} (fuel : Nat) (h : cs.length < fuel) :
    scanUpTo fuel cs = scan cs := by
  have key (fuel : Nat) : ∀ (fuel' : Nat) (cs : List Char), cs.length < fuel → cs.length < fuel' →
      scanUpTo fuel cs = scanUpTo fuel' cs := by
    induction fuel with
    | zero => exact fun _ _ h => absurd h (Nat.not_lt_zero _)
    | succ fuel ih =>
      intro fuel' cs h h'
      cases fuel' with
      | zero => exact absurd h' (Nat.not_lt_zero _)
      | succ fuel' =>
        rw [scanUpTo, scanUpTo]
        split
        · rfl
        · next c rest hdrop =>
          split
          · rfl
          · next token text after hfirst =>
            have hlen := length_after_first hdrop hfirst
            rw [ih fuel' after (by omega) (by omega)]
  exact key fuel _ cs h (Nat.lt_succ_self _)

theorem not_isGap_of_first {c : Char} {cs text rest : List Char} {t : Token}
    (h : first? (c :: cs) = some (t, text, rest)) : isGap c = false := by
  by_contra hgap
  rw [Bool.not_eq_false, isGap, Bool.or_eq_true, beq_iff_eq, beq_iff_eq] at hgap
  rcases hgap with rfl | rfl <;> cases h

theorem scan_gap {gap : List Char} (h : ∀ c ∈ gap, isGap c = true) :
    scan gap = some ([], gap) := by
  have htake := takeWhile_run h stops_nil
  have hdrop := dropWhile_run h stops_nil
  rw [List.append_nil] at htake hdrop
  rw [scan, scanUpTo, htake, hdrop]

/-- The first token of a text, with the blanks before it. -/
theorem scan_token {gap cs text rest : List Char} {t : Token} (hgap : ∀ c ∈ gap, isGap c = true)
    (h : first? cs = some (t, text, rest)) :
    scan (gap ++ cs) = (scan rest).map fun r => (⟨gap, t, text⟩ :: r.1, r.2) := by
  cases cs with
  | nil => cases h
  | cons c cs =>
    have hstops : Stops isGap (c :: cs) := stops_cons (not_isGap_of_first h)
    have hdrop := dropWhile_run hgap hstops
    rw [scan, scanUpTo, takeWhile_run hgap hstops, hdrop]
    simp only [h]
    rw [scanUpTo_of_le _ (length_after_first hdrop h)]

/-- The first token of a text that starts with it. -/
theorem scan_first {cs text rest : List Char} {t : Token} (h : first? cs = some (t, text, rest)) :
    scan cs = (scan rest).map fun r => (⟨[], t, text⟩ :: r.1, r.2) :=
  scan_token (List.forall_mem_nil _) h

/-- A text with tokens is blanks, or it has blanks, a token and a text with the other tokens. -/
theorem scan_cases {cs gap : List Char} {ls : List Lexeme} (h : scan cs = some (ls, gap)) :
    (ls = [] ∧ cs = gap ∧ ∀ c ∈ gap, isGap c = true) ∨
    ∃ l ms after, ls = l :: ms ∧ cs = l.gap ++ (l.text ++ after) ∧ (∀ c ∈ l.gap, isGap c = true) ∧
      first? (l.text ++ after) = some (l.token, l.text, after) ∧ scan after = some (ms, gap) := by
  have hcs := List.takeWhile_append_dropWhile (p := isGap) (l := cs)
  have hgap : ∀ c ∈ cs.takeWhile isGap, isGap c = true := List.all_eq_true.mp List.all_takeWhile
  cases hdrop : cs.dropWhile isGap with
  | nil =>
    rw [hdrop, List.append_nil] at hcs
    rw [hcs] at hgap
    rw [scan_gap hgap] at h
    cases h
    exact .inl ⟨rfl, rfl, hgap⟩
  | cons c rest =>
    cases hfirst : first? (c :: rest) with
    | none =>
      rw [scan, scanUpTo, hdrop] at h
      simp only [hfirst] at h
      cases h
    | some found =>
      obtain ⟨t, text, after⟩ := found
      rw [← hcs, hdrop, scan_token hgap hfirst] at h
      obtain ⟨r, hr, he⟩ := Option.map_eq_some_iff.mp h
      cases he
      obtain ⟨happ, -⟩ := first?_append hfirst
      rw [← happ] at hdrop hfirst
      refine .inr ⟨_, _, after, rfl, ?_, hgap, hfirst, hr⟩
      rw [← hdrop, hcs]

theorem scan_eq_nil {cs gap : List Char} :
    scan cs = some ([], gap) ↔ cs = gap ∧ ∀ c ∈ gap, isGap c = true := by
  constructor
  · intro h
    obtain ⟨-, h⟩ | ⟨l, ms, after, he, -⟩ := scan_cases h
    · exact h
    · cases he
  · rintro ⟨rfl, h⟩
    exact scan_gap h

theorem scan_eq_cons {cs gap : List Char} {l : Lexeme} {ls : List Lexeme} :
    scan cs = some (l :: ls, gap) ↔ ∃ after, cs = l.gap ++ (l.text ++ after) ∧
      (∀ c ∈ l.gap, isGap c = true) ∧ first? (l.text ++ after) = some (l.token, l.text, after) ∧
      scan after = some (ls, gap) := by
  constructor
  · intro h
    obtain ⟨he, -⟩ | ⟨_, _, after, he, h⟩ := scan_cases h
    · cases he
    · cases he
      exact ⟨after, h⟩
  · rintro ⟨after, rfl, hgap, hfirst, hafter⟩
    rw [scan_token hgap hfirst, hafter]
    rfl

/-- A blank goes to the token after it. -/
def afterSpace : List Lexeme × List Char → List Lexeme × List Char
  | ([], gap) => ([], ' ' :: gap)
  | (l :: ls, gap) => ({ l with gap := ' ' :: l.gap } :: ls, gap)

theorem scan_space (cs : List Char) : scan (' ' :: cs) = (scan cs).map afterSpace := by
  have hspace : isGap ' ' = true := by decide
  rw [scan, scan, scanUpTo, scanUpTo]
  simp only [List.takeWhile_cons, List.dropWhile_cons, hspace, if_true]
  split
  · rfl
  · next c rest hdrop =>
    split
    · rfl
    · next token text after hfirst =>
      have hlen := length_after_first hdrop hfirst
      rw [scanUpTo_of_le _ hlen, scanUpTo_of_le (' ' :: cs).length (Nat.lt_succ_of_lt hlen)]
      cases scan after <;> rfl

@[simp] theorem spell_nil : spell [] = [] := rfl

theorem spell_cons (l : Lexeme) (ls : List Lexeme) :
    spell (l :: ls) = l.gap ++ l.text ++ spell ls :=
  List.flatMap_cons

theorem spell_append (ls ms : List Lexeme) : spell (ls ++ ms) = spell ls ++ spell ms :=
  List.flatMap_append

/-- The tokens of a text spell it. -/
theorem spell_scan {cs gap : List Char} {ls : List Lexeme} (h : scan cs = some (ls, gap)) :
    spell ls ++ gap = cs := by
  induction ls generalizing cs with
  | nil => exact (scan_eq_nil.mp h).1.symm
  | cons l ls ih =>
    obtain ⟨after, rfl, -, -, hafter⟩ := scan_eq_cons.mp h
    rw [spell_cons, List.append_assoc, ih hafter, List.append_assoc]

/-- Only blanks follow the last token. -/
theorem isGap_of_scan {cs gap : List Char} {ls : List Lexeme} (h : scan cs = some (ls, gap)) :
    ∀ c ∈ gap, isGap c = true := by
  induction ls generalizing cs with
  | nil => exact (scan_eq_nil.mp h).2
  | cons l ls ih =>
    obtain ⟨after, -, -, -, hafter⟩ := scan_eq_cons.mp h
    exact ih hafter

/-! ## Texts with their tokens -/

/-- A character with which a word or a number can go on. -/
def goesOn (c : Char) : Bool := Word.isPart c || c == '.'

/-- The tokens of a text, whatever follows it that no token can go on into. -/
def Scans (t : List Char) (ls : List Lexeme) : Prop :=
  ∀ rest, Stops goesOn rest → scan (t ++ rest) = (scan rest).map fun r => (ls ++ r.1, r.2)

variable {t u : List Char} {l : Lexeme} {ls ms : List Lexeme} {k : Token}

theorem Scans.eq (h : Scans t ls) : scan t = some (ls, []) := by
  have := h [] stops_nil
  rw [List.append_nil] at this
  rw [this]
  show some (ls ++ [], []) = _
  rw [List.append_nil]

theorem Scans.spell (h : Scans t ls) : spell ls = t := by
  have := spell_scan h.eq
  rwa [List.append_nil] at this

theorem scans_nil : Scans [] [] := by
  intro rest _
  rw [List.nil_append]
  cases scan rest <;> rfl

theorem Scans.append (ht : Scans t ls) (hu : Scans u ms) (hne : u ≠ []) (hs : Stops goesOn u) :
    Scans (t ++ u) (ls ++ ms) := by
  intro rest hrest
  have hstops : Stops goesOn (u ++ rest) := by
    obtain ⟨c, cs, rfl⟩ := List.exists_cons_of_ne_nil hne
    exact stops_cons (hs c rfl)
  rw [List.append_assoc, ht _ hstops, hu rest hrest, Option.map_map]
  simp only [Function.comp_def, List.append_assoc]

theorem Scans.space (h : Scans t (l :: ls)) :
    Scans (' ' :: t) ({ l with gap := ' ' :: l.gap } :: ls) := by
  intro rest hrest
  rw [List.cons_append, scan_space, h rest hrest, Option.map_map]
  rfl

theorem scans_first (h : ∀ rest, Stops goesOn rest → first? (t ++ rest) = some (k, t, rest)) :
    Scans t [⟨[], k, t⟩] := by
  intro rest hrest
  rw [scan_first (h rest hrest)]
  rfl

/-- A sign that is a token whatever follows it. -/
theorem Scans.sign (h : Scans t ls) (hu : ∀ rest, first? (u ++ rest) = some (k, u, rest)) :
    Scans (u ++ t) (⟨[], k, u⟩ :: ls) := by
  intro rest hrest
  rw [List.append_assoc, scan_first (hu _), h rest hrest, Option.map_map]
  rfl

theorem first?_digit {c : Char} (cs : List Char) (h : c.isDigit = true) :
    first? (c :: cs) = some (.number, spanNumber (c :: cs)) := by
  unfold first?
  split
  case h_15 c' cs' _ _ _ _ _ _ _ _ _ _ _ _ _ he =>
    obtain ⟨rfl, rfl⟩ := List.cons.inj he
    have hq : c ≠ '"' := by
      rintro rfl
      cases h
    rw [if_neg hq, if_pos h]
  all_goals
    next he =>
      cases he
      try cases h

theorem first?_start {c : Char} (cs : List Char) (h : Word.isStart c = true) :
    first? (c :: cs) = some (.name, spanName (c :: cs)) := by
  unfold first?
  split
  case h_15 c' cs' _ _ _ _ _ _ _ _ _ _ _ _ _ he =>
    obtain ⟨rfl, rfl⟩ := List.cons.inj he
    have hq : c ≠ '"' := by
      rintro rfl
      cases h
    rw [if_neg hq, if_neg (by rw [not_isDigit_of_isStart h]; decide), if_pos h]
  all_goals
    next he =>
      cases he
      try cases h

/-- A numeral ends before a text that does not start with a digit. Without a fraction, it has no
point with a digit after it either. -/
theorem spanNumber_numeral {whole fraction rest : List Char}
    (hwhole : ∀ c ∈ whole, c.isDigit = true) (hfraction : ∀ c ∈ fraction, c.isDigit = true)
    (hdigit : Stops Char.isDigit rest)
    (hpoint : fraction = [] → ∀ more, rest = '.' :: more → Stops Char.isDigit more) :
    spanNumber (Decimal.numeral whole fraction ++ rest) =
      (Decimal.numeral whole fraction, rest) := by
  have hstops := Double.stops_numeral_tail fraction rest hdigit
  unfold spanNumber
  rw [Decimal.numeral, List.append_assoc, takeWhile_run hwhole hstops, dropWhile_run hwhole hstops]
  cases fraction with
  | nil =>
    rw [List.isEmpty_nil, if_pos rfl, List.nil_append, List.append_nil]
    simp only
    split
    · next more =>
      have hmore : more.head?.any Char.isDigit = false := by
        cases hhead : more.head? with
        | none => rfl
        | some c => exact hpoint rfl more rfl c hhead
      rw [hmore, if_neg Bool.false_ne_true]
    · rfl
  | cons d ds =>
    rw [List.isEmpty_cons, if_neg Bool.false_ne_true, List.cons_append]
    simp only [List.cons_append, List.head?_cons, Option.any_some,
      hfraction d List.mem_cons_self, if_true]
    rw [← List.cons_append, takeWhile_run hfraction hdigit, dropWhile_run hfraction hdigit]

/-- A numeral is one token. -/
theorem scans_numeral {whole fraction : List Char} (h : Decimal.IsNumeral whole fraction) :
    Scans (Decimal.numeral whole fraction) [⟨[], .number, Decimal.numeral whole fraction⟩] := by
  refine scans_first fun rest hrest => ?_
  have hdigit : Stops Char.isDigit rest := by
    intro c hc
    have := hrest c hc
    simp only [goesOn, Word.isPart, Char.isAlphanum, Bool.or_eq_false_iff] at this
    exact this.1.1.2
  have hpoint : rest.head? ≠ some '.' := by
    intro hc
    have := hrest '.' hc
    cases this
  obtain ⟨c, cs, hcs, hc⟩ := Double.isDigit_head h
  have hspan := spanNumber_numeral h.whole_digits h.fraction_digits hdigit fun _ more he =>
    absurd (congrArg List.head? he) hpoint
  rw [hcs] at hspan ⊢
  rw [List.cons_append] at hspan ⊢
  rw [first?_digit _ hc, hspan]

/-- A literal is a token whatever follows it. -/
theorem first?_literal (cs rest : List Char) :
    first? (Quoted.encode cs ++ rest) = some (.literal, Quoted.encode cs, rest) := by
  have hspan := Quoted.span_encode_append cs rest
  show (Quoted.span (Quoted.encode cs ++ rest)).map (fun r => (Token.literal, r.1, r.2)) = _
  rw [hspan]
  rfl

/-- A literal is one token. -/
theorem scans_literal (cs : List Char) :
    Scans (Quoted.encode cs) [⟨[], .literal, Quoted.encode cs⟩] :=
  scans_first fun rest _ => first?_literal cs rest

theorem spanName_run {w rest : List Char} (hw : ∀ c ∈ w, Word.isPart c = true)
    (hrest : Stops goesOn rest) : spanName (w ++ rest) = (w, rest) := by
  induction w with
  | nil =>
    cases rest with
    | nil => rfl
    | cons c rest =>
      have hc := hrest c rfl
      rw [goesOn, Bool.or_eq_false_iff] at hc
      rw [List.nil_append, spanName, hc.1, hc.2]
      rfl
  | cons c w ih =>
    rw [List.cons_append, spanName, hw c List.mem_cons_self, Bool.true_or, if_pos rfl,
      ih fun d hd => hw d (List.mem_cons_of_mem _ hd)]

theorem spanName_dotted {a b rest : List Char} (ha : ∀ c ∈ a, Word.isPart c = true)
    (hb : Word.isWord b = true) (hrest : Stops goesOn rest) :
    spanName (a ++ '.' :: (b ++ rest)) = (a ++ '.' :: b, rest) := by
  induction a with
  | nil =>
    cases b with
    | nil => cases hb
    | cons c b =>
      have hparts := isPart_of_isWord hb
      simp only [Word.isWord, Bool.and_eq_true, List.all_eq_true] at hb
      have hpoint : (Word.isPart '.' || '.' == '.' &&
          (c :: b ++ rest).head?.any Word.isStart) = true := by simp [hb.1]
      rw [List.nil_append, spanName, if_pos hpoint, spanName_run hparts hrest]
      rfl
  | cons c a ih =>
    rw [List.cons_append, spanName, ha c List.mem_cons_self, Bool.true_or, if_pos rfl,
      ih fun d hd => ha d (List.mem_cons_of_mem _ hd)]
    rfl

/-- A word is one token. -/
theorem scans_word {w : List Char} (h : Word.isWord w = true) : Scans w [⟨[], .name, w⟩] := by
  cases w with
  | nil => cases h
  | cons c w =>
    have hparts := isPart_of_isWord h
    simp only [Word.isWord, Bool.and_eq_true] at h
    refine scans_first fun rest hrest => ?_
    have hspan := spanName_run hparts hrest
    rw [List.cons_append] at hspan ⊢
    rw [first?_start _ h.1, hspan]

/-- A word with a point and another word is one token. -/
theorem scans_dotted {a b : List Char} (ha : Word.isWord a = true) (hb : Word.isWord b = true) :
    Scans (a ++ '.' :: b) [⟨[], .name, a ++ '.' :: b⟩] := by
  cases a with
  | nil => cases ha
  | cons c a =>
    have hparts := isPart_of_isWord ha
    simp only [Word.isWord, Bool.and_eq_true] at ha
    refine scans_first fun rest hrest => ?_
    have hspan := spanName_dotted hparts hb hrest
    have htext : c :: a ++ '.' :: b ++ rest = c :: (a ++ '.' :: (b ++ rest)) := by simp
    rw [htext, first?_start _ ha.1]
    exact congrArg (fun r => some (Token.name, r)) hspan

end Lexeme

end BlockText

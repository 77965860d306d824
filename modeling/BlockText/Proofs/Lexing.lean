import BlockText.Proofs.Delimiters

/-!
# Texts put together and taken apart

What the tokens of any text are, and not only of one that was written. A token is found by what
stands right after it: it stays the token it is when the text is cut off behind it, and when a
character follows that can go on no token. So a text with tokens can be put before another text,
and the tokens of a text belong to the parts that they spell.
-/

namespace BlockText

open Text

namespace Lexeme

variable {cs text rest rest' gap : List Char} {t : Token} {l : Lexeme} {ls ms : List Lexeme}

/-! ## What a token can be -/

/-- The tokens that are always spelled alike. -/
def signs : List (Token × List Char) :=
  [(.opening, ['(']), (.closing, [')']), (.comma, [',']), (.operator, ['=', '=']),
    (.operator, ['!', '=']), (.operator, ['<', '=']), (.operator, ['>', '=']), (.operator, ['<']),
    (.operator, ['>']), (.operator, ['+']), (.operator, ['-']), (.operator, ['*']),
    (.operator, ['/'])]

/-- A sign ends before a text, unless both together are a comparison. -/
def EndsBefore (sign rest : List Char) : Prop := sign = ['<'] ∨ sign = ['>'] → rest.head? ≠ some '='

theorem first?_cases (h : first? cs = some (t, text, rest)) :
    ((t, text) ∈ signs ∧ EndsBefore text rest) ∨
    (t = .literal ∧ Quoted.span cs = some (text, rest)) ∨
    (t = .number ∧ cs.head?.any Char.isDigit = true ∧ spanNumber cs = (text, rest)) ∨
    (t = .name ∧ cs.head?.any Word.isStart = true ∧ spanName cs = (text, rest)) := by
  unfold first? at h
  split at h
  case h_1 => cases h
  case h_15 c cs _ _ _ _ _ _ _ _ _ _ _ _ _ =>
    right
    by_cases hquote : c = '"'
    · rw [if_pos hquote] at h
      obtain ⟨r, hr, he⟩ := Option.map_eq_some_iff.mp h
      cases he
      exact .inl ⟨rfl, hr⟩
    · rw [if_neg hquote] at h
      by_cases hdigit : c.isDigit = true
      · rw [if_pos hdigit] at h
        obtain ⟨rfl, hspan⟩ := Prod.mk.inj (Option.some.inj h)
        exact .inr (.inl ⟨rfl, hdigit, hspan⟩)
      · rw [if_neg hdigit] at h
        by_cases hstart : Word.isStart c = true
        · rw [if_pos hstart] at h
          obtain ⟨rfl, hspan⟩ := Prod.mk.inj (Option.some.inj h)
          exact .inr (.inr ⟨rfl, hstart, hspan⟩)
        · rw [if_neg hstart] at h
          cases h
  -- the angles are the only signs that look at what follows
  case h_9 hequal | h_10 hequal =>
    cases h
    refine .inl ⟨by decide, fun _ hhead => ?_⟩
    obtain ⟨more, rfl⟩ := List.head?_eq_some_iff.mp hhead
    exact hequal more rfl
  all_goals
    cases h
    exact .inl ⟨by decide, by simp [EndsBefore]⟩

theorem first?_sign (h : (t, text) ∈ signs) (hends : EndsBefore text rest) :
    first? (text ++ rest) = some (t, text, rest) := by
  have hangle (c : Char) (hc : c = '<' ∨ c = '>') (hrest : rest.head? ≠ some '=') :
      first? (c :: rest) = some (.operator, [c], rest) := by
    cases rest with
    | nil => rcases hc with rfl | rfl <;> rfl
    | cons d rest =>
      have hd : d ≠ '=' := fun he => hrest (congrArg some he)
      rcases hc with rfl | rfl <;> simp [first?, hd]
  have hsigns : ∀ s ∈ signs, s = (.operator, ['<']) ∨ s = (.operator, ['>']) ∨
      first? (s.2 ++ rest) = some (s.1, s.2, rest) := by
    simp [signs, first?]
  rcases hsigns _ h with he | he | hfirst
  · cases he
    exact hangle '<' (.inl rfl) (hends (.inl rfl))
  · cases he
    exact hangle '>' (.inr rfl) (hends (.inr rfl))
  · exact hfirst

theorem first?_span (h : Quoted.span cs = some (text, rest)) :
    first? cs = some (.literal, text, rest) := by
  unfold Quoted.span at h
  split at h
  · next body =>
    show (Quoted.span ('"' :: body)).map (fun r => (Token.literal, r.1, r.2)) = _
    rw [Quoted.span, h]
    rfl
  · cases h

/-! ## What follows a token -/

/-- A character with which some token can go on. -/
def lengthens (c : Char) : Bool := goesOn c || c == '='

/-- A text may stand after a token in place of another one: it is a beginning of that, or it is that
text with more after it that goes on no token. -/
def MayFollow (rest rest' : List Char) : Prop :=
  rest' <+: rest ∨ ∃ more, rest' = rest ++ more ∧ Stops lengthens more

theorem MayFollow.stops {p : Char → Bool} (h : MayFollow rest rest')
    (hp : ∀ c, p c = true → lengthens c = true) (hrest : Stops p rest) : Stops p rest' := by
  intro c hc
  rcases h with ⟨more, rfl⟩ | ⟨more, rfl, hstops⟩
  · refine hrest c ?_
    rw [List.head?_append, show rest'.head? = some c from hc]
    rfl
  · cases rest with
    | cons d rest => exact hrest c hc
    | nil =>
      have hlengthens := hstops c hc
      rw [← Bool.not_eq_true]
      intro hpc
      rw [hp c hpc] at hlengthens
      cases hlengthens

/-- A point comes from the first text, and the same is true behind it. -/
theorem MayFollow.point {more' : List Char} (h : MayFollow rest ('.' :: more')) :
    ∃ more, rest = '.' :: more ∧ MayFollow more more' := by
  rcases h with ⟨more, rfl⟩ | ⟨more, he, hstops⟩
  · exact ⟨more' ++ more, rfl, .inl (List.prefix_append _ _)⟩
  · cases rest with
    | cons d rest =>
      obtain ⟨rfl, rfl⟩ := List.cons.inj he
      exact ⟨rest, rfl, .inr ⟨more, rfl, hstops⟩⟩
    | nil =>
      rw [List.nil_append] at he
      rw [← he] at hstops
      cases hstops '.' rfl

/-- A name ends before a text: no part of a word follows, and no point with a word after it. -/
def NameEnds (rest : List Char) : Prop :=
  Stops Word.isPart rest ∧ ∀ more, rest = '.' :: more → Stops Word.isStart more

theorem spanName_eq_nil : spanName rest = ([], rest) ↔ NameEnds rest := by
  cases rest with
  | nil => exact iff_of_true rfl ⟨stops_nil, by simp⟩
  | cons c rest =>
    have hparts : NameEnds (c :: rest) ↔
        (Word.isPart c || (c == '.' && rest.head?.any Word.isStart)) = false := by
      rw [Bool.or_eq_false_iff, Bool.and_eq_false_imp, beq_iff_eq]
      refine and_congr ⟨fun h => h c rfl, stops_cons⟩ ⟨?_, ?_⟩
      · rintro h rfl
        cases hhead : rest.head? with
        | none => rfl
        | some d => exact h rest rfl d hhead
      · rintro h more he d hd
        cases he
        have := h rfl
        rwa [show rest.head? = some d from hd] at this
    rw [hparts, spanName]
    split
    · next h => simp [h]
    · next h => simp [h]

/-- What goes on right before the end of a name is a part of a word. -/
theorem NameEnds.isPart {c : Char} (h : NameEnds rest)
    (hgoes : (Word.isPart c || (c == '.' && rest.head?.any Word.isStart)) = true) :
    Word.isPart c = true := by
  have hnone : rest.head?.any Word.isStart = false := by
    cases hhead : rest.head? with
    | none => rfl
    | some d =>
      have hpart := h.1 d hhead
      rw [Option.any_some, ← Bool.not_eq_true]
      intro hstart
      rw [isPart_of_isStart hstart] at hpart
      cases hpart
  rwa [hnone, Bool.and_false, Bool.or_false] at hgoes

theorem MayFollow.nameEnds (h : MayFollow rest rest') (hrest : NameEnds rest) : NameEnds rest' := by
  have hpart (c : Char) (hc : Word.isPart c = true) : lengthens c = true := by
    rw [lengthens, goesOn, hc]
    rfl
  refine ⟨h.stops hpart hrest.1, ?_⟩
  rintro more rfl
  obtain ⟨more', hmore, hfollow⟩ := h.point
  exact hfollow.stops (fun c hc => hpart c (isPart_of_isStart hc)) (hrest.2 more' hmore)

theorem spanName_front (h : spanName (text ++ rest) = (text, rest)) (hr : MayFollow rest rest') :
    spanName (text ++ rest') = (text, rest') := by
  induction text with
  | nil => exact spanName_eq_nil.mpr (hr.nameEnds (spanName_eq_nil.mp h))
  | cons c text ih =>
    rw [List.cons_append, spanName] at h ⊢
    by_cases hgoes : (Word.isPart c || (c == '.' && (text ++ rest).head?.any Word.isStart)) = true
    · rw [if_pos hgoes] at h
      obtain ⟨htext, hrest⟩ := Prod.mk.inj h
      have hspan : spanName (text ++ rest) = (text, rest) :=
        Prod.ext (List.cons.inj htext).2 hrest
      have hgoes' :
          (Word.isPart c || (c == '.' && (text ++ rest').head?.any Word.isStart)) = true := by
        cases text with
        | cons d text => exact hgoes
        | nil =>
          rw [(spanName_eq_nil.mp hspan).isPart hgoes, Bool.true_or]
      rw [if_pos hgoes', ih hspan]
    · rw [if_neg hgoes] at h
      cases h

theorem spanNumber_cases (cs : List Char) : ∃ whole fraction,
    (∀ c ∈ whole, c.isDigit = true) ∧ (∀ c ∈ fraction, c.isDigit = true) ∧
      (spanNumber cs).1 = Decimal.numeral whole fraction ∧ Stops Char.isDigit (spanNumber cs).2 ∧
      (fraction = [] → ∀ more, (spanNumber cs).2 = '.' :: more → Stops Char.isDigit more) := by
  have hdigits (cs : List Char) : ∀ c ∈ cs.takeWhile Char.isDigit, c.isDigit = true :=
    List.all_eq_true.mp List.all_takeWhile
  unfold spanNumber
  dsimp only
  split
  · next rest hdrop =>
    by_cases hhead : rest.head?.any Char.isDigit = true
    · rw [if_pos hhead]
      have hne : (rest.takeWhile Char.isDigit).isEmpty = false := by
        cases rest with
        | nil => cases hhead
        | cons d rest => simp [show d.isDigit = true from hhead]
      refine ⟨_, _, hdigits cs, hdigits rest, ?_, stops_dropWhile _ _, fun he => ?_⟩
      · rw [Decimal.numeral, hne, if_neg Bool.false_ne_true]
      · rw [he] at hne
        cases hne
    · rw [if_neg hhead]
      refine ⟨_, [], hdigits cs, by simp, (List.append_nil _).symm, stops_cons (by decide), ?_⟩
      rintro - more he c hc
      cases he
      rw [show rest.head? = some c from hc] at hhead
      simpa using hhead
  · next hpoint =>
    refine ⟨_, [], hdigits cs, by simp, (List.append_nil _).symm, stops_dropWhile _ _, ?_⟩
    rintro - more he
    exact absurd he (hpoint more)

theorem spanNumber_front (h : spanNumber (text ++ rest) = (text, rest))
    (hr : MayFollow rest rest') : spanNumber (text ++ rest') = (text, rest') := by
  obtain ⟨whole, fraction, hwhole, hfraction, htext, hdigit, hpoint⟩ :=
    spanNumber_cases (text ++ rest)
  rw [h] at htext hdigit hpoint
  rw [show text = Decimal.numeral whole fraction from htext]
  have hlengthens (c : Char) (hc : c.isDigit = true) : lengthens c = true := by
    rw [lengthens, goesOn, isPart_of_isDigit hc]
    rfl
  refine spanNumber_numeral hwhole hfraction (hr.stops hlengthens hdigit) ?_
  rintro he more rfl
  obtain ⟨more', hmore, hfollow⟩ := hr.point
  exact hfollow.stops hlengthens (hpoint he more' hmore)

/-- A token is found again before what may follow it. -/
theorem first?_front (h : first? (text ++ rest) = some (t, text, rest))
    (hr : MayFollow rest rest') : first? (text ++ rest') = some (t, text, rest') := by
  obtain ⟨hsign, hends⟩ | ⟨rfl, hspan⟩ | ⟨rfl, hhead, hspan⟩ | ⟨rfl, hhead, hspan⟩ := first?_cases h
  · refine first?_sign hsign fun hangle => ?_
    have hstops : Stops (· == '=') rest := by
      intro c hc
      rw [beq_eq_false_iff_ne]
      rintro rfl
      exact hends hangle hc
    have := hr.stops (fun c hc => ?_) hstops
    intro hhead
    cases this '=' hhead
    rw [lengthens, hc, Bool.or_true]
  · exact first?_span (Quoted.span_front hspan rest')
  · obtain ⟨-, hne⟩ := first?_append h
    obtain ⟨c, text, rfl⟩ := List.exists_cons_of_ne_nil hne
    have := spanNumber_front hspan hr
    rw [List.cons_append] at this ⊢
    rw [first?_digit _ hhead, this]
  · obtain ⟨-, hne⟩ := first?_append h
    obtain ⟨c, text, rfl⟩ := List.exists_cons_of_ne_nil hne
    have := spanName_front hspan hr
    rw [List.cons_append] at this ⊢
    rw [first?_start _ hhead, this]

/-! ## The ends of a token -/

theorem getLast?_spanName (cs : List Char) :
    ∀ c ∈ (spanName cs).1.getLast?, Word.isPart c = true := by
  induction cs with
  | nil => simp [spanName]
  | cons c cs ih =>
    rw [spanName]
    split
    · next hgoes =>
      have happ := spanName_append cs
      dsimp only
      cases hinner : (spanName cs).1 with
      | cons d ds =>
        rw [hinner] at ih
        rw [List.getLast?_cons_cons]
        exact ih
      | nil =>
        rw [hinner, List.nil_append] at happ
        rintro d hd
        cases hd
        exact (spanName_eq_nil.mp (Prod.ext hinner happ)).isPart hgoes
    · simp

theorem getLast?_numeral {whole fraction : List Char} (hwhole : ∀ c ∈ whole, c.isDigit = true)
    (hfraction : ∀ c ∈ fraction, c.isDigit = true) :
    ∀ c ∈ (Decimal.numeral whole fraction).getLast?, c.isDigit = true := by
  intro c hc
  cases fraction with
  | nil =>
    rw [Decimal.numeral, List.isEmpty_nil, if_pos rfl, List.append_nil] at hc
    exact hwhole c (List.mem_of_getLast? hc)
  | cons d ds =>
    rw [Decimal.numeral, List.isEmpty_cons, if_neg Bool.false_ne_true, List.getLast?_append,
      List.getLast?_cons_cons, List.getLast?_eq_some_getLast (List.cons_ne_nil d ds),
      Option.some_or, ← List.getLast?_eq_some_getLast] at hc
    exact hfraction c (List.mem_of_getLast? hc)

/-- The ends of a token: no blanks, and a closing parenthesis only if that is the token. -/
def Ends (t : Token) (text : List Char) : Prop :=
  Trimmed text ∧ (text.getLast? = some ')' → t = .closing ∧ text = [')'])

theorem ends_of_parts (hne : text ≠ []) (hhead : ∀ c ∈ text.head?, Word.isPart c = true)
    (hlast : ∀ c ∈ text.getLast?, Word.isPart c = true) : Ends t text :=
  ⟨⟨hne, fun c hc => isBlank_of_isPart (hhead c hc), fun c hc => isBlank_of_isPart (hlast c hc)⟩,
    fun hc => absurd (hlast _ hc) (by decide)⟩

theorem ends_of_first (h : first? cs = some (t, text, rest)) : Ends t text := by
  obtain ⟨rfl, hne⟩ := first?_append h
  have hhead : text.head? = (text ++ rest).head? := by
    obtain ⟨c, text, rfl⟩ := List.exists_cons_of_ne_nil hne
    rfl
  obtain ⟨hsign, -⟩ | ⟨rfl, hspan⟩ | ⟨rfl, hdigit, hspan⟩ | ⟨rfl, hstart, hspan⟩ := first?_cases h
  · have hsigns : ∀ s ∈ signs, (s.2.head?.any (fun c => !isBlank c) = true ∧
        s.2.getLast?.any (fun c => !isBlank c) = true) ∧
        (s.2.getLast? = some ')' → s.1 = .closing ∧ s.2 = [')']) := by decide
    obtain ⟨⟨hs, he⟩, hclosing⟩ := hsigns _ hsign
    exact ⟨trimmed_of_ends hs he, hclosing⟩
  · unfold Quoted.span at hspan
    split at hspan
    · obtain ⟨r, hr, he⟩ := Option.map_eq_some_iff.mp hspan
      cases he
      obtain ⟨body, hbody, -⟩ := Quoted.delimited_of_spanBody hr
      have hlast : ('"' :: r.1).getLast? = some '"' := by
        rw [hbody, ← List.cons_append, List.getLast?_concat]
      refine ⟨trimmed_of_ends rfl (by rw [hlast]; rfl), fun he => ?_⟩
      rw [hlast] at he
      cases he
    · cases hspan
  · obtain ⟨whole, fraction, hwhole, hfraction, htext, -⟩ := spanNumber_cases (text ++ rest)
    rw [hspan] at htext
    refine ends_of_parts hne (fun c hc => ?_) fun c hc => ?_
    · rw [← hhead, show text.head? = some c from hc] at hdigit
      exact isPart_of_isDigit hdigit
    · rw [show text = Decimal.numeral whole fraction from htext] at hc
      exact isPart_of_isDigit (getLast?_numeral hwhole hfraction c hc)
  · have hlast := getLast?_spanName (text ++ rest)
    rw [hspan] at hlast
    refine ends_of_parts hne (fun c hc => ?_) hlast
    rw [← hhead, show text.head? = some c from hc] at hstart
    exact isPart_of_isStart hstart

/-! ## Tokens of parts -/

/-- Blanks before a text go to its first token. -/
theorem scan_gap_append {last : List Char} (hgap : ∀ c ∈ gap, isGap c = true)
    (h : scan cs = some (l :: ls, last)) :
    scan (gap ++ cs) = some ({ l with gap := gap ++ l.gap } :: ls, last) := by
  obtain ⟨after, rfl, hl, hfirst, hafter⟩ := scan_eq_cons.mp h
  refine scan_eq_cons.mpr ⟨after, (List.append_assoc _ _ _).symm, ?_, hfirst, hafter⟩
  exact List.forall_mem_append.mpr ⟨hgap, hl⟩

/-- Blanks after a text follow its last token. -/
theorem scan_append_gap {gap' : List Char} (h : scan cs = some (ls, gap))
    (hgap : ∀ c ∈ gap', isGap c = true) : scan (cs ++ gap') = some (ls, gap ++ gap') := by
  have hstops : Stops lengthens gap' := by
    intro c hc
    have := hgap c (List.mem_of_mem_head? hc)
    rw [isGap, Bool.or_eq_true, beq_iff_eq, beq_iff_eq] at this
    rcases this with rfl | rfl <;> decide
  induction ls generalizing cs with
  | nil =>
    obtain ⟨rfl, hcs⟩ := scan_eq_nil.mp h
    exact scan_eq_nil.mpr ⟨rfl, List.forall_mem_append.mpr ⟨hcs, hgap⟩⟩
  | cons l ls ih =>
    obtain ⟨after, rfl, hl, hfirst, hafter⟩ := scan_eq_cons.mp h
    refine scan_eq_cons.mpr ⟨after ++ gap', by simp, hl, ?_, ih hafter⟩
    exact first?_front hfirst (.inr ⟨gap', rfl, hstops⟩)

/-- A text that goes on no token has its own tokens after those of another text. -/
theorem scan_append {last : List Char} (h : scan cs = some (ls, gap))
    (hrest : scan rest = some (l :: ms, last)) (hstops : Stops lengthens rest) :
    scan (cs ++ rest) = some (ls ++ { l with gap := gap ++ l.gap } :: ms, last) := by
  induction ls generalizing cs with
  | nil =>
    obtain ⟨rfl, hcs⟩ := scan_eq_nil.mp h
    exact scan_gap_append hcs hrest
  | cons k ls ih =>
    obtain ⟨after, rfl, hk, hfirst, hafter⟩ := scan_eq_cons.mp h
    refine scan_eq_cons.mpr ⟨after ++ rest, by simp, hk, ?_, ih hafter⟩
    exact first?_front hfirst (.inr ⟨rest, rfl, hstops⟩)

/-- Every token is found in front of some text, and only blanks stand before it. -/
theorem first?_of_mem_scan {last : List Char} (h : scan cs = some (ls, last)) (hl : l ∈ ls) :
    (∀ c ∈ l.gap, isGap c = true) ∧
      ∃ after, first? (l.text ++ after) = some (l.token, l.text, after) := by
  induction ls generalizing cs with
  | nil => cases hl
  | cons k ls ih =>
    obtain ⟨after, -, hk, hfirst, hafter⟩ := scan_eq_cons.mp h
    rcases List.mem_cons.mp hl with rfl | hl
    · exact ⟨hk, after, hfirst⟩
    · exact ih hafter hl

/-- A text without blanks after its last token ends as that does. -/
theorem getLast?_scan (h : scan cs = some (ls ++ [l], [])) : cs.getLast? = l.text.getLast? := by
  obtain ⟨-, after, hfirst⟩ := first?_of_mem_scan h (l := l) (by simp)
  rw [← spell_scan h, spell_append, spell_cons, spell_nil, List.append_nil, List.append_nil,
    ← List.append_assoc, List.getLast?_append,
    List.getLast?_eq_some_getLast (first?_append hfirst).2, Option.some_or]

/-- The last of some tokens are those of the text that they spell. -/
theorem scan_back {last : List Char} (h : scan cs = some (ls ++ ms, last)) :
    scan (spell ms ++ last) = some (ms, last) := by
  induction ls generalizing cs with
  | nil =>
    rw [List.nil_append] at h
    rwa [spell_scan h]
  | cons l ls ih =>
    obtain ⟨after, -, -, -, hafter⟩ := scan_eq_cons.mp h
    exact ih hafter

/-- The first of some tokens are those of the text that they spell, with blanks that follow. -/
theorem scan_front {last : List Char} (h : scan cs = some (ls ++ ms, last))
    (hgap : ∀ c ∈ gap, isGap c = true) (hfollow : gap <+: spell ms ++ last) :
    scan (spell ls ++ gap) = some (ls, gap) := by
  induction ls generalizing cs with
  | nil => exact scan_gap hgap
  | cons l ls ih =>
    rw [List.cons_append] at h
    obtain ⟨after, -, hl, hfirst, hafter⟩ := scan_eq_cons.mp h
    have hspell : after = spell ls ++ (spell ms ++ last) := by
      rw [← spell_scan hafter, spell_append, List.append_assoc]
    refine scan_eq_cons.mpr ⟨spell ls ++ gap, ?_, hl, ?_, ih hafter⟩
    · rw [spell_cons, List.append_assoc, List.append_assoc]
    · refine first?_front hfirst (.inl ?_)
      rw [hspell, List.prefix_append_right_inj]
      exact hfollow

end Lexeme

end BlockText

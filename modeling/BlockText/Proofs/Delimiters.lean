import BlockText.Proofs.Tokens

/-!
# Where literals end

Two readers know literals: the decoder, which gives the text of one, and the span, by which tokens
and idioms find where one ends. Every literal that can be decoded ends for the span where it ends
for the decoder. A quote inside is escaped, which is seen by counting: the backslashes right before
it are odd in number. The backslashes before the closing quote are even in number.
-/

namespace BlockText.Quoted

variable {c : Char} {cs t u rest : List Char}

/-! ## Escaped characters -/

/-- The number of backslashes at the end of a text. -/
def trailing (cs : List Char) : Nat := (cs.reverse.takeWhile (· == '\\')).length

/-- What follows a text is escaped. -/
def Escapes (cs : List Char) : Prop := trailing cs % 2 = 1

instance (cs : List Char) : Decidable (Escapes cs) := inferInstanceAs (Decidable (_ = _))

theorem trailing_le (cs : List Char) : trailing cs ≤ cs.length := by
  have hle := (List.takeWhile_prefix (l := cs.reverse) (· == '\\')).length_le
  rwa [List.length_reverse] at hle

/-- A backslash at the front counts only before nothing but backslashes. -/
theorem trailing_cons (c : Char) (cs : List Char) : trailing (c :: cs) =
    if trailing cs = cs.length ∧ c = '\\' then trailing cs + 1 else trailing cs := by
  have hcons : trailing (c :: cs) =
      if trailing cs = cs.length then cs.length + trailing [c] else trailing cs := by
    rw [trailing, trailing, List.reverse_cons, List.takeWhile_append, List.length_reverse]
    split <;> simp [trailing]
  have hone : trailing [c] = if c = '\\' then 1 else 0 := by
    by_cases hc : c = '\\' <;> simp [trailing, hc]
  rw [hcons, hone]
  by_cases hall : trailing cs = cs.length <;> by_cases hc : c = '\\' <;> simp [hall, hc]

/-- A plain character does not matter to what is escaped after it. -/
theorem escapes_cons (hc : c ≠ '\\') (cs : List Char) : Escapes (c :: cs) ↔ Escapes cs := by
  rw [Escapes, trailing_cons, if_neg fun h => hc h.2, Escapes]

/-- Nor does an escaped one, together with its backslash. -/
theorem escapes_cons_cons (c : Char) (cs : List Char) :
    Escapes ('\\' :: c :: cs) ↔ Escapes cs := by
  have hle := trailing_le cs
  rw [Escapes, trailing_cons, trailing_cons c cs, List.length_cons, Escapes]
  -- both backslashes count, or neither does
  by_cases hboth : trailing cs = cs.length ∧ c = '\\'
  · rw [if_pos hboth, if_pos ⟨by omega, rfl⟩]
    omega
  · rw [if_neg hboth, if_neg fun h => by omega]

/-! ## Between the quotes -/

/-- The text between the quotes of a literal: each quote in it is escaped, and a quote after it is
not. -/
structure Delimited (body : List Char) : Prop where
  inner : ∀ before after, body = before ++ '"' :: after → Escapes before
  last : ¬ Escapes body

theorem delimited_nil : Delimited [] where
  inner before after h := by simp at h
  last := by decide

theorem Delimited.cons (h : Delimited cs) (hq : c ≠ '"') (hb : c ≠ '\\') :
    Delimited (c :: cs) where
  inner before after he := by
    cases before with
    | nil => exact absurd (List.cons.inj he).1 hq
    | cons d before =>
      obtain ⟨rfl, hrest⟩ := List.cons.inj he
      exact (escapes_cons hb before).mpr (h.inner before after hrest)
  last := (escapes_cons hb cs).not.mpr h.last

theorem Delimited.cons_cons (h : Delimited cs) (c : Char) : Delimited ('\\' :: c :: cs) where
  inner before after he := by
    rcases before with - | ⟨d, - | ⟨e, before⟩⟩
    · have := (List.cons.inj he).1
      revert this
      decide
    -- the quote that is escaped itself
    · rw [← (List.cons.inj he).1]
      decide
    · obtain ⟨hd, he⟩ := List.cons.inj he
      obtain ⟨rfl, hrest⟩ := List.cons.inj he
      rw [← hd]
      exact (escapes_cons_cons c before).mpr (h.inner before after hrest)
  last := (escapes_cons_cons c cs).not.mpr h.last

/-- The span of a literal ends at the first quote that is not escaped. -/
theorem delimited_of_spanBody (h : spanBody cs = some (t, rest)) :
    ∃ body, t = body ++ ['"'] ∧ Delimited body := by
  induction cs using spanBody.induct generalizing t rest with
  | case1 => cases h
  | case2 cs => simp [spanBody] at h
  | case3 c cs hc ih =>
    rw [spanBody, if_neg hc] at h
    obtain ⟨r, hr, he⟩ := Option.map_eq_some_iff.mp h
    cases he
    obtain ⟨body, hbody, hdelimited⟩ := ih hr
    exact ⟨'\\' :: c :: body, by rw [hbody]; rfl, hdelimited.cons_cons c⟩
  | case4 cs =>
    simp only [spanBody, if_true, Option.some.injEq, Prod.mk.injEq] at h
    exact ⟨[], h.1.symm, delimited_nil⟩
  | case5 cs _ _ => simp [spanBody] at h
  | case6 c cs _ hquote hback ih =>
    rw [spanBody_cons hquote hback] at h
    obtain ⟨r, hr, he⟩ := Option.map_eq_some_iff.mp h
    cases he
    obtain ⟨body, hbody, hdelimited⟩ := ih hr
    exact ⟨c :: body, by rw [hbody]; rfl, hdelimited.cons hquote hback⟩

/-- Where a literal ends does not depend on what follows it. -/
theorem spanBody_front {cs t rest : List Char} (h : spanBody cs = some (t, rest))
    (rest' : List Char) : spanBody (t ++ rest') = some (t, rest') := by
  induction cs using spanBody.induct generalizing t rest with
  | case1 => cases h
  | case2 cs => simp [spanBody] at h
  | case3 c cs hc ih =>
    rw [spanBody, if_neg hc] at h
    obtain ⟨q, hq, he⟩ := Option.map_eq_some_iff.mp h
    cases he
    rw [List.cons_append, List.cons_append, spanBody, if_neg hc, ih hq]
    rfl
  | case4 cs =>
    simp [spanBody] at h
    obtain ⟨rfl, rfl⟩ := h
    simp [spanBody]
  | case5 cs _ _ => simp [spanBody] at h
  | case6 c cs _ hquote hback ih =>
    rw [spanBody_cons hquote hback] at h
    obtain ⟨q, hq, he⟩ := Option.map_eq_some_iff.mp h
    cases he
    rw [List.cons_append, spanBody_cons hquote hback, ih hq]
    rfl

theorem span_front {cs t rest : List Char} (h : span cs = some (t, rest)) (rest' : List Char) :
    span (t ++ rest') = some (t, rest') := by
  unfold span at h
  split at h
  · obtain ⟨q, hq, he⟩ := Option.map_eq_some_iff.mp h
    cases he
    rw [List.cons_append, span, spanBody_front hq]
    rfl
  · cases h

/-! ## What the span passes over -/

/-- A text that is passed over on the way to the closing quote, whatever follows it. -/
def Passed (t : List Char) : Prop :=
  ∀ cs, spanBody (t ++ cs) = (spanBody cs).map fun r => (t ++ r.1, r.2)

theorem passed_nil : Passed [] := by
  intro cs
  simp

theorem passed_plain (hq : c ≠ '"') (hb : c ≠ '\\') : Passed [c] :=
  fun cs => spanBody_cons hq hb cs

theorem passed_escaped (hc : c ≠ '\n') : Passed ['\\', c] := by
  intro cs
  show (if c = '\n' then none else (spanBody cs).map fun r => ('\\' :: c :: r.1, r.2)) = _
  rw [if_neg hc]
  rfl

theorem Passed.append (ht : Passed t) (hu : Passed u) : Passed (t ++ u) := by
  intro cs
  rw [List.append_assoc, ht, hu, Option.map_map]
  simp [Function.comp_def]

theorem passed_hex {n : Nat} (h : hexValue? c = some n) : Passed [c] := by
  have hquote : hexValue? '"' = none := by decide
  have hback : hexValue? '\\' = none := by decide
  refine passed_plain ?_ ?_
  · rintro rfl
    rw [hquote] at h
    cases h
  · rintro rfl
    rw [hback] at h
    cases h

/-- Digits of a code point are passed over. -/
theorem passed_of_hexChar? {a : Char} (h : hexChar? cs = some a) : Passed cs := by
  have key : ∀ (n m : Nat), cs.foldlM (fun n c => (hexValue? c).map (16 * n + ·)) n = some m →
      Passed cs := by
    clear h
    induction cs with
    | nil => exact fun _ _ _ => passed_nil
    | cons c cs ih =>
      intro n m h
      rw [List.foldlM_cons] at h
      obtain ⟨k, hk, h⟩ := Option.bind_eq_some_iff.mp h
      obtain ⟨v, hv, -⟩ := Option.map_eq_some_iff.mp hk
      exact (passed_hex hv).append (ih k m h)
  obtain ⟨m, hm, -⟩ := Option.bind_eq_some_iff.mp h
  exact key 0 m hm

/-- What can be decoded is passed over. -/
theorem passed_of_decodeBody (h : decodeBody cs = some t) : Passed cs := by
  induction cs using decodeBody.induct generalizing t with
  | case1 => exact passed_nil
  | case2 a b cs ih =>
    obtain ⟨c, hc, h⟩ := Option.bind_eq_some_iff.mp h
    obtain ⟨t', ht', -⟩ := Option.bind_eq_some_iff.mp h
    have hx : Passed ['\\', 'x'] := passed_escaped (by decide)
    exact (hx.append (passed_of_hexChar? hc)).append (ih ht')
  | case3 a b c d cs ih =>
    obtain ⟨e, he, h⟩ := Option.bind_eq_some_iff.mp h
    obtain ⟨t', ht', -⟩ := Option.bind_eq_some_iff.mp h
    have hu : Passed ['\\', 'u'] := passed_escaped (by decide)
    exact (hu.append (passed_of_hexChar? he)).append (ih ht')
  | case4 cs _ _ ih | case5 cs _ _ _ ih | case6 cs _ _ _ _ ih | case7 cs _ _ _ _ _ ih
  | case8 cs _ _ _ _ _ _ ih =>
    obtain ⟨t', ht', -⟩ := Option.map_eq_some_iff.mp h
    exact (passed_escaped (by decide)).append (ih ht')
  | case9 c cs _ _ hq hb hn ht hr => simp [decodeBody, hq, hb, hn, ht, hr] at h
  | case10 c cs _ _ _ hc => simp [decodeBody, hc] at h
  | case11 c cs _ _ _ hc ih =>
    rw [not_or] at hc
    rw [decodeBody_cons hc.1 hc.2] at h
    obtain ⟨t', ht', -⟩ := Option.map_eq_some_iff.mp h
    exact (passed_plain hc.1 hc.2).append (ih ht')

theorem dropQuote?_some (h : dropQuote? cs = some t) : cs = t ++ ['"'] := by
  induction cs using dropQuote?.induct generalizing t with
  | case1 => cases h
  | case2 =>
    cases h
    rfl
  | case3 c cs hc ih =>
    rw [dropQuote?.eq_3 c cs hc] at h
    obtain ⟨t', ht', rfl⟩ := Option.map_eq_some_iff.mp h
    rw [ih ht', List.cons_append]

/-! ## Literals -/

/-- A literal that can be decoded is one for the span, whatever follows it. -/
theorem span_of_decode (h : decode cs = some t) (rest : List Char) :
    ∃ body, cs = '"' :: (body ++ ['"']) ∧ Delimited body ∧ span (cs ++ rest) = some (cs, rest) := by
  unfold decode at h
  split at h
  · next quoted =>
    obtain ⟨body, hquoted, hbody⟩ := Option.bind_eq_some_iff.mp h
    obtain rfl := dropQuote?_some hquoted
    have hspan (rest : List Char) :
        spanBody (body ++ '"' :: rest) = some (body ++ ['"'], rest) := by
      rw [passed_of_decodeBody hbody]
      rfl
    obtain ⟨body', he, hdelimited⟩ := delimited_of_spanBody (hspan rest)
    obtain rfl := List.append_cancel_right he
    refine ⟨body, rfl, hdelimited, ?_⟩
    rw [List.cons_append, List.append_assoc, span, List.singleton_append, hspan]
    rfl
  · cases h

/-- Literals are faithful. The literal of any text is read back as the text and holds no control
character; before any text that has tokens it is one token, and the others are those of that text.
Whatever can be decoded stands between two quotes, with no quote between them that is not escaped,
and is a literal for the span as well. -/
theorem literal_faithful :
    (∀ text, decode (encode text) = some text ∧ (∀ c ∈ encode text, Text.isControl c = false) ∧
      ∀ rest lexemes gap, Lexeme.scan rest = some (lexemes, gap) →
        Lexeme.scan (encode text ++ rest) =
          some (⟨[], .literal, encode text⟩ :: lexemes, gap)) ∧
    ∀ literal text, decode literal = some text →
      ∃ body, literal = '"' :: (body ++ ['"']) ∧
        (∀ before after, body = before ++ '"' :: after → Escapes before) ∧ ¬ Escapes body ∧
        ∀ rest, span (literal ++ rest) = some (literal, rest) := by
  refine ⟨fun text => ⟨decode_encode text, fun c hc => isControl_encode hc, ?_⟩, ?_⟩
  · intro rest lexemes gap hrest
    rw [Lexeme.scan_first (Lexeme.first?_literal text rest), hrest]
    rfl
  · intro literal text h
    obtain ⟨body, hliteral, hdelimited, -⟩ := span_of_decode h []
    refine ⟨body, hliteral, hdelimited.inner, hdelimited.last, fun rest => ?_⟩
    obtain ⟨-, -, -, hspan⟩ := span_of_decode h rest
    exact hspan

/-- A text with quotes after one and after two backslashes, and with control characters of both
sorts, before an operator; and a literal in which a run of three backslashes escapes a quote. -/
theorem literal_faithful_backslashes :
    let text := "a\\\"\\\\\"".toList ++ [Char.ofNat 7, Char.ofNat 0x85]
    decode (encode text) = some text ∧
    (Lexeme.scan (encode text ++ " == x".toList)).map (fun r => r.1.map Lexeme.token) =
      some [.literal, .operator, .name] ∧
    decode "\"\\\\\\\"\u00e9\"".toList = some "\\\"é".toList ∧
    ∃ body, "\"\\\\\\\"\u00e9\"".toList = '"' :: (body ++ ['"']) ∧ ¬ Escapes body := by
  intro text
  obtain ⟨hliteral, hquoted⟩ := literal_faithful
  obtain ⟨hdecode, -, hscan⟩ := hliteral text
  have hrest : Lexeme.scan " == x".toList = some ([⟨[' '], .operator, ['=', '=']⟩,
      ⟨[' '], .name, ['x']⟩], []) := by decide
  have hescaped : decode "\"\\\\\\\"\u00e9\"".toList = some "\\\"é".toList := by decide
  obtain ⟨body, hbody, -, hlast, -⟩ := hquoted _ _ hescaped
  refine ⟨hdecode, ?_, hescaped, body, hbody, hlast⟩
  rw [hscan _ _ _ hrest]
  rfl

end BlockText.Quoted

import BlockText.Dialect.Quoted

/-!
# String literals

A literal that is written can be read back as its text, ends where it was ended, and holds no
control character, so it never leaves its line.
-/

namespace BlockText.Quoted

/-! ## Escapes -/

theorem hexValue?_hexDigit : ∀ {n : Nat}, n < 16 → hexValue? (hexDigit n) = some n := by
  decide

theorem isControl_hexDigit : ∀ {n : Nat}, n < 16 → Text.isControl (hexDigit n) = false := by
  decide

theorem toNat_lt_of_isControl {c : Char} (h : Text.isControl c = true) : c.toNat < 160 := by
  simp only [Text.isControl, Bool.or_eq_true, Bool.and_eq_true, decide_eq_true_eq] at h
  omega

/-- The ways in which a character is written. -/
theorem escape_cases (c : Char) :
    (escape c = [c] ∧ c ≠ '"' ∧ c ≠ '\\' ∧ Text.isControl c = false) ∨
    (∃ d, escape c = ['\\', d] ∧ d ≠ 'x' ∧ d ≠ 'u' ∧ d ≠ '\n' ∧ Text.isControl d = false ∧
      ∀ cs, decodeBody ('\\' :: d :: cs) = (c :: ·) <$> decodeBody cs) ∨
    (escape c = ['\\', 'x', hexDigit (c.toNat / 16), hexDigit (c.toNat % 16)] ∧ c.toNat < 160) := by
  by_cases hshort : c ∈ ['"', '\\', '\n', '\t', '\r']
  · simp only [List.mem_cons, List.not_mem_nil, or_false] at hshort
    right
    left
    rcases hshort with rfl | rfl | rfl | rfl | rfl <;>
      exact ⟨_, rfl, by decide, by decide, by decide, by decide, fun cs => rfl⟩
  · simp only [List.mem_cons, List.not_mem_nil, or_false, not_or] at hshort
    obtain ⟨hq, hb, hn, ht, hr⟩ := hshort
    rw [escape, if_neg hq, if_neg hb, if_neg hn, if_neg ht, if_neg hr]
    split
    · next hc => exact .inr (.inr ⟨rfl, toNat_lt_of_isControl hc⟩)
    · next hc => exact .inl ⟨rfl, hq, hb, by simpa using hc⟩

theorem hexChar?_toNat {c : Char} (h : c.toNat < 160) :
    hexChar? [hexDigit (c.toNat / 16), hexDigit (c.toNat % 16)] = some c := by
  have hnumber : hexNumber? [hexDigit (c.toNat / 16), hexDigit (c.toNat % 16)] =
      some c.toNat := by
    have hvalue : 16 * (16 * 0 + c.toNat / 16) + c.toNat % 16 = c.toNat := by omega
    simp [hexNumber?, hexValue?_hexDigit (show c.toNat / 16 < 16 by omega),
      hexValue?_hexDigit (show c.toNat % 16 < 16 by omega)]
    omega
  have hvalid : c.toNat.isValidChar := by
    left
    omega
  rw [hexChar?, hnumber]
  show charOf? c.toNat = some c
  rw [charOf?, if_pos hvalid, Char.ofNat_toNat]

/-- A plain character stands for itself. -/
theorem decodeBody_cons {c : Char} (hq : c ≠ '"') (hb : c ≠ '\\') (cs : List Char) :
    decodeBody (c :: cs) = (c :: ·) <$> decodeBody cs := by
  rw [decodeBody.eq_def]
  split
  · next h => cases h
  · next h => exact absurd (List.cons.inj h).1 hb
  · next h => exact absurd (List.cons.inj h).1 hb
  · next h => exact absurd (List.cons.inj h).1 hb
  · next h =>
    obtain ⟨rfl, rfl⟩ := List.cons.inj h
    rw [if_neg (by simp [hq, hb])]

/-- One character is read back. -/
theorem decodeBody_escape_append (c : Char) (cs : List Char) :
    decodeBody (escape c ++ cs) = (c :: ·) <$> decodeBody cs := by
  rcases escape_cases c with ⟨he, hq, hb, -⟩ | ⟨d, he, -, -, -, -, hdecode⟩ | ⟨he, hlt⟩
  · rw [he, List.singleton_append, decodeBody_cons hq hb]
  · rw [he]
    exact hdecode cs
  · rw [he]
    show (hexChar? _ >>= fun e => decodeBody cs >>= fun es => some (e :: es)) = _
    rw [hexChar?_toNat hlt]
    cases decodeBody cs <;> rfl

/-- A plain character is passed over on the way to the closing quote. -/
theorem spanBody_cons {c : Char} (hq : c ≠ '"') (hb : c ≠ '\\') (cs : List Char) :
    spanBody (c :: cs) = (spanBody cs).map fun r => (c :: r.1, r.2) := by
  rw [spanBody.eq_def]
  split
  · next h => cases h
  · next h => exact absurd (List.cons.inj h).1 hb
  · next h =>
    obtain ⟨rfl, rfl⟩ := List.cons.inj h
    rw [if_neg hq, if_neg hb]

/-- One character is passed over on the way to the closing quote. -/
theorem spanBody_escape_append (c : Char) (cs : List Char) :
    spanBody (escape c ++ cs) = (spanBody cs).map fun r => (escape c ++ r.1, r.2) := by
  rcases escape_cases c with ⟨he, hq, hb, -⟩ | ⟨d, he, -, -, hn, -, -⟩ | ⟨he, hlt⟩
  · rw [he, List.singleton_append, spanBody_cons hq hb]
    rfl
  · rw [he]
    show (if d = '\n' then none else (spanBody cs).map fun r => ('\\' :: d :: r.1, r.2)) = _
    rw [if_neg hn]
    rfl
  · have hplain (k : Nat) (hk : k < 16) (cs : List Char) :
        spanBody (hexDigit k :: cs) = (spanBody cs).map fun r => (hexDigit k :: r.1, r.2) := by
      have hq : hexDigit k ≠ '"' ∧ hexDigit k ≠ '\\' := by
        revert hk
        revert k
        decide
      exact spanBody_cons hq.1 hq.2 cs
    rw [he]
    show ((spanBody (hexDigit (c.toNat / 16) :: hexDigit (c.toNat % 16) :: cs)).map
      fun r => ('\\' :: 'x' :: r.1, r.2)) = _
    rw [hplain _ (by omega), hplain _ (by omega)]
    cases spanBody cs <;> rfl

/-! ## Literals -/

theorem dropQuote?_append (cs : List Char) : dropQuote? (cs ++ ['"']) = some cs := by
  induction cs with
  | nil => rfl
  | cons c cs ih =>
    rw [List.cons_append, dropQuote?.eq_def]
    split
    · next h => cases h
    · next h =>
      have := (List.cons.inj h).2
      simp at this
    · next h =>
      obtain ⟨rfl, rfl⟩ := List.cons.inj h
      rw [ih]
      rfl

/-- A literal is read back as its text. -/
theorem decode_encode (cs : List Char) : decode (encode cs) = some cs := by
  have hbody : decodeBody (cs.flatMap escape) = some cs := by
    induction cs with
    | nil => rfl
    | cons c cs ih =>
      rw [List.flatMap_cons, decodeBody_escape_append, ih]
      rfl
  show (dropQuote? (cs.flatMap escape ++ ['"']) >>= decodeBody) = some cs
  rw [dropQuote?_append]
  exact hbody

/-- A literal ends where it was ended, whatever follows it. -/
theorem span_encode_append (cs rest : List Char) :
    span (encode cs ++ rest) = some (encode cs, rest) := by
  have hbody : spanBody (cs.flatMap escape ++ '"' :: rest) =
      some (cs.flatMap escape ++ ['"'], rest) := by
    induction cs with
    | nil => rfl
    | cons c cs ih =>
      rw [List.flatMap_cons, List.append_assoc, spanBody_escape_append, ih, List.append_assoc]
      rfl
  have hcs : encode cs ++ rest = '"' :: (cs.flatMap escape ++ '"' :: rest) := by simp [encode]
  rw [hcs]
  show ((spanBody _).map fun r => ('"' :: r.1, r.2)) = _
  rw [hbody]
  rfl

theorem isControl_encode {cs : List Char} {c : Char} (h : c ∈ encode cs) :
    Text.isControl c = false := by
  have hescape (d : Char) (hd : c ∈ escape d) : Text.isControl c = false := by
    rcases escape_cases d with ⟨he, -, -, hc⟩ | ⟨e, he, -, -, -, hc, -⟩ | ⟨he, hlt⟩ <;>
      rw [he] at hd
    · rw [List.mem_singleton.mp hd]
      exact hc
    · simp only [List.mem_cons, List.not_mem_nil, or_false] at hd
      rcases hd with rfl | rfl
      · decide
      · exact hc
    · simp only [List.mem_cons, List.not_mem_nil, or_false] at hd
      rcases hd with rfl | rfl | rfl | rfl
      · decide
      · decide
      · exact isControl_hexDigit (by omega)
      · exact isControl_hexDigit (by omega)
  simp only [encode, List.mem_cons, List.mem_append, List.mem_flatMap, List.not_mem_nil,
    or_false, List.cons_append] at h
  rcases h with rfl | ⟨d, -, hd⟩ | rfl
  · decide
  · exact hescape d hd
  · decide

end BlockText.Quoted

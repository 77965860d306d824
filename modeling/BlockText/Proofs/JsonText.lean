import BlockText.Json.Printer
import BlockText.Json.Reader
import BlockText.Proofs.Texts

/-!
# JSON that is printed can be read

What is printed is read back: a number up to the first character that cannot go on it, a string up
to its closing quote with every escape undone, a list or an object item by item. The reader counts
its steps down from twice the length of the text, and each piece that it reads pays for the steps
that it takes.
-/

namespace BlockText

open Text

/-! ## Numbers -/

namespace Numeral

variable {cs ds lit rest r : List Char} {m : Numeral}

/-- Whether a number goes on with a character. -/
def goesOn (c : Char) : Bool := c.isDigit || c = '.' || c = 'e' || c = 'E'

theorem stops_isDigit (h : Stops goesOn rest) : Stops Char.isDigit rest := by
  intro c hc
  have hno := h c hc
  simp only [goesOn, Bool.or_eq_false_iff] at hno
  exact hno.1.1.1

theorem digits?_append (h : digits? cs = some (ds, r)) (hrest : Stops goesOn rest) :
    digits? (cs ++ rest) = some (ds, r ++ rest) := by
  unfold digits? at h ⊢
  rw [takeWhile_append (stops_isDigit hrest), dropWhile_append (stops_isDigit hrest)]
  split at h
  · cases h
  · cases h
    rfl

theorem whole?_append (h : whole? cs = some (ds, r)) (hrest : Stops goesOn rest) :
    whole? (cs ++ rest) = some (ds, r ++ rest) := by
  unfold whole? at h ⊢
  cases hd : digits? cs with
  | none =>
    rw [hd] at h
    cases h
  | some found =>
    obtain ⟨whole, left⟩ := found
    rw [hd] at h
    rw [digits?_append hd hrest]
    match whole with
    | [] =>
      cases h
      rfl
    | [d] =>
      cases h
      rfl
    | d :: e :: ds =>
      by_cases hzero : d = '0'
      · simp [hzero] at h
      · simp only [hzero, if_false] at h ⊢
        cases h
        rfl

theorem fraction?_of_stops (hrest : Stops goesOn rest) : fraction? rest = some ([], rest) := by
  unfold fraction?
  split
  · exact absurd (hrest '.' rfl) (by decide)
  · rfl

theorem fraction?_of_ne {c : Char} (hc : c ≠ '.') (cs : List Char) :
    fraction? (c :: cs) = some ([], c :: cs) := by
  unfold fraction?
  split
  · next he => exact absurd (List.cons.inj he).1 hc
  · rfl

theorem fraction?_append (h : fraction? cs = some (ds, r)) (hrest : Stops goesOn rest) :
    fraction? (cs ++ rest) = some (ds, r ++ rest) := by
  cases cs with
  | nil =>
    cases h
    exact fraction?_of_stops hrest
  | cons c cs =>
    by_cases hc : c = '.'
    · subst hc
      exact digits?_append h hrest
    · rw [fraction?_of_ne hc] at h
      cases h
      exact fraction?_of_ne hc _

/-- Whether the exponent after an `e` is negative, and what follows its sign. -/
def signOf : List Char → Bool × List Char
  | '-' :: cs => (true, cs)
  | '+' :: cs => (false, cs)
  | cs => (false, cs)

theorem exponent?_cons (c : Char) (cs : List Char) : exponent? (c :: cs) =
    if c = 'e' ∨ c = 'E' then
      (digits? (signOf cs).2).map fun d =>
        (some (if (signOf cs).1 then -(Decimal.ofDigits d.1 : Int) else Decimal.ofDigits d.1), d.2)
    else some (none, c :: cs) := rfl

theorem signOf_of_ne {c : Char} (hminus : c ≠ '-') (hplus : c ≠ '+') (cs : List Char) :
    signOf (c :: cs) = (false, c :: cs) := by
  unfold signOf
  split
  · next he => exact absurd (List.cons.inj he).1 hminus
  · next he => exact absurd (List.cons.inj he).1 hplus
  · rfl

theorem signOf_append (h : cs ≠ []) (rest : List Char) :
    signOf (cs ++ rest) = ((signOf cs).1, (signOf cs).2 ++ rest) := by
  obtain ⟨c, cs, rfl⟩ := List.exists_cons_of_ne_nil h
  by_cases hminus : c = '-'
  · subst hminus
    rfl
  · by_cases hplus : c = '+'
    · subst hplus
      rfl
    · rw [List.cons_append, signOf_of_ne hminus hplus, signOf_of_ne hminus hplus, List.cons_append]

theorem exponent?_of_stops (hrest : Stops goesOn rest) : exponent? rest = some (none, rest) := by
  cases rest with
  | nil => rfl
  | cons c rest =>
    have hc := hrest c rfl
    simp only [goesOn, Bool.or_eq_false_iff, decide_eq_false_iff_not] at hc
    rw [exponent?_cons, if_neg (by simp [hc])]

theorem exponent?_append {e : Option Int} (h : exponent? cs = some (e, r))
    (hrest : Stops goesOn rest) : exponent? (cs ++ rest) = some (e, r ++ rest) := by
  cases cs with
  | nil =>
    cases h
    exact exponent?_of_stops hrest
  | cons c cs =>
    rw [exponent?_cons] at h
    rw [List.cons_append, exponent?_cons]
    by_cases hc : c = 'e' ∨ c = 'E'
    · rw [if_pos hc] at h ⊢
      obtain ⟨⟨ds, left⟩, hd, he⟩ := Option.map_eq_some_iff.mp h
      cases he
      have hne : cs ≠ [] := by
        rintro rfl
        cases hd
      rw [signOf_append hne, digits?_append hd hrest]
      rfl
    · rw [if_neg hc] at h ⊢
      cases h
      rfl

/-- A number is read up to where it cannot go on. -/
theorem scan_append (h : scan cs = some (m, r)) (hrest : Stops goesOn rest) :
    scan (cs ++ rest) = some (m, r ++ rest) := by
  unfold scan at h ⊢
  simp only [Option.bind_eq_bind, Option.bind_eq_some_iff] at h
  obtain ⟨⟨whole, r₁⟩, hwhole, ⟨fraction, r₂⟩, hfraction, ⟨exponent, r₃⟩, hexponent, h⟩ := h
  cases h
  have hne : cs ≠ [] := by
    rintro rfl
    cases hwhole
  obtain ⟨c, cs, rfl⟩ := List.exists_cons_of_ne_nil hne
  have hsigned : (if (c :: cs ++ rest).head? == some '-' then (c :: cs ++ rest).drop 1
      else c :: cs ++ rest) =
      (if (c :: cs).head? == some '-' then (c :: cs).drop 1 else c :: cs) ++ rest := by
    by_cases hc : c = '-'
    · subst hc
      rfl
    · simp [hc]
  simp only [hsigned, whole?_append hwhole hrest, Option.bind_eq_bind, Option.bind_some,
    fraction?_append hfraction hrest, exponent?_append hexponent hrest]
  rfl

theorem ofLiteral?_eq_some : ofLiteral? lit = some m ↔ scan lit = some (m, []) := by
  unfold ofLiteral?
  split
  · next n he => simp [he]
  · next hno =>
    constructor
    · intro h
      cases h
    · intro h
      exact absurd h (hno m)

/-- A number starts with a sign or a digit. -/
theorem head_of_scan (h : scan cs = some (m, r)) : ∃ c ds, cs = c :: ds ∧
    (c = '-' ∨ c.isDigit = true) := by
  cases cs with
  | nil => cases h
  | cons c cs =>
    refine ⟨c, cs, rfl, ?_⟩
    by_cases hminus : c = '-'
    · exact .inl hminus
    · by_cases hdigit : c.isDigit = true
      · exact .inr hdigit
      · have hnone : digits? (c :: cs) = none := by simp [digits?, hdigit]
        simp [scan, hminus, whole?, hnone] at h

end Numeral

namespace Json

theorem readNumber_append {lit rest : List Char} {m : Numeral}
    (h : Numeral.ofLiteral? lit = some m) (hrest : Stops Numeral.goesOn rest) :
    readNumber (lit ++ rest) = some (.number lit, rest) := by
  rw [readNumber, Numeral.scan_append (Numeral.ofLiteral?_eq_some.mp h) hrest]
  show some (Json.number ((lit ++ rest).take ((lit ++ rest).length - rest.length)), rest) = _
  rw [List.length_append, Nat.add_sub_cancel, List.take_left]

/-! ## Strings -/

theorem hexDigit?_control : ∀ k : Fin 32,
    ((if k.val < 16 then ['0'] else []) ++ Text.hexDigits k.val).map hexDigit? =
      [some (k.val / 16), some (k.val % 16)] := by
  decide

/-- The ways in which a character is written. -/
theorem escape_cases (c : Char) :
    (escape c = [c] ∧ c ≠ '"' ∧ c ≠ '\\' ∧ 32 ≤ c.toNat) ∨
    (∃ e, escape c = ['\\', e] ∧ e ≠ 'u' ∧ escape? e = some c) ∨
    (∃ high low, escape c = ['\\', 'u', '0', '0', high, low] ∧ c.toNat < 32 ∧
      hexDigit? high = some (c.toNat / 16) ∧ hexDigit? low = some (c.toNat % 16)) := by
  by_cases hshort : c ∈ ['"', '\\', '\x08', '\x0c', '\n', '\r', '\t']
  · simp only [List.mem_cons, List.not_mem_nil, or_false] at hshort
    right
    left
    rcases hshort with rfl | rfl | rfl | rfl | rfl | rfl | rfl <;>
      exact ⟨_, rfl, by decide, rfl⟩
  · simp only [List.mem_cons, List.not_mem_nil, or_false, not_or] at hshort
    obtain ⟨hq, hb, hbell, hfeed, hn, hr, ht⟩ := hshort
    have hescape : escape c = if c.toNat < 32 then
        "\\u00".toList ++ (if c.toNat < 16 then ['0'] else []) ++ Text.hexDigits c.toNat
      else [c] := by
      unfold escape
      split <;> first | contradiction | rfl
    by_cases hc : c.toNat < 32
    · have hmap := hexDigit?_control ⟨c.toNat, hc⟩
      obtain ⟨high, lows, hdigits, hhigh, hlows⟩ := List.map_eq_cons_iff.mp hmap
      obtain ⟨low, more, hmore, hlow, hnil⟩ := List.map_eq_cons_iff.mp hlows
      rw [hmore, List.map_eq_nil_iff.mp hnil] at hdigits
      right
      right
      refine ⟨high, low, ?_, hc, hhigh, hlow⟩
      rw [hescape, if_pos hc, List.append_assoc, hdigits]
      rfl
    · left
      refine ⟨?_, hq, hb, Nat.le_of_not_lt hc⟩
      rw [hescape, if_neg hc]

theorem ofUnit_toNat {c : Char} (h : c.toNat < 32) : Piece.ofUnit c.toNat = .char c := by
  rw [Piece.ofUnit, if_neg (by omega), Char.ofNat_toNat]

/-- One character is read back. -/
theorem pieces_escape_append (bound : Nat) (c : Char) (cs : List Char) :
    pieces (bound + 1) (escape c ++ cs) =
      (pieces bound cs).map fun r => (.char c :: r.1, r.2) := by
  rcases escape_cases c with ⟨he, hq, hb, hlow⟩ | ⟨e, he, hu, hescape⟩ |
    ⟨high, low, he, hc, hhigh, hlow⟩
  · rw [he, List.singleton_append, pieces.eq_def]
    simp only [if_neg hq, if_neg (Nat.not_lt.mpr hlow), ne_eq, hb, not_false_eq_true, if_true]
  · rw [he]
    show pieces (bound + 1) ('\\' :: e :: cs) = _
    rw [pieces.eq_def]
    simp [hescape]
  · rw [he]
    show pieces (bound + 1) ('\\' :: 'u' :: '0' :: '0' :: high :: low :: cs) = _
    have hunit : unit? ('0' :: '0' :: high :: low :: cs) = some (c.toNat, cs) := by
      have hzero : hexDigit? '0' = some 0 := by decide
      have hvalue : c.toNat / 16 * 16 + c.toNat % 16 = c.toNat := by omega
      simp [unit?, hzero, hhigh, hlow, hvalue]
    rw [pieces.eq_def]
    simp [hunit, ofUnit_toNat hc]

theorem length_le_flatMap_escape (s : List Char) : s.length ≤ (s.flatMap escape).length := by
  induction s with
  | nil => simp
  | cons c s ih =>
    have hc : 1 ≤ (escape c).length := by
      rcases escape_cases c with ⟨he, -⟩ | ⟨e, he, -⟩ | ⟨high, low, he, -⟩ <;> simp [he]
    rw [List.flatMap_cons, List.length_append, List.length_cons]
    omega

theorem pieces_flatMap_escape (s rest : List Char) {bound : Nat} (h : s.length < bound) :
    pieces bound (s.flatMap escape ++ '"' :: rest) = some (s.map .char, rest) := by
  induction s generalizing bound with
  | nil =>
    obtain ⟨bound, rfl⟩ := Nat.exists_eq_add_of_lt h
    rfl
  | cons c s ih =>
    rw [List.length_cons] at h
    obtain ⟨bound, rfl⟩ : ∃ b, bound = b + 1 := ⟨bound - 1, by omega⟩
    rw [List.flatMap_cons, List.append_assoc, pieces_escape_append, ih (by omega)]
    rfl

theorem joinPieces_char (s : List Char) : joinPieces (s.map .char) = some s := by
  induction s with
  | nil => rfl
  | cons c s ih => simp [joinPieces, ih]

/-- A string is read back after its opening quote. -/
theorem readString_append (s : String) (rest : List Char) :
    readString (s.toList.flatMap escape ++ '"' :: rest) = some (some s, rest) := by
  have hlen := length_le_flatMap_escape s.toList
  rw [readString, pieces_flatMap_escape _ _ (by rw [List.length_append]; omega)]
  show some ((joinPieces (s.toList.map .char)).map String.ofList, rest) = _
  rw [joinPieces_char, Option.map_some, String.ofList_toList]

theorem quote_append (s : String) (rest : List Char) :
    quote s ++ rest = '"' :: (s.toList.flatMap escape ++ '"' :: rest) := by
  simp [quote]

/-! ## Blanks -/

variable {cs ds rest : List Char} {bound level outer : Nat}

theorem skip_newline (level : Nat) (cs : List Char) : skip (newline level ++ cs) = skip cs := by
  refine List.dropWhile_append_of_pos fun c hc => ?_
  rcases List.mem_cons.mp hc with rfl | hc
  · rfl
  · rw [(List.mem_replicate.mp hc).2]
    rfl

theorem skip_of_stops (h : Stops isSpace cs) : skip cs = cs := by
  cases cs with
  | nil => rfl
  | cons c cs => simp [skip, h c rfl]

theorem readValue_congr (h : skip cs = skip ds) (bound : Nat) :
    readValue bound cs = readValue bound ds := by
  cases bound with
  | zero => rfl
  | succ bound => simp only [readValue.eq_def, h]

theorem stops_newline (level : Nat) (cs : List Char) :
    Stops Numeral.goesOn (newline level ++ cs) := stops_cons (by decide)

/-! ## Values -/

/-- Blanks, the end of a list, and what a value that is no number may start with. -/
def openings : List Char := [' ', '\n', '\t', '\r', ']', '[', '{', '"', 'n', 't', 'f']

theorem ne_of_number {c d : Char} (h : c = '-' ∨ c.isDigit = true) (hd : d ∈ openings) : c ≠ d := by
  have hnone : ∀ d ∈ openings, ¬ (d = '-' ∨ d.isDigit = true) := by decide
  rintro rfl
  exact hnone c hd h

theorem isSpace_of_number {c : Char} (h : c = '-' ∨ c.isDigit = true) : isSpace c = false := by
  have hspace : c ≠ ' ' := ne_of_number h (by decide)
  have hline : c ≠ '\n' := ne_of_number h (by decide)
  have htab : c ≠ '\t' := ne_of_number h (by decide)
  have hreturn : c ≠ '\r' := ne_of_number h (by decide)
  simp [isSpace, hspace, hline, htab, hreturn]

/-- A value that can be written and read: its numbers are numerals, and its strings and keys have
characters. -/
inductive Printable : Json → Prop where
  | null : Printable .null
  | bool (b : Bool) : Printable (.bool b)
  | number {literal : List Char} {m : Numeral} (h : Numeral.ofLiteral? literal = some m) :
    Printable (.number literal)
  | text (s : String) : Printable (.text s)
  | list {items : List Json} (h : ∀ j ∈ items, Printable j) : Printable (.list items)
  | record {members : List (String × Json)} (h : ∀ m ∈ members, Printable m.2) :
    Printable (.record members)

/-- A value is read back at the front of a text that cannot go on it. -/
def ReadsBack (level : Nat) (j : Json) : Prop :=
  ∀ bound rest, Stops Numeral.goesOn rest → 2 * (print level j).length ≤ bound + 1 →
    readValue (bound + 1) (print level j ++ rest) = some (j, rest)

theorem printItems_eq (level : Nat) (items : List Json) :
    printItems level items = items.map (print level) := by
  induction items with
  | nil => rfl
  | cons item items ih => rw [printItems, ih, List.map_cons]

/-- The text of a member. -/
def printMember (level : Nat) (m : String × Json) : List Char :=
  quote m.1 ++ ": ".toList ++ print level m.2

theorem printMembers_record (level : Nat) (members : List (String × Json)) :
    printMembers level (members.map fun m => (some m.1, m.2)) =
      members.map (printMember level) := by
  induction members with
  | nil => rfl
  | cons m members ih => simp [printMembers, printMember, ih]

theorem head_print {j : Json} (h : Printable j) (level : Nat) :
    ∃ c cs, print level j = c :: cs ∧ isSpace c = false ∧ c ≠ ']' := by
  cases h with
  | null => exact ⟨_, _, rfl, by decide, by decide⟩
  | bool b => cases b <;> exact ⟨_, _, rfl, by decide, by decide⟩
  | number h =>
    obtain ⟨c, ds, rfl, hc⟩ := Numeral.head_of_scan (Numeral.ofLiteral?_eq_some.mp h)
    exact ⟨c, ds, rfl, isSpace_of_number hc, ne_of_number hc (by decide)⟩
  | text s => exact ⟨_, _, rfl, by decide, by decide⟩
  | list h =>
    rw [print, bracket]
    split <;> exact ⟨_, _, rfl, by decide, by decide⟩
  | record h =>
    rw [record, print, bracket]
    split <;> exact ⟨_, _, rfl, by decide, by decide⟩

theorem skip_print {j : Json} (h : Printable j) (level : Nat) (rest : List Char) :
    skip (print level j ++ rest) = print level j ++ rest := by
  obtain ⟨c, cs, he, hc, -⟩ := head_print h level
  rw [he]
  exact skip_of_stops (stops_cons hc)

theorem readValue_list {cs : List Char} {c : Char} {ds : List Char} (h : skip cs = c :: ds)
    (hc : c ≠ ']') (bound : Nat) :
    readValue (bound + 1) ('[' :: cs) =
      (readItems bound (c :: ds)).map fun r => (.list r.1, r.2) := by
  have hskip : skip ('[' :: cs) = '[' :: cs := skip_of_stops (stops_cons (by decide))
  simp only [readValue.eq_def, hskip, h]
  split
  · next he => exact absurd (List.cons.inj he).1 hc
  · rfl

theorem readValue_object {cs ds : List Char} (h : skip cs = '"' :: ds) (bound : Nat) :
    readValue (bound + 1) ('{' :: cs) =
      (readMembers bound ('"' :: ds)).map fun r => (.object r.1, r.2) := by
  have hskip : skip ('{' :: cs) = '{' :: cs := skip_of_stops (stops_cons (by decide))
  simp only [readValue.eq_def, hskip, h]
  rfl

theorem readValue_string (cs : List Char) (bound : Nat) :
    readValue (bound + 1) ('"' :: cs) = (readString cs).map fun r => (.string r.1, r.2) := by
  have hskip : skip ('"' :: cs) = '"' :: cs := skip_of_stops (stops_cons (by decide))
  simp only [readValue.eq_def, hskip]

theorem readValue_other {c : Char} (h : isSpace c = false) (hlist : c ≠ '[') (hobject : c ≠ '{')
    (hstring : c ≠ '"') (cs : List Char) (bound : Nat) :
    readValue (bound + 1) (c :: cs) =
      (word? (c :: cs) "null" .null <|> word? (c :: cs) "true" (.bool true) <|>
        word? (c :: cs) "false" (.bool false) <|> readNumber (c :: cs)) := by
  have hskip : skip (c :: cs) = c :: cs := skip_of_stops (stops_cons h)
  simp only [readValue.eq_def, hskip]
  split
  · next he => exact absurd (List.cons.inj he).1 hlist
  · next he => exact absurd (List.cons.inj he).1 hobject
  · next he => exact absurd (List.cons.inj he).1 hstring
  · rfl

theorem readValue_null (bound : Nat) (rest : List Char) :
    readValue (bound + 1) ("null".toList ++ rest) = some (.null, rest) := by
  refine (readValue_other (c := 'n') ?_ ?_ ?_ ?_ _ bound).trans ?_
  all_goals first | decide | rfl

theorem readValue_bool (b : Bool) (bound : Nat) (rest : List Char) :
    readValue (bound + 1) ((if b then "true".toList else "false".toList) ++ rest) =
      some (.bool b, rest) := by
  cases b with
  | true =>
    refine (readValue_other (c := 't') ?_ ?_ ?_ ?_ _ bound).trans ?_
    all_goals first | decide | rfl
  | false =>
    refine (readValue_other (c := 'f') ?_ ?_ ?_ ?_ _ bound).trans ?_
    all_goals first | decide | rfl

theorem readValue_number {literal : List Char} {m : Numeral}
    (h : Numeral.ofLiteral? literal = some m) (hrest : Stops Numeral.goesOn rest) :
    readValue (bound + 1) (literal ++ rest) = some (.number literal, rest) := by
  have hnumber := readNumber_append h hrest
  obtain ⟨c, ds, rfl, hc⟩ := Numeral.head_of_scan (Numeral.ofLiteral?_eq_some.mp h)
  have hword (word : String) (d : Char) (tail : List Char) (value : Json)
      (hw : word.toList = d :: tail) (hd : d ∈ openings) :
      word? (c :: (ds ++ rest)) word value = none := by
    simp [word?, hw, (ne_of_number hc hd).symm]
  rw [List.cons_append] at hnumber ⊢
  rw [readValue_other (isSpace_of_number hc) (ne_of_number hc (by decide))
    (ne_of_number hc (by decide)) (ne_of_number hc (by decide)),
    hword "null" 'n' _ _ rfl (by decide), hword "true" 't' _ _ rfl (by decide),
    hword "false" 'f' _ _ rfl (by decide), hnumber]
  rfl

/-! ## Lists and objects -/

theorem join_front (separator t : List Char) (ts : List (List Char)) :
    ∃ more, join separator (t :: ts) = t ++ more := by
  cases ts with
  | nil => exact ⟨[], (List.append_nil t).symm⟩
  | cons u ts => exact ⟨separator ++ join separator (u :: ts), List.append_assoc _ _ _⟩

/-- A row of items starts as its first item does. -/
theorem head_join {j : Json} (h : Printable j) (separator : List Char) (ts : List (List Char))
    (after : List Char) : ∃ c cs, join separator (print level j :: ts) ++ after = c :: cs ∧
      isSpace c = false ∧ c ≠ ']' := by
  obtain ⟨more, hmore⟩ := join_front separator (print level j) ts
  obtain ⟨c, cs, hj, hspace, hc⟩ := head_print h level
  exact ⟨c, cs ++ (more ++ after), by rw [hmore, hj]; simp, hspace, hc⟩

theorem length_print_pos {j : Json} (h : Printable j) (level : Nat) :
    1 ≤ (print level j).length := by
  obtain ⟨c, cs, he, -⟩ := head_print h level
  simp [he]

/-- One item is read, and then the list ends or goes on. -/
theorem readItems_step {j : Json} (hp : Printable j) (hr : ReadsBack level j) {after : List Char}
    (hcs : skip cs = print level j ++ after) (hafter : Stops Numeral.goesOn after)
    (hb : 2 * (print level j).length ≤ bound) :
    (skip after = ']' :: rest → readItems (bound + 1) cs = some ([j], rest)) ∧
      (skip after = ',' :: rest →
        readItems (bound + 1) cs = (readItems bound rest).map fun r => (j :: r.1, r.2)) := by
  have hpos := length_print_pos hp level
  have hvalue : readValue bound cs = some (j, after) := by
    rw [readValue_congr (hcs.trans (skip_print hp level after).symm)]
    obtain ⟨bound, rfl⟩ : ∃ b, bound = b + 1 := ⟨bound - 1, by omega⟩
    exact hr bound after hafter hb
  constructor
  · intro hend
    rw [readItems, hvalue]
    simp only [hend]
  · intro hmore
    rw [readItems, hvalue]
    simp only [hmore]

/-- The items of a list are read one by one. Each is longer than the step that it takes. -/
theorem readItems_join {items : List Json} (hne : items ≠ []) (hp : ∀ j ∈ items, Printable j)
    (hr : ∀ j ∈ items, ReadsBack level j)
    (hcs : skip cs = join (',' :: newline level) (items.map (print level)) ++
      (newline outer ++ ']' :: rest))
    (hb : 2 * (items.map (print level)).flatten.length + 1 ≤ bound) :
    readItems bound cs = some (items, rest) := by
  induction items generalizing cs bound with
  | nil => exact absurd rfl hne
  | cons item items ih =>
    rw [List.forall_mem_cons] at hp hr
    obtain ⟨bound, rfl⟩ : ∃ b, bound = b + 1 := ⟨bound - 1, by omega⟩
    simp only [List.map_cons, List.flatten_cons, List.length_append] at hb
    have hpos := length_print_pos hp.1 level
    have hlen : 2 * (print level item).length ≤ bound := by omega
    cases items with
    | nil =>
      apply (readItems_step hp.1 hr.1 hcs (stops_newline outer _) hlen).1
      rw [skip_newline]
      exact skip_of_stops (stops_cons (by decide))
    | cons next items =>
      simp only [List.map_cons, join, List.append_assoc, List.cons_append] at hcs
      rw [(readItems_step hp.1 hr.1 hcs (stops_cons (by decide)) hlen).2
        (skip_of_stops (stops_cons (by decide)))]
      rw [ih (List.cons_ne_nil _ _) hp.2 hr.2 ?_ (by omega)]
      · rfl
      · obtain ⟨c, ds, htext, hspace, -⟩ := head_join (hp.2 next List.mem_cons_self)
          (',' :: newline level) (items.map (print level)) (newline outer ++ ']' :: rest)
        rw [skip_newline, List.map_cons, htext]
        exact skip_of_stops (stops_cons hspace)

theorem printMember_append (level : Nat) (m : String × Json) (after : List Char) :
    printMember level m ++ after =
      '"' :: (m.1.toList.flatMap escape ++ '"' :: ':' :: ' ' :: (print level m.2 ++ after)) := by
  rw [printMember, List.append_assoc, List.append_assoc, quote_append]
  rfl

/-- One member is read, and then the object ends or goes on. -/
theorem readMembers_step {m : String × Json} (hp : Printable m.2) (hr : ReadsBack level m.2)
    {after : List Char} (hcs : skip cs = printMember level m ++ after) (hafter : Stops Numeral.goesOn after)
    (hb : 2 * (print level m.2).length ≤ bound) :
    (skip after = '}' :: rest → readMembers (bound + 1) cs = some ([(some m.1, m.2)], rest)) ∧
      (skip after = ',' :: rest → readMembers (bound + 1) cs =
        (readMembers bound rest).map fun r => ((some m.1, m.2) :: r.1, r.2)) := by
  have hpos := length_print_pos hp level
  rw [printMember_append] at hcs
  have hcolon (cs : List Char) : skip (':' :: cs) = ':' :: cs :=
    skip_of_stops (stops_cons (by decide))
  have hvalue : readValue bound (' ' :: (print level m.2 ++ after)) = some (m.2, after) := by
    have hblank : skip (' ' :: (print level m.2 ++ after)) = skip (print level m.2 ++ after) := rfl
    rw [readValue_congr hblank]
    obtain ⟨bound, rfl⟩ : ∃ b, bound = b + 1 := ⟨bound - 1, by omega⟩
    exact hr bound after hafter hb
  constructor
  · intro hend
    rw [readMembers, hcs]
    simp only [readString_append, hcolon, hvalue, hend]
  · intro hmore
    rw [readMembers, hcs]
    simp only [readString_append, hcolon, hvalue, hmore]

theorem head_join_members (level : Nat) (m : String × Json) (separator : List Char) (ts : List (List Char))
    (after : List Char) : ∃ cs, join separator (printMember level m :: ts) ++ after = '"' :: cs := by
  obtain ⟨more, hmore⟩ := join_front separator (printMember level m) ts
  rw [hmore, List.append_assoc, printMember_append]
  exact ⟨_, rfl⟩

theorem readMembers_join {members : List (String × Json)} (hne : members ≠ [])
    (hp : ∀ m ∈ members, Printable m.2) (hr : ∀ m ∈ members, ReadsBack level m.2)
    (hcs : skip cs = join (',' :: newline level) (members.map (printMember level)) ++
      (newline outer ++ '}' :: rest))
    (hb : 2 * (members.map (printMember level)).flatten.length + 1 ≤ bound) :
    readMembers bound cs = some (members.map fun m => (some m.1, m.2), rest) := by
  induction members generalizing cs bound with
  | nil => exact absurd rfl hne
  | cons m members ih =>
    rw [List.forall_mem_cons] at hp hr
    obtain ⟨bound, rfl⟩ : ∃ b, bound = b + 1 := ⟨bound - 1, by omega⟩
    simp only [List.map_cons, List.flatten_cons, List.length_append] at hb
    have hpos : (print level m.2).length + 2 ≤ (printMember level m).length := by
      simp [printMember]
    have hlen : 2 * (print level m.2).length ≤ bound := by omega
    cases members with
    | nil =>
      apply (readMembers_step hp.1 hr.1 hcs (stops_newline outer _) hlen).1
      rw [skip_newline]
      exact skip_of_stops (stops_cons (by decide))
    | cons next members =>
      simp only [List.map_cons, join, List.append_assoc, List.cons_append] at hcs
      rw [(readMembers_step hp.1 hr.1 hcs (stops_cons (by decide)) hlen).2
        (skip_of_stops (stops_cons (by decide)))]
      rw [ih (List.cons_ne_nil _ _) hp.2 hr.2 ?_ (by omega)]
      · rfl
      · obtain ⟨ds, htext⟩ := head_join_members level next (',' :: newline level)
          (members.map (printMember level)) (newline outer ++ '}' :: rest)
        rw [skip_newline, List.map_cons, htext]
        exact skip_of_stops (stops_cons (by decide))

/-! ## Whole texts -/

theorem length_flatten_le_join (separator : List Char) (pieces : List (List Char)) :
    pieces.flatten.length ≤ (join separator pieces).length := by
  induction pieces with
  | nil => exact Nat.le_refl 0
  | cons t ts ih =>
    cases ts with
    | nil => simp [join]
    | cons u ts =>
      rw [List.flatten_cons, join, List.length_append, List.length_append, List.length_append]
      omega

theorem length_bracket (opening closing : Char) (level : Nat) {pieces : List (List Char)}
    (h : pieces ≠ []) :
    pieces.flatten.length + 2 ≤ (bracket opening closing level pieces).length := by
  have hjoin := length_flatten_le_join (',' :: newline (level + 1)) pieces
  rw [bracket, if_neg (by simpa using h)]
  simp only [List.length_append, List.length_cons, List.length_nil]
  omega

theorem bracket_append {opening closing : Char} {level : Nat} {pieces : List (List Char)}
    (h : pieces ≠ []) (rest : List Char) :
    bracket opening closing level pieces ++ rest = opening :: (newline (level + 1) ++
      (join (',' :: newline (level + 1)) pieces ++ (newline level ++ closing :: rest))) := by
  rw [bracket, if_neg (by simpa using h)]
  simp

theorem readsBack_list {items : List Json} (hp : ∀ j ∈ items, Printable j)
    (hr : ∀ j ∈ items, ReadsBack (level + 1) j) : ReadsBack level (.list items) := by
  intro bound rest _ hb
  rw [print, printItems_eq] at hb ⊢
  cases items with
  | nil => rfl
  | cons item items =>
    have hne : (item :: items).map (print (level + 1)) ≠ [] := by simp
    have hlen := length_bracket '[' ']' level hne
    obtain ⟨c, ds, htext, hspace, hc⟩ := head_join (hp item List.mem_cons_self)
      (',' :: newline (level + 1)) (items.map (print (level + 1))) (newline level ++ ']' :: rest)
    have hskip : skip (c :: ds) = c :: ds := skip_of_stops (stops_cons hspace)
    rw [bracket_append hne, List.map_cons, htext,
      readValue_list ((skip_newline _ _).trans hskip) hc,
      readItems_join (List.cons_ne_nil _ _) hp hr (hskip.trans htext.symm) (by omega)]
    rfl

theorem readsBack_record {members : List (String × Json)} (hp : ∀ m ∈ members, Printable m.2)
    (hr : ∀ m ∈ members, ReadsBack (level + 1) m.2) : ReadsBack level (.record members) := by
  intro bound rest _ hb
  rw [record, print, printMembers_record] at hb ⊢
  cases members with
  | nil => rfl
  | cons m members =>
    have hne : (m :: members).map (printMember (level + 1)) ≠ [] := by simp
    have hlen := length_bracket '{' '}' level hne
    obtain ⟨ds, htext⟩ := head_join_members (level + 1) m (',' :: newline (level + 1))
      (members.map (printMember (level + 1))) (newline level ++ '}' :: rest)
    have hskip : skip ('"' :: ds) = '"' :: ds := skip_of_stops (stops_cons (by decide))
    rw [bracket_append hne, List.map_cons, htext,
      readValue_object ((skip_newline _ _).trans hskip),
      readMembers_join (List.cons_ne_nil _ _) hp hr (hskip.trans htext.symm) (by omega)]
    rfl

theorem readsBack {j : Json} (h : Printable j) (level : Nat) : ReadsBack level j := by
  induction h generalizing level with
  | null => exact fun bound rest _ _ => readValue_null bound rest
  | bool b => exact fun bound rest _ _ => readValue_bool b bound rest
  | number h => exact fun bound rest hrest _ => readValue_number h hrest
  | text s =>
    intro bound rest _ _
    show readValue (bound + 1) (quote s ++ rest) = _
    rw [quote_append, readValue_string, readString_append]
    rfl
  | list h ih => exact readsBack_list h fun j hj => ih j hj (level + 1)
  | record h ih => exact readsBack_record h fun m hm => ih m hm (level + 1)

/-- A value that is printed is read back. -/
theorem read_print {j : Json} (h : Printable j) : read (print 0 j) = some j := by
  have hvalue := readsBack h 0 (2 * (print 0 j).length + 1) [] stops_nil (by omega)
  rw [List.append_nil] at hvalue
  rw [read, hvalue]
  rfl

end Json

end BlockText

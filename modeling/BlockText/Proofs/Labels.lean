import BlockText.Proofs.History
import BlockText.Proofs.Sentences
import BlockText.TreeView

/-!
# Labels

The label of a node tells all about the node but its links: two nodes that follow their shapes and
have one label are of one kind and have the same id, fields, flags and mutation. A label is read
from the left. Kind and id are words, so they end at a blank. The kind says which field comes next
and what it may hold; a text is quoted, a picture has a fixed length, all other values are words.
What is left are the marks, which start in different ways.
-/

namespace BlockText

open Text Lexeme

/-! ## Where a text ends -/

namespace Text

/-- Two texts alike, each a run and what cannot go on the run, have the same run in front. -/
theorem run_append_inj {α : Type} {p : α → Bool} {xs xs' ys ys' : List α}
    (hx : ∀ a ∈ xs, p a = true) (hx' : ∀ a ∈ xs', p a = true)
    (hy : ∀ a ∈ ys.head?, p a = false) (hy' : ∀ a ∈ ys'.head?, p a = false)
    (h : xs ++ ys = xs' ++ ys') : xs = xs' ∧ ys = ys' := by
  induction xs generalizing xs' with
  | nil =>
    cases xs' with
    | nil => exact ⟨rfl, h⟩
    | cons a xs' =>
      have hys : ys = a :: (xs' ++ ys') := h
      have := hy a (by rw [hys]; rfl)
      rw [hx' a List.mem_cons_self] at this
      cases this
  | cons a xs ih =>
    cases xs' with
    | nil =>
      have hys : ys' = a :: (xs ++ ys) := h.symm
      have := hy' a (by rw [hys]; rfl)
      rw [hx a List.mem_cons_self] at this
      cases this
    | cons b xs' =>
      obtain ⟨rfl, htail⟩ := List.cons.inj h
      obtain ⟨rfl, rfl⟩ := ih (fun c hc => hx c (List.mem_cons_of_mem _ hc))
        (fun c hc => hx' c (List.mem_cons_of_mem _ hc)) htail
      exact ⟨rfl, rfl⟩

/-- No blank in a text. -/
def Solid (cs : List Char) : Prop := ∀ c ∈ cs, isBlank c = false

instance (cs : List Char) : Decidable (Solid cs) := decidableForallMem

/-- A text that can follow a word: it starts with a blank, if it starts at all. -/
def Parted (cs : List Char) : Prop := ∀ c ∈ cs.head?, isBlank c = true

theorem parted_nil : Parted [] := by
  intro c hc
  cases hc

theorem parted_space (cs : List Char) : Parted (' ' :: cs) := by
  intro c hc
  cases hc
  decide

theorem Parted.append {xs ys : List Char} (hx : Parted xs) (hy : Parted ys) :
    Parted (xs ++ ys) := by
  cases xs with
  | nil => exact hy
  | cons c xs => exact hx

theorem Solid.append_inj {xs xs' ys ys' : List Char} (hx : Solid xs) (hx' : Solid xs')
    (hy : Parted ys) (hy' : Parted ys') (h : xs ++ ys = xs' ++ ys') : xs = xs' ∧ ys = ys' := by
  apply run_append_inj (p := fun c => !isBlank c) _ _ _ _ h
  · intro c hc
    rw [hx c hc]
    rfl
  · intro c hc
    rw [hx' c hc]
    rfl
  · intro c hc
    rw [hy c hc]
    rfl
  · intro c hc
    rw [hy' c hc]
    rfl

theorem Solid.newline {cs : List Char} (h : Solid cs) : '\n' ∉ cs := by
  intro hc
  have := h _ hc
  revert this
  decide

theorem solid_digits (n : Nat) : Solid (Decimal.digits n) := by
  intro c hc
  exact isBlank_of_isPart (isPart_of_isDigit (Decimal.isDigit_digits hc))

/-- The length of words of one length, joined. -/
theorem length_join {ts : List (List Char)} {k : Nat} (separator : Char) (hne : ts ≠ [])
    (h : ∀ t ∈ ts, t.length = k) :
    (join [separator] ts).length + 1 = ts.length * (k + 1) := by
  induction ts with
  | nil => exact absurd rfl hne
  | cons t ts ih =>
    have ht := h t List.mem_cons_self
    cases ts with
    | nil => simp [join, ht]
    | cons u us =>
      have := ih (by simp) fun t ht => h t (List.mem_cons_of_mem _ ht)
      rw [join, List.length_append, List.length_append, ht, List.length_cons (a := t),
        Nat.succ_mul]
      simp only [List.length_singleton]
      omega

/-! ## Quoted texts -/

/-- The hexadecimal digits of a number are digits of numbers below sixteen. -/
theorem mem_hexDigits {n : Nat} {c : Char} (h : c ∈ hexDigits n) :
    ∃ k : Fin 16, c = k.val.digitChar := by
  induction n using Nat.strongRecOn with
  | ind n ih =>
    by_cases hn : n < 16
    · rw [hexDigits, Nat.toDigits_of_lt_base hn, List.mem_singleton] at h
      exact ⟨⟨n, hn⟩, h⟩
    · rw [hexDigits, Nat.toDigits_of_base_le (by decide) (by omega), List.mem_append,
        List.mem_singleton] at h
      rcases h with h | h
      · exact ih (n / 16) (by omega) h
      · exact ⟨⟨n % 16, by omega⟩, h⟩

theorem digitChar_injective : ∀ j k : Fin 16,
    j.val.digitChar = k.val.digitChar → j = k := by
  decide

theorem hexDigits_injective {m n : Nat} (h : hexDigits m = hexDigits n) : m = n := by
  -- the last digit is the remainder, and the others are the digits of the quotient
  have split (k : Nat) (hk : ¬ k < 16) :
      hexDigits k = hexDigits (k / 16) ++ [(k % 16).digitChar] :=
    Nat.toDigits_of_base_le (by decide) (by omega)
  have single (k : Nat) (hk : k < 16) : hexDigits k = [] ++ [(k % 16).digitChar] := by
    rw [hexDigits, Nat.toDigits_of_lt_base hk, Nat.mod_eq_of_lt hk]
    rfl
  have last {j k : Nat} {xs ys : List Char}
      (he : xs ++ [(j % 16).digitChar] = ys ++ [(k % 16).digitChar]) :
      xs = ys ∧ j % 16 = k % 16 := by
    obtain ⟨hxy, hc⟩ := List.append_inj' he rfl
    have := digitChar_injective ⟨j % 16, by omega⟩ ⟨k % 16, by omega⟩ (List.cons.inj hc).1
    exact ⟨hxy, congrArg Fin.val this⟩
  induction m using Nat.strongRecOn generalizing n with
  | ind m ih =>
    by_cases hm : m < 16 <;> by_cases hn : n < 16
    · rw [single m hm, single n hn] at h
      have := (last h).2
      omega
    · rw [single m hm, split n hn] at h
      exact absurd (last h).1.symm Nat.toDigits_ne_nil
    · rw [split m hm, single n hn] at h
      exact absurd (last h).1 Nat.toDigits_ne_nil
    · rw [split m hm, split n hn] at h
      have hquotient := ih (m / 16) (by omega) (last h).1
      have hremainder := (last h).2
      omega

/-- What a short escape stands for. -/
def spelled? (e : Char) : Option Char :=
  if e = '0' then some (Char.ofNat 0)
  else if e = 't' then some '\t'
  else if e = 'r' then some '\r'
  else if e = 'n' then some '\n'
  else if e = '"' then some '"'
  else if e = '\\' then some '\\'
  else none

/-- The ways in which a character is shown. -/
theorem visibleChar_cases (c : Char) :
    (visibleChar c = [c] ∧ c ≠ '"' ∧ c ≠ '\\' ∧ c ≠ '\n') ∨
    (∃ e, visibleChar c = ['\\', e] ∧ e ≠ 'u' ∧ e ≠ '\n' ∧ spelled? e = some c) ∨
    visibleChar c = '\\' :: 'u' :: '{' :: (hexDigits c.toNat ++ ['}']) := by
  by_cases hshort : c ∈ [Char.ofNat 0, '\t', '\r', '\n', '"', '\\']
  · right
    left
    simp only [List.mem_cons, List.not_mem_nil, or_false] at hshort
    rcases hshort with rfl | rfl | rfl | rfl | rfl | rfl <;>
      exact ⟨_, rfl, by decide, by decide, rfl⟩
  · simp only [List.mem_cons, List.not_mem_nil, or_false, not_or] at hshort
    obtain ⟨hnull, htab, hreturn, hnewline, hquote, hslash⟩ := hshort
    have hform : visibleChar c =
        if isHidden c then ['\\', 'u', '{'] ++ hexDigits c.toNat ++ ['}'] else [c] := by
      rw [visibleChar, if_neg hnull, if_neg htab, if_neg hreturn, if_neg hnewline, if_neg hquote,
        if_neg hslash]
    by_cases hc : isHidden c = true
    · right
      right
      rw [hform, if_pos hc]
      rfl
    · left
      rw [hform, if_neg hc]
      exact ⟨rfl, hquote, hslash, hnewline⟩

/-- A shown character is read off the front of a text. -/
theorem visibleChar_append_inj {c d : Char} {xs ys : List Char}
    (h : visibleChar c ++ xs = visibleChar d ++ ys) : c = d ∧ xs = ys := by
  have hbrace {n : Nat} : ∀ a ∈ hexDigits n, (a != '}') = true := by
    intro a ha
    obtain ⟨k, rfl⟩ := mem_hexDigits ha
    clear ha
    revert k
    decide
  rcases visibleChar_cases c with ⟨hc, -, hcs, -⟩ | ⟨e, hc, heu, -, he⟩ | hc <;>
    rcases visibleChar_cases d with ⟨hd, -, hds, -⟩ | ⟨f, hd, hfu, -, hf⟩ | hd <;>
    rw [hc, hd] at h
  · exact ⟨(List.cons.inj h).1, (List.cons.inj h).2⟩
  · exact absurd (List.cons.inj h).1 hcs
  · exact absurd (List.cons.inj h).1 hcs
  · exact absurd (List.cons.inj h).1.symm hds
  · obtain ⟨rfl, hrest⟩ := List.cons.inj (List.cons.inj h).2
    exact ⟨Option.some.inj (he.symm.trans hf), hrest⟩
  · exact absurd (List.cons.inj (List.cons.inj h).2).1 heu
  · exact absurd (List.cons.inj h).1.symm hds
  · exact absurd (List.cons.inj (List.cons.inj h).2).1.symm hfu
  · simp only [List.cons_append, List.append_assoc, List.cons.injEq, true_and] at h
    obtain ⟨hdigits, hrest⟩ := run_append_inj hbrace hbrace (fun a ha => by cases ha; rfl)
      (fun a ha => by cases ha; rfl) h
    have hcode := hexDigits_injective hdigits
    exact ⟨Char.toNat_inj.mp hcode, (List.cons.inj hrest).2⟩

/-- No shown character looks like the quote at the end. -/
theorem visibleChar_ne_quote (c : Char) (xs ys : List Char) :
    visibleChar c ++ xs ≠ '"' :: ys := by
  intro h
  rcases visibleChar_cases c with ⟨hc, hquote, -⟩ | ⟨e, hc, -⟩ | hc <;> rw [hc] at h
  · exact hquote (List.cons.inj h).1
  · exact absurd (List.cons.inj h).1 (by decide)
  · exact absurd (List.cons.inj h).1 (by decide)

/-- A quoted text is read off the front of a text. -/
theorem visible_append_inj {xs ys rest rest' : List Char}
    (h : visible xs ++ rest = visible ys ++ rest') : xs = ys ∧ rest = rest' := by
  simp only [visible, List.cons_append, List.append_assoc, List.cons.injEq, true_and,
    List.nil_append] at h
  induction xs generalizing ys with
  | nil =>
    cases ys with
    | nil => exact ⟨rfl, (List.cons.inj h).2⟩
    | cons d ys =>
      rw [List.flatMap_cons, List.append_assoc] at h
      exact absurd h.symm (visibleChar_ne_quote d _ _)
  | cons c xs ih =>
    cases ys with
    | nil =>
      rw [List.flatMap_cons, List.append_assoc] at h
      exact absurd h (visibleChar_ne_quote c _ _)
    | cons d ys =>
      rw [List.flatMap_cons, List.flatMap_cons, List.append_assoc, List.append_assoc] at h
      obtain ⟨rfl, htail⟩ := visibleChar_append_inj h
      obtain ⟨rfl, rfl⟩ := ih htail
      exact ⟨rfl, rfl⟩

theorem newline_visible (cs : List Char) : '\n' ∉ visible cs := by
  intro h
  rw [visible, List.cons_append, List.mem_cons, List.mem_append, List.mem_flatMap] at h
  rcases h with h | ⟨c, -, h⟩ | h
  · exact absurd h (by decide)
  · rcases visibleChar_cases c with ⟨hc, -, -, hn⟩ | ⟨e, hc, -, hn, -⟩ | hc <;> rw [hc] at h
    · exact hn (List.mem_singleton.mp h).symm
    · simp only [List.mem_cons, List.not_mem_nil, or_false] at h
      rcases h with h | h
      · exact absurd h (by decide)
      · exact hn h.symm
    · simp only [List.mem_cons, List.mem_append, List.not_mem_nil, or_false] at h
      rcases h with h | h | h | h | h
      · exact absurd h (by decide)
      · exact absurd h (by decide)
      · exact absurd h (by decide)
      · obtain ⟨k, hk⟩ := mem_hexDigits h
        revert k
        decide
      · exact absurd h (by decide)
  · exact absurd h (by decide)

end Text

/-! ## Values of fields -/

theorem Double.solid_text {x : Double} (h : x.isFinite = true) : Solid x.text := by
  cases x with
  | finite negative rank =>
    obtain ⟨whole, fraction, htext, hnum, -⟩ := text_finite negative rank
    have hdigit {c : Char} (hc : c.isDigit = true) : isBlank c = false :=
      isBlank_of_isPart (isPart_of_isDigit hc)
    have hnumeral : Solid (Decimal.numeral whole fraction) := by
      intro c hc
      rcases List.mem_append.mp hc with hc | hc
      · exact hdigit (hnum.whole_digits c hc)
      · split at hc
        · cases hc
        · rcases List.mem_cons.mp hc with rfl | hc
          · decide
          · exact hdigit (hnum.fraction_digits c hc)
    rw [htext]
    intro c hc
    cases negative with
    | false => exact hnumeral c hc
    | true =>
      rcases List.mem_cons.mp hc with rfl | hc
      · decide
      · exact hnumeral c hc
  | infinite negative => cases h
  | nan => cases h

theorem Double.text_injective {x y : Double} (hx : x.isFinite = true) (hy : y.isFinite = true)
    (h : x.text = y.text) : x = y := by
  have := ofText?_text hx
  rw [h, ofText?_text hy] at this
  exact (Option.some.inj this).symm

theorem Word.solid_of_isIdentifier {cs : List Char} (h : isIdentifier cs = true) : Solid cs := by
  rw [isIdentifier, Bool.and_eq_true] at h
  cases cs with
  | nil => cases h.1
  | cons c cs =>
    have hword := h.1
    rw [isWord, Bool.and_eq_true, List.all_eq_true] at hword
    intro d hd
    rcases List.mem_cons.mp hd with rfl | hd
    · exact isBlank_of_isPart (isPart_of_isStart hword.1)
    · exact isBlank_of_isPart (hword.2 d hd)

namespace Bitmap

theorem length_text (b : Bitmap) : b.text.length = 29 := by
  obtain ⟨rows, hlen, hrows⟩ := b
  have hne : (rows.map fun r => r.map cell) ≠ [] := by
    intro h
    rw [List.map_eq_nil_iff.mp h] at hlen
    cases hlen
  have hwords : ∀ t ∈ rows.map fun r => r.map cell, t.length = 5 := by
    intro t ht
    obtain ⟨r, hr, rfl⟩ := List.mem_map.mp ht
    rw [List.length_map, hrows r hr]
  have hlength := length_join ' ' hne hwords
  rw [List.length_map, hlen] at hlength
  exact Nat.succ.inj hlength

end Bitmap

namespace FieldSpec

/-- The fields whose values can be told where they end: the options of a choice are words. -/
inductive Legible : FieldSpec → Prop
  | number (name : String) (x : Double) : Legible (number name x)
  | text (name s : String) : Legible (text name s)
  | choice (name : String) (options : List String) :
      (∀ s ∈ options, Solid s.toList) → Legible (choice name options)
  | bool (name : String) (b : Bool) : Legible (bool name b)
  | bitmap (name : String) : Legible (bitmap name)
  | var (name : String) : Legible (var name)

variable {spec : FieldSpec} {u v : FieldValue} {rest rest' : List Char}

theorem solid_bool (b : Bool) : Solid (FieldValue.bool b).shown := by cases b <;> decide

/-- The value of a field is read off the front of a text. -/
theorem Legible.shown_append_inj (hs : spec.Legible) (hu : spec.accepts u = true)
    (hv : spec.accepts v = true) (hrest : Parted rest) (hrest' : Parted rest')
    (h : u.shown ++ rest = v.shown ++ rest') : u = v ∧ rest = rest' := by
  cases hs with
  | number name x =>
    obtain ⟨x, rfl, hx⟩ := accepts_number hu
    obtain ⟨y, rfl, hy⟩ := accepts_number hv
    obtain ⟨htext, rfl⟩ := (Double.solid_text hx).append_inj (Double.solid_text hy) hrest hrest' h
    exact ⟨by rw [Double.text_injective hx hy htext], rfl⟩
  | text name s =>
    obtain ⟨s, rfl⟩ := accepts_text hu
    obtain ⟨t, rfl⟩ := accepts_text hv
    obtain ⟨hst, rfl⟩ := visible_append_inj h
    exact ⟨by rw [String.toList_inj.mp hst], rfl⟩
  | choice name options hwords =>
    obtain ⟨s, hs, rfl⟩ := accepts_choice hu
    obtain ⟨t, ht, rfl⟩ := accepts_choice hv
    obtain ⟨hst, rfl⟩ := (hwords s hs).append_inj (hwords t ht) hrest hrest' h
    exact ⟨by rw [String.toList_inj.mp hst], rfl⟩
  | bool name b =>
    obtain ⟨a, rfl⟩ := accepts_bool hu
    obtain ⟨b, rfl⟩ := accepts_bool hv
    obtain ⟨hab, rfl⟩ := (solid_bool a).append_inj (solid_bool b) hrest hrest' h
    refine ⟨?_, rfl⟩
    revert hab
    cases a <;> cases b <;> decide
  | bitmap name =>
    obtain ⟨a, rfl⟩ := accepts_bitmap hu
    obtain ⟨b, rfl⟩ := accepts_bitmap hv
    obtain ⟨hab, rfl⟩ := List.append_inj h (a.length_text.trans b.length_text.symm)
    exact ⟨by rw [Bitmap.text_injective hab], rfl⟩
  | var name =>
    obtain ⟨s, rfl, hs⟩ := accepts_var hu
    obtain ⟨t, rfl, ht⟩ := accepts_var hv
    obtain ⟨hst, rfl⟩ := (Word.solid_of_isIdentifier hs).append_inj
      (Word.solid_of_isIdentifier ht) hrest hrest' h
    exact ⟨by rw [String.toList_inj.mp hst], rfl⟩

theorem Legible.newline_shown (hs : spec.Legible) (hv : spec.accepts v = true) :
    '\n' ∉ v.shown := by
  cases hs with
  | number name x =>
    obtain ⟨x, rfl, hx⟩ := accepts_number hv
    exact (Double.solid_text hx).newline
  | text name s =>
    obtain ⟨s, rfl⟩ := accepts_text hv
    exact newline_visible s.toList
  | choice name options hwords =>
    obtain ⟨s, hs, rfl⟩ := accepts_choice hv
    exact (hwords s hs).newline
  | bool name b =>
    obtain ⟨b, rfl⟩ := accepts_bool hv
    exact (solid_bool b).newline
  | bitmap name =>
    obtain ⟨b, rfl⟩ := accepts_bitmap hv
    intro h
    have := b.mem_text _ h
    revert this
    decide
  | var name =>
    obtain ⟨s, rfl, hs⟩ := accepts_var hv
    exact (Word.solid_of_isIdentifier hs).newline

end FieldSpec

/-! ## Fields of a node -/

/-- A block has at most one field, and its value can be told where it ends. -/
theorem Kind.fields_cases (k : Kind) : k.definition.shape.fields = [] ∨
    ∃ spec, k.definition.shape.fields = [spec] ∧ spec.Legible ∧ '\n' ∉ spec.name.toList := by
  cases k with
  | onButtonPressed | onGesture | showIcon | logicCompare | logicOperation | mathArithmetic
  | buttonIsPressed | acceleration =>
    exact .inr ⟨_, rfl, .choice _ _ (by decide), by decide⟩
  | showString | text => exact .inr ⟨_, rfl, .text _ _, by decide⟩
  | showLeds => exact .inr ⟨_, rfl, .bitmap _, by decide⟩
  | mathNumber => exact .inr ⟨_, rfl, .number _ _, by decide⟩
  | logicBoolean => exact .inr ⟨_, rfl, .bool _ _, by decide⟩
  | setVariable | changeVariable | variablesGet => exact .inr ⟨_, rfl, .var _, by decide⟩
  | _ => exact .inl rfl

namespace Shape.Admits

variable {s : Shape} {fields : SortedMap String FieldValue}

theorem eq_empty (h : s.Admits fields) (hs : s.fields = []) : fields = .empty := by
  refine SortedMap.ext fun name => ?_
  have := h name
  rw [show s.field? name = none by rw [field?, hs]; rfl] at this
  exact this

theorem eq_single {spec : FieldSpec} (h : s.Admits fields) (hs : s.fields = [spec]) :
    ∃ v, spec.accepts v = true ∧ fields = SortedMap.empty.insert spec.name v := by
  have hfield : s.field? spec.name = some spec := by simp [field?, hs]
  obtain ⟨v, hget, hv⟩ := h.get spec.name hfield
  refine ⟨v, hv, SortedMap.ext fun name => ?_⟩
  rw [SortedMap.get?_insert, SortedMap.get?_empty]
  by_cases hname : name = spec.name
  · rw [if_pos hname, hname, hget]
  · have := h name
    rw [show s.field? name = none by simp [field?, hs, Ne.symm hname]] at this
    rw [if_neg hname, this]

end Shape.Admits

namespace TreeView

/-- The fields of a node as they are shown. -/
def fieldText (fields : SortedMap String FieldValue) : List Char :=
  fields.entries.flatMap fun f => ' ' :: f.1.toList ++ '=' :: f.2.shown

@[simp] theorem fieldText_single (name : String) (v : FieldValue) :
    fieldText (SortedMap.empty.insert name v) = ' ' :: (name.toList ++ '=' :: v.shown) := by
  simp [fieldText, SortedMap.insert, SortedMap.empty, SortedMap.put]

theorem parted_fieldText (fields : SortedMap String FieldValue) : Parted (fieldText fields) := by
  unfold fieldText
  cases fields.entries with
  | nil => exact parted_nil
  | cons f fs => exact parted_space _

/-- The fields of a kind are read off the front of a text. -/
theorem fieldText_append_inj (k : Kind) {fields fields' : SortedMap String FieldValue}
    {rest rest' : List Char} (hf : k.definition.shape.Admits fields)
    (hf' : k.definition.shape.Admits fields') (hrest : Parted rest) (hrest' : Parted rest')
    (h : fieldText fields ++ rest = fieldText fields' ++ rest') :
    fields = fields' ∧ rest = rest' := by
  rcases k.fields_cases with hk | ⟨spec, hk, hs, -⟩
  · rw [hf.eq_empty hk, hf'.eq_empty hk] at h ⊢
    exact ⟨rfl, h⟩
  · obtain ⟨u, hu, rfl⟩ := hf.eq_single hk
    obtain ⟨v, hv, rfl⟩ := hf'.eq_single hk
    rw [fieldText_single, fieldText_single] at h
    simp only [List.cons_append, List.append_assoc, List.cons.injEq, true_and,
      List.append_cancel_left_eq] at h
    obtain ⟨rfl, rfl⟩ := hs.shown_append_inj hu hv hrest hrest' h
    exact ⟨rfl, rfl⟩

theorem newline_fieldText (k : Kind) {fields : SortedMap String FieldValue}
    (hf : k.definition.shape.Admits fields) : '\n' ∉ fieldText fields := by
  rcases k.fields_cases with hk | ⟨spec, hk, hs, hname⟩
  · rw [hf.eq_empty hk]
    exact List.not_mem_nil
  · obtain ⟨v, hv, rfl⟩ := hf.eq_single hk
    have := hs.newline_shown hv
    simp [hname, this]

/-! ## Marks -/

/-- The mark of a default. -/
def shadowMark (shadow : Bool) : List Char := if shadow then " (shadow)".toList else []

/-- The mark of a conditional. -/
def mutationMark (mutation : Option Mutation) : List Char :=
  mutation.elim [] fun m => " [".toList ++ m.shown ++ [']']

/-- The mark of a node that is left out. -/
def disabledMark (disabled : Option Disabled) : List Char :=
  disabled.elim [] fun d => " [disabled: ".toList ++ d.message.toList ++ [']']

/-- What a label says beside kind, id and fields. -/
def marks (n : Node) : List Char :=
  shadowMark n.shadow ++ (mutationMark n.mutation ++ disabledMark n.disabled)

theorem parted_marks (n : Node) : Parted (marks n) := by
  refine Parted.append ?_ (Parted.append ?_ ?_)
  · cases n.shadow
    · exact parted_nil
    · exact parted_space _
  · cases n.mutation
    · exact parted_nil
    · exact parted_space _
  · cases n.disabled
    · exact parted_nil
    · exact parted_space _

theorem disabledMark_injective {d e : Option Disabled} (h : disabledMark d = disabledMark e) :
    d = e := by
  revert h
  rcases d with _ | _ | _ <;> rcases e with _ | _ | _ <;> decide

/-- A mutation is read off the front of a text. -/
theorem mutation_append_inj {m m' : Mutation} {rest rest' : List Char}
    (h : m.shown ++ ']' :: rest = m'.shown ++ ']' :: rest') : m = m' ∧ rest = rest' := by
  obtain ⟨count, hasElse⟩ := m
  obtain ⟨count', hasElse'⟩ := m'
  unfold Mutation.shown at h
  simp only [List.append_assoc, List.append_cancel_left_eq] at h
  obtain ⟨hcount, htail⟩ := run_append_inj (p := Char.isDigit)
    (fun c hc => Decimal.isDigit_digits hc) (fun c hc => Decimal.isDigit_digits hc)
    (fun c hc => by cases hc; rfl) (fun c hc => by cases hc; rfl) h
  have hcount : count = count' := by
    rw [← Decimal.ofDigits_digits count, hcount, Decimal.ofDigits_digits]
  subst hcount
  rw [List.append_cancel_left_eq] at htail
  -- after the conditions stands a plus or the bracket
  cases hasElse <;> cases hasElse'
  · exact ⟨rfl, (List.cons.inj htail).2⟩
  · exact absurd (List.cons.inj htail).1 (by decide)
  · exact absurd (List.cons.inj htail).1 (by decide)
  · simp only [if_true, List.append_cancel_left_eq, List.cons.injEq, true_and] at htail
    exact ⟨rfl, htail⟩

theorem mutationMark_append_inj {m m' : Option Mutation} {rest rest' : List Char}
    (hm : m.isSome = m'.isSome) (h : mutationMark m ++ rest = mutationMark m' ++ rest') :
    m = m' ∧ rest = rest' := by
  cases m with
  | none =>
    cases m' with
    | none => exact ⟨rfl, h⟩
    | some m' => cases hm
  | some m =>
    cases m' with
    | none => cases hm
    | some m' =>
      simp only [mutationMark, Option.elim, List.append_assoc, List.append_cancel_left_eq,
        List.cons_append, List.nil_append] at h
      obtain ⟨rfl, rfl⟩ := mutation_append_inj h
      exact ⟨rfl, rfl⟩

/-- What follows the mark of a default does not look like it. -/
theorem bracket_ne (m : Option Mutation) (d : Option Disabled) (rest : List Char) :
    mutationMark m ++ disabledMark d ≠ ' ' :: '(' :: rest := by
  intro h
  cases m with
  | some m => exact absurd (List.cons.inj (List.cons.inj h).2).1 (by decide)
  | none =>
    cases d with
    | some d => exact absurd (List.cons.inj (List.cons.inj h).2).1 (by decide)
    | none => cases h

theorem marks_inj {n m : Node} (hm : n.mutation.isSome = m.mutation.isSome)
    (h : marks n = marks m) :
    n.shadow = m.shadow ∧ n.mutation = m.mutation ∧ n.disabled = m.disabled := by
  unfold marks at h
  have hshadow : n.shadow = m.shadow := by
    cases hn : n.shadow <;> cases hm : m.shadow
    · rfl
    · rw [hn, hm] at h
      exact absurd h (bracket_ne _ _ _)
    · rw [hn, hm] at h
      exact absurd h.symm (bracket_ne _ _ _)
    · rfl
  rw [hshadow, List.append_cancel_left_eq] at h
  obtain ⟨hmutation, hdisabled⟩ := mutationMark_append_inj hm h
  exact ⟨hshadow, hmutation, disabledMark_injective hdisabled⟩

theorem newline_mutation (m : Mutation) : '\n' ∉ m.shown := by
  refine List.not_mem_append (List.not_mem_append (List.not_mem_append (by decide) ?_)
    (by decide)) ?_
  · exact (solid_digits m.elseIfs).newline
  · cases m.hasElse <;> decide

theorem newline_marks (n : Node) : '\n' ∉ marks n := by
  refine List.not_mem_append ?_ (List.not_mem_append ?_ ?_)
  · cases n.shadow <;> decide
  · cases n.mutation with
    | none => exact List.not_mem_nil
    | some m =>
      exact List.not_mem_append (List.not_mem_append (by decide) (newline_mutation m)) (by decide)
  · rcases n.disabled with _ | _ | _ <;> decide

/-! ## Labels -/

theorem toList_shown (id : NodeId) : id.shown.toList = '#' :: Decimal.digits id := by
  simp [NodeId.shown, toString, Nat.repr, Decimal.digits]

theorem label_eq (n : Node) : label n = n.kind.name.toList ++
    ' ' :: '#' :: (Decimal.digits n.id ++ (fieldText n.fields ++ marks n)) := by
  unfold label
  rw [toList_shown]
  simp only [List.append_assoc, List.cons_append]
  rfl

end TreeView

/-- A node has the fields of its kind, and a mutation if its kind takes one. -/
def Node.Described (n : Node) : Prop :=
  n.mutation.isSome = n.kind.definition.shape.isBranching ∧ n.kind.definition.shape.Admits n.fields

theorem Conforms.describes {w : Workspace} (h : Conforms .builtin w) {x : NodeId} {n : Node}
    (hx : w.get? x = some n) : n.Described := by
  obtain ⟨d, hd, hmut, hadm⟩ := h.described x n hx
  rw [Registry.find?_builtin, Option.some.injEq] at hd
  subst hd
  exact ⟨hmut, hadm⟩

namespace TreeView

theorem solid_name (k : Kind) : Solid k.name.toList := by cases k <;> decide

theorem name_injective {k l : Kind} (h : k.name.toList = l.name.toList) : k = l := by
  have found (k : Kind) : Kind.ofName? k.name = some k := by cases k <;> rfl
  have := found k
  rw [String.toList_inj.mp h, found l] at this
  exact (Option.some.inj this).symm

/-- A label tells all about a node but its links. -/
theorem label_inj {n m : Node} (hn : n.Described) (hm : m.Described) (h : label n = label m) :
    n.Alike m ∧ n.disabled = m.disabled := by
  rw [label_eq, label_eq] at h
  obtain ⟨hname, hrest⟩ := (solid_name n.kind).append_inj (solid_name m.kind) (parted_space _)
    (parted_space _) h
  have hkind := name_injective hname
  simp only [List.cons.injEq, true_and] at hrest
  obtain ⟨hdigits, hrest⟩ := (solid_digits n.id).append_inj (solid_digits m.id)
    ((parted_fieldText _).append (parted_marks n)) ((parted_fieldText _).append (parted_marks m))
    hrest
  have hid : n.id = m.id := by
    rw [← Decimal.ofDigits_digits n.id, hdigits, Decimal.ofDigits_digits]
  obtain ⟨hfields, hmarks⟩ := fieldText_append_inj n.kind hn.2 (hkind ▸ hm.2)
    (parted_marks n) (parted_marks m) hrest
  have hmutation : n.mutation.isSome = m.mutation.isSome := by
    rw [hn.1, hm.1, hkind]
  obtain ⟨hshadow, hmutation, hdisabled⟩ := marks_inj hmutation hmarks
  exact ⟨⟨hid, hkind, hfields, hmutation, hshadow⟩, hdisabled⟩

theorem newline_label {n : Node} (hn : n.Described) : '\n' ∉ label n := by
  rw [label_eq]
  simp only [List.mem_append, List.mem_cons, not_or]
  refine ⟨(solid_name n.kind).newline, by decide, by decide, (solid_digits n.id).newline, ?_, ?_⟩
  · exact newline_fieldText n.kind hn.2
  · exact newline_marks n

/-- A label does not start like a line of a drawing. -/
theorem head_label (n : Node) : ∃ c rest, label n = c :: rest ∧ c ∉ ['└', '├', '│', ' '] := by
  obtain ⟨c, cs, hname, hc⟩ : ∃ c cs, n.kind.name.toList = c :: cs ∧ c ∉ ['└', '├', '│', ' '] := by
    cases n.kind <;> exact ⟨_, _, rfl, by decide⟩
  exact ⟨c, _, by rw [label_eq, hname]; rfl, hc⟩

end TreeView

end BlockText

import BlockText.Proofs.Clauses

/-!
# Excerpts

The source of an input is an excerpt: a part of the text that its idiom matched, as it stands there.
A pattern names parts of what it takes, and an extractor passes on parts of what was named. What a
statement idiom names also stands on one line. The text of that line before it is one that no block
mark has, so the line is a line of the source.
-/

namespace BlockText

open Text Catalogue

/-! ## Parts of texts -/

namespace Text

variable {t xs ys : List Char}

theorem infix_trim (xs : List Char) : trim xs <:+: xs :=
  (Text.trimEnd_prefix _).isInfix.trans (List.dropWhile_suffix _).isInfix

theorem infix_of_mem_join {separator p : List Char} {ps : List (List Char)} (h : p ∈ ps) :
    p <:+: join separator ps := by
  fun_induction join separator ps with
  | case1 => cases h
  | case2 q =>
    obtain rfl := List.mem_singleton.mp h
    exact List.infix_rfl
  | case3 q r ps ih =>
    rcases List.mem_cons.mp h with rfl | h
    · rw [List.append_assoc]
      exact (List.prefix_append _ _).isInfix
    · exact (ih h).trans (List.suffix_append _ _).isInfix

theorem hasPart_iff : hasPart t xs = true ↔ t <:+: xs := by
  induction xs with
  | nil => simp [hasPart]
  | cons c xs ih =>
    rw [hasPart, Bool.or_eq_true, ih, List.isPrefixOf_iff_prefix, List.infix_cons_iff]

/-- A text without a line end stands on one side of each. -/
theorem infix_of_newline (ht : '\n' ∉ t) (h : t <:+: xs ++ '\n' :: ys) : t <:+: xs ∨ t <:+: ys := by
  -- what starts before a line end and has none is over before it
  have hfront : ∀ {zs : List Char}, t <+: zs ++ '\n' :: ys → t <+: zs := by
    intro zs hp
    rcases List.prefix_or_prefix_of_prefix hp (List.prefix_append zs ('\n' :: ys)) with h | ⟨u, rfl⟩
    · exact h
    · rw [List.prefix_append_right_inj] at hp
      cases u with
      | nil => simp
      | cons c u =>
        obtain rfl := (List.cons_prefix_cons.mp hp).1
        simp at ht
  induction xs with
  | nil =>
    rw [List.nil_append, List.infix_cons_iff] at h
    exact h.imp (fun h => (hfront h).isInfix) id
  | cons c xs ih =>
    rw [List.cons_append, List.infix_cons_iff] at h
    rcases h with h | h
    · exact .inl (hfront h).isInfix
    · exact (ih h).imp (fun h => h.trans (List.suffix_cons c xs).isInfix) id

end Text

/-! ## Parts of expressions -/

namespace Expression

open Lexeme

theorem infix_of_splitArguments {cs : List Char} {arguments : List (List Char)}
    (h : splitArguments cs = some arguments) : ∀ a ∈ arguments, a <:+: cs := by
  obtain ⟨ps, -, -, rfl, rfl, -⟩ := splitArguments_eq_some.mp h
  exact List.forall_mem_map.mpr fun p hp => (infix_trim p).trans (infix_of_mem_join hp)

theorem infix_of_splitBinary {cs left sign right : List Char} {operators : List (List Char)}
    (h : splitBinary operators cs = some (left, sign, right)) : left <:+: cs ∧ right <:+: cs := by
  unfold splitBinary at h
  split at h
  · cases h
  · next ls gap hscan =>
    split at h
    · cases h
    · split at h
      · next place _ =>
        split at h
        · cases h
        · next joint after hdrop =>
          simp only at h
          split at h
          · cases h
            have htext : cs = spell (ls.take place) ++ joint.gap ++ (joint.text ++
                (spell after ++ gap)) := by
              have hls : ls = ls.take place ++ joint :: after := by
                rw [← hdrop, List.take_append_drop]
              have hspell := congrArg spell hls
              rw [spell_append, spell_cons] at hspell
              rw [← spell_scan hscan, hspell]
              simp
            rw [htext]
            refine ⟨(infix_trim _).trans (List.prefix_append _ _).isInfix,
              (infix_trim _).trans ?_⟩
            exact (List.suffix_append _ _).isInfix.trans (List.suffix_append _ _).isInfix
          · cases h
      · cases h

end Expression

/-! ## What patterns name -/

namespace Pattern

theorem spanNumber_append (cs : List Char) : (spanNumber cs).1 ++ (spanNumber cs).2 = cs := by
  have hsign : (cs.takeWhile (· == '-')).take 1 ++
      cs.drop ((cs.takeWhile (· == '-')).take 1).length = cs := by
    have hp : (cs.takeWhile (· == '-')).take 1 <+: cs :=
      (List.take_prefix _ _).trans (List.takeWhile_prefix _)
    exact List.prefix_iff_eq_append.mp hp
  unfold spanNumber
  simp only
  split
  · rfl
  · split
    · next more hmore =>
      have hdigits := List.takeWhile_append_dropWhile (p := Char.isDigit)
        (l := cs.drop ((cs.takeWhile (· == '-')).take 1).length)
      split
      · dsimp only
        rw [List.append_assoc, hdigits, hsign]
      · have hfraction := List.takeWhile_append_dropWhile (p := Char.isDigit) (l := more)
        rw [hmore] at hdigits
        dsimp only
        rw [List.append_assoc, List.cons_append, hfraction, List.append_assoc, hdigits, hsign]
    · dsimp only
      rw [List.append_assoc, List.takeWhile_append_dropWhile, hsign]

variable {p q : Pattern} {Q : List Char → List Char → Prop} {name : String}

/-- All that a pattern names is in a relation to the text that it takes. -/
def Quotes (Q : List Char → List Char → Prop) (p : Pattern) : Prop :=
  ∀ cs c rest, p.scan cs = some (c, rest) → ∃ front, cs = front ++ rest ∧ ∀ s ∈ c, Q s.2 front

theorem quotes_lit (text : List Char) : (lit text).Quotes Q := by
  intro cs c rest h
  rw [scan] at h
  obtain ⟨rest', hrest, he⟩ := Option.map_eq_some_iff.mp h
  cases he
  exact ⟨text, dropStart?_eq_some.mp hrest, by simp⟩

theorem quotes_block : block.Quotes Q := by
  intro cs c rest h
  obtain ⟨rfl, hcs⟩ := scan_block_some h
  exact ⟨blockMark, hcs, by simp⟩

section Parts

variable (hQ : ∀ s t u, Q s t → t <:+: u → Q s u)
include hQ

theorem Quotes.append (hp : p.Quotes Q) (hq : q.Quotes Q) : (p ++ q).Quotes Q := by
  intro cs c rest h
  obtain ⟨c₁, mid, c₂, h₁, h₂, rfl⟩ := scan_append_some h
  obtain ⟨t₁, rfl, ht₁⟩ := hp _ _ _ h₁
  obtain ⟨t₂, rfl, ht₂⟩ := hq _ _ _ h₂
  refine ⟨t₁ ++ t₂, (List.append_assoc t₁ t₂ rest).symm, List.forall_mem_append.mpr ⟨?_, ?_⟩⟩
  · exact fun s hs => hQ _ _ _ (ht₁ s hs) (List.prefix_append _ _).isInfix
  · exact fun s hs => hQ _ _ _ (ht₂ s hs) (List.suffix_append _ _).isInfix

theorem Quotes.many (hp : p.Quotes Q) : (many p).Quotes Q := by
  -- by induction on the rounds that are left: one round is `hp`, the others are the hypothesis
  have key : ∀ fuel cs c rest, iterate p.scan fuel cs = (c, rest) →
      ∃ front, cs = front ++ rest ∧ ∀ s ∈ c, Q s.2 front := by
    intro fuel
    induction fuel with
    | zero =>
      intro cs c rest h
      cases h
      exact ⟨[], rfl, by simp⟩
    | succ fuel ih =>
      intro cs c rest h
      rw [iterate] at h
      split at h
      · cases h
        exact ⟨[], rfl, by simp⟩
      · next c₁ mid hstep =>
        split at h
        · generalize hmore : iterate p.scan fuel mid = r at h
          cases h
          obtain ⟨t₁, rfl, ht₁⟩ := hp _ _ _ hstep
          obtain ⟨t₂, ht, ht₂⟩ := ih _ _ _ hmore
          refine ⟨t₁ ++ t₂, by rw [List.append_assoc, ← ht], List.forall_mem_append.mpr ⟨?_, ?_⟩⟩
          · exact fun s hs => hQ _ _ _ (ht₁ s hs) (List.prefix_append _ _).isInfix
          · exact fun s hs => hQ _ _ _ (ht₂ s hs) (List.suffix_append _ _).isInfix
        · cases h
          exact ⟨[], rfl, by simp⟩
  intro cs c rest h
  rw [scan, Option.some.injEq] at h
  exact key _ _ _ _ h

end Parts

theorem Quotes.opt (hp : p.Quotes Q) : (opt p).Quotes Q := by
  intro cs c rest h
  rw [scan, Option.some.injEq] at h
  cases hs : p.scan cs with
  | none =>
    rw [hs] at h
    cases h
    exact ⟨[], rfl, by simp⟩
  | some r =>
    rw [hs] at h
    cases h
    exact hp _ _ _ hs

/-- What a pattern names is part of what it takes. -/
theorem quotes_parts (p : Pattern) : p.Quotes (· <:+: ·) := by
  -- most patterns name all that they take
  have piece {p : Pattern} (h : ∀ cs c rest, p.scan cs = some (c, rest) →
      ∃ name piece, c = [(name, piece)] ∧ cs = piece ++ rest) : p.Quotes (· <:+: ·) := by
    intro cs c rest hs
    obtain ⟨name, piece, rfl, hcs⟩ := h cs c rest hs
    exact ⟨piece, hcs, List.forall_mem_singleton.mpr List.infix_rfl⟩
  induction p with
  | lit text => exact quotes_lit text
  | block => exact quotes_block
  | hole name ending =>
    refine piece fun cs c rest h => ?_
    obtain ⟨t, hc, hcs, -⟩ := scan_hole_some h
    exact ⟨name, t, hc, hcs⟩
  | run name ranges =>
    refine piece fun cs c rest h => ?_
    rw [scan] at h
    obtain ⟨rfl, rfl, -⟩ := named_some h
    exact ⟨name, _, rfl, List.takeWhile_append_dropWhile.symm⟩
  | word name =>
    refine piece fun cs c rest h => ?_
    obtain ⟨t, hc, hcs, -⟩ := scan_word_some h
    exact ⟨name, t, hc, hcs⟩
  | literal name =>
    refine piece fun cs c rest h => ?_
    obtain ⟨t, hc, hspan⟩ := scan_literal_some h
    exact ⟨name, t, hc, (Lexeme.span_append hspan).symm⟩
  | number name =>
    refine piece fun cs c rest h => ?_
    rw [scan] at h
    obtain ⟨rfl, rfl, -⟩ := named_some h
    exact ⟨name, _, rfl, (spanNumber_append cs).symm⟩
  | oneOf name options =>
    refine piece fun cs c rest h => ?_
    rw [scan] at h
    obtain ⟨⟨o, rest'⟩, ho, he⟩ := Option.map_eq_some_iff.mp h
    cases he
    exact ⟨name, o, rfl, (firstOption?_eq_some ho).2⟩
  | seq p q ihp ihq => exact ihp.append (fun _ _ _ hs ht => hs.trans ht) ihq
  | opt p ih => exact ih.opt
  | many p ih => exact ih.many fun _ _ _ hs ht => hs.trans ht
  | silent p ih =>
    intro cs c rest h
    obtain ⟨rfl, c', hp⟩ := scan_silent_some h
    obtain ⟨front, hcs, -⟩ := ih _ _ _ hp
    exact ⟨front, hcs, by simp⟩
  | whole name p ih =>
    intro cs c rest h
    obtain ⟨c', hp, rfl⟩ := scan_whole_some h
    obtain ⟨front, hcs, hparts⟩ := ih _ _ _ hp
    rw [take_front hcs]
    exact ⟨front, hcs, List.forall_mem_cons.mpr ⟨List.infix_rfl, hparts⟩⟩

/-! ## Parts of a line -/

/-- A part of a text that is not all of it. -/
def IsProper (s cs : List Char) : Prop := s <:+: cs ∧ s.length < cs.length

theorem IsProper.mono (s t u : List Char) (h : IsProper s t) (ht : t <:+: u) : IsProper s u :=
  ⟨h.1.trans ht, Nat.lt_of_lt_of_le h.2 ht.length_le⟩

/-- What is named after some fixed text is not all that is taken. -/
theorem quotes_after {start : String} (h : start.toList ≠ []) (p : Pattern) :
    (lits start ++ p).Quotes IsProper := by
  intro cs c rest hscan
  obtain ⟨c₁, mid, c₂, hstart, hp, rfl⟩ := scan_append_some hscan
  obtain ⟨rfl, rfl⟩ := scan_lits_some hstart
  obtain ⟨front, rfl, hparts⟩ := p.quotes_parts _ _ _ hp
  refine ⟨start.toList ++ front, (List.append_assoc _ _ _).symm, fun s hs => ?_⟩
  have hs := hparts s hs
  refine ⟨hs.trans (List.suffix_append _ _).isInfix, ?_⟩
  have hle := hs.length_le
  have hpos := List.length_pos_of_ne_nil h
  rw [List.length_append]
  omega

/-- A text stands on a line of some text, together with something that no block mark has. -/
def OnLine (s cs : List Char) : Prop :=
  ∃ t, s <:+: t ∧ t <:+: cs ∧ '\n' ∉ t ∧ ¬ t <:+: blockMark

theorem OnLine.mono (s t u : List Char) (h : OnLine s t) (ht : t <:+: u) : OnLine s u := by
  obtain ⟨l, hs, hl, hline⟩ := h
  exact ⟨l, hs, hl.trans ht, hline⟩

/-- A pattern that takes something that no block mark has. -/
def Marked (p : Pattern) : Prop :=
  ∀ cs c rest, p.scan cs = some (c, rest) → ∃ front, cs = front ++ rest ∧ ¬ front <:+: blockMark

theorem marked_lits {s : String} (h : ¬ s.toList <:+: blockMark) : (lits s).Marked :=
  fun _ _ _ hs => ⟨_, (scan_lits_some hs).2, h⟩

theorem Marked.append_left (hp : p.Marked) : (p ++ q).Marked := by
  intro cs c rest h
  obtain ⟨c₁, mid, c₂, h₁, h₂, -⟩ := scan_append_some h
  obtain ⟨t₁, rfl, ht₁⟩ := hp _ _ _ h₁
  obtain ⟨t₂, rfl, -⟩ := q.quotes_parts _ _ _ h₂
  exact ⟨t₁ ++ t₂, (List.append_assoc t₁ t₂ rest).symm,
    fun h => ht₁ ((List.prefix_append _ _).isInfix.trans h)⟩

theorem Marked.append_right (hq : q.Marked) : (p ++ q).Marked := by
  intro cs c rest h
  obtain ⟨c₁, mid, c₂, h₁, h₂, -⟩ := scan_append_some h
  obtain ⟨t₁, rfl, -⟩ := p.quotes_parts _ _ _ h₁
  obtain ⟨t₂, rfl, ht₂⟩ := hq _ _ _ h₂
  exact ⟨t₁ ++ t₂, (List.append_assoc t₁ t₂ rest).symm,
    fun h => ht₂ ((List.suffix_append _ _).isInfix.trans h)⟩

/-- A pattern for a part of a line names parts of that line. -/
theorem Inline.quotes (hp : p.Inline) (hm : p.Marked) : p.Quotes OnLine := by
  intro cs c rest h
  obtain ⟨front, hcs, hparts⟩ := p.quotes_parts _ _ _ h
  obtain ⟨line, hline, hnewline⟩ := hp _ _ _ h
  obtain ⟨marked, hmarked, hmark⟩ := hm _ _ _ h
  obtain rfl : front = line := List.append_cancel_right (hcs.symm.trans hline)
  obtain rfl : front = marked := List.append_cancel_right (hcs.symm.trans hmarked)
  exact ⟨front, hcs, fun s hs => ⟨front, hparts s hs, List.infix_rfl, hnewline, hmark⟩⟩

theorem Quotes.followed (hp : p.Quotes OnLine) (hq : q.Quotes OnLine) : (p ++ q).Quotes OnLine :=
  hp.append OnLine.mono hq

/-- A header with a body names a part of its line. -/
theorem quotes_header {start close : String} {ending : List Char} (hstart : '\n' ∉ start.toList)
    (hmark : ¬ start.toList <:+: blockMark) :
    (lits start ++ hole name ending ++ lits close ++ block ++ lits "\n").Quotes OnLine := by
  have hline : (lits start ++ hole name ending).Inline :=
    (inline_lits hstart).append (inline_hole name ending)
  exact (((hline.quotes (marked_lits hmark).append_left).followed (quotes_lit _)).followed
    quotes_block).followed (quotes_lit _)

end Pattern

/-! ## What extractors pass on -/

namespace Captures

variable {c : Captures} {name : String} {t : List Char}

theorem mem_of_first? (h : c.first? name = some t) : ∃ s ∈ c, s.2 = t := by
  obtain ⟨s, hs, rfl⟩ := Option.map_eq_some_iff.mp h
  exact ⟨s, List.mem_of_find?_eq_some hs, rfl⟩

end Captures

/-- All sources of an extraction are parts of what was named. -/
def Extraction.Excerpts (e : Extraction) (c : Captures) : Prop :=
  ∀ v ∈ e.values, ∃ s ∈ c, v.2 <:+: s.2

namespace Extraction.Excerpts

variable {e : Extraction} {c : Captures}

theorem value (h : e.Excerpts c) (input : String) {name : String} {piece source : List Char}
    (hpiece : c.first? name = some piece) (hsource : source <:+: piece) :
    (e.value input source).Excerpts c := by
  obtain ⟨s, hs, rfl⟩ := Captures.mem_of_first? hpiece
  refine List.forall_mem_append.mpr ⟨h, List.forall_mem_singleton.mpr ⟨s, hs, ?_⟩⟩
  exact (infix_trim source).trans hsource

theorem of_nil (h : e.values = []) : e.Excerpts c := by
  intro v hv
  rw [h] at hv
  cases hv

theorem readArguments {name : String} {inputs : List String}
    (h : Catalogue.readArguments name inputs c = some e) : e.Excerpts c := by
  unfold Catalogue.readArguments at h
  simp only [Option.bind_eq_bind, Option.bind_eq_some_iff] at h
  obtain ⟨piece, hpiece, arguments, harguments, -, -, he⟩ := h
  obtain rfl := Option.some.inj he
  obtain ⟨s, hs, rfl⟩ := Captures.mem_of_first? hpiece
  rw [foldl_value]
  intro v hv
  obtain ⟨a, ha, rfl⟩ := List.mem_map.mp hv
  exact ⟨s, hs, (infix_trim _).trans
    (Expression.infix_of_splitArguments harguments _ (List.of_mem_zip ha).2)⟩

end Extraction.Excerpts

section Extractors

variable {c : Captures} {e : Extraction}

theorem Catalogue.excerpts_binary {kind : Kind} {description : String} {result : Check}
    {operators : Operators} {a b : InputSpec} {extractor : Captures → Option Extraction}
    (hd : (binary kind description result operators a b).extractor = some extractor)
    (h : extractor c = some e) : e.Excerpts c := by
  obtain rfl := Option.some.inj hd
  simp only [Option.bind_eq_bind, Option.bind_eq_some_iff] at h
  obtain ⟨piece, hpiece, -, -, ⟨left, sign, right⟩, hsplit, operator, -, he⟩ := h
  obtain rfl := Option.some.inj he
  obtain ⟨hleft, hright⟩ := Expression.infix_of_splitBinary hsplit
  exact ((Extraction.Excerpts.of_nil rfl).value a.name hpiece hleft).value b.name hpiece hright

/-- Every extractor but that of the conditional, which reads lines, passes on parts of what was
named. -/
theorem Kind.excerpts_of_extract {k : Kind} (hk : k ≠ .ifElse)
    {extractor : Captures → Option Extraction} (hd : k.definition.extractor = some extractor)
    (h : extractor c = some e) : e.Excerpts c := by
  -- where there is no value input there is no source
  have none (hs : k.definition.shape.valueInputs e.mutation = []) : e.Excerpts c := by
    have hvalues := (fills_of_extract hk hd h).values
    rw [hs, List.map_eq_nil_iff] at hvalues
    exact .of_nil hvalues
  cases k with
  | setVariable | changeVariable =>
    obtain rfl := Option.some.inj hd
    simp only [Option.bind_eq_bind, Option.bind_eq_some_iff] at h
    obtain ⟨_, -, source, hsource, -, -, he⟩ := h
    obtain rfl := Option.some.inj he
    exact (Extraction.Excerpts.of_nil rfl).value _ hsource List.infix_rfl
  | repeatTimes | whileLoop =>
    obtain rfl := Option.some.inj hd
    simp only [Option.bind_eq_bind, Option.bind_eq_some_iff] at h
    obtain ⟨source, hsource, he⟩ := h
    obtain rfl := Option.some.inj he
    exact (Extraction.Excerpts.of_nil rfl).value _ hsource List.infix_rfl
  | logicNegate =>
    obtain rfl := Option.some.inj hd
    simp only [Option.bind_eq_bind, Option.bind_eq_some_iff] at h
    obtain ⟨source, hsource, -, -, he⟩ := h
    obtain rfl := Option.some.inj he
    exact (Extraction.Excerpts.of_nil rfl).value _ hsource List.infix_rfl
  | logicCompare | logicOperation | mathArithmetic => exact excerpts_binary hd h
  | showNumber | pause | displayShow | plot | unplot | playTone | mathRandom =>
    obtain rfl := Option.some.inj hd
    exact .readArguments h
  | ifElse => exact absurd rfl hk
  | ifElseElseIf | ifElseElse => cases hd
  | _ => exact none rfl

end Extractors

/-! ## What definitions read -/

namespace Kind

open Pattern

variable {k : Kind} {cs matched : List Char} {e : Extraction} {b : Blueprint}

theorem row_of_condition {piece t : List Char} {pieces : List (List Char)} {m : Mutation}
    (h : t ∈ piece :: pieces) : ∃ r ∈ conditionalRows piece pieces m,
      ∃ start ∈ ["if ".toList, "elif ".toList], r.text = start ++ (t ++ [':']) := by
  rcases List.mem_cons.mp h with rfl | h
  · exact ⟨_, List.mem_cons_self, "if ".toList, List.mem_cons_self, rfl⟩
  · rw [← List.zipIdx_map_fst 1 pieces] at h
    obtain ⟨s, hs, rfl⟩ := List.mem_map.mp h
    exact ⟨_, List.mem_cons_of_mem _ (List.mem_append_left _ (List.mem_map_of_mem hs)),
      "elif ".toList, List.mem_cons_of_mem _ List.mem_cons_self, rfl⟩

/-- A condition stands on its header. -/
theorem onLine_of_conditional
    (h : Kind.ifElse.definition.recover cs = some (e, b, matched)) :
    ∀ v ∈ e.values, OnLine v.2 matched := by
  obtain ⟨piece, pieces, m, hpieces, rfl, rfl⟩ := conditional_of_recover h
  intro v hv
  obtain ⟨⟨t, i⟩, hs, rfl⟩ := List.mem_map.mp hv
  have ht := List.fst_mem_of_mem_zipIdx hs
  obtain ⟨r, hr, start, hstart, htext⟩ := row_of_condition (m := m) ht
  have hstarts : ∀ start ∈ ["if ".toList, "elif ".toList],
      '\n' ∉ start ∧ ¬ start <:+: blockMark := by
    decide
  obtain ⟨hline, hmark⟩ := hstarts start hstart
  refine ⟨r.text, ?_, ?_, ?_, ?_⟩
  · rw [htext]
    exact (infix_trim t).trans ⟨start, [':'], List.append_assoc _ _ _⟩
  · rw [spellRows, List.flatMap_def]
    exact (List.prefix_append _ _).isInfix.trans
      (List.infix_of_mem_flatten (List.mem_map_of_mem hr))
  · rw [htext]
    simp [hline, (hpieces t ht).2]
  · rw [htext]
    exact fun h => hmark ((List.prefix_append _ _).isInfix.trans h)

/-- The sources of inputs are parts of the text that is read. -/
theorem infix_of_recover (h : k.definition.recover cs = some (e, b, matched)) :
    ∀ v ∈ e.values, v.2 <:+: cs := by
  obtain ⟨idiom, extractor, c, rest, hi, he, hs, hx, -, hmatched, -⟩ := k.recover_some h
  intro v hv
  by_cases hk : k = .ifElse
  · subst hk
    obtain ⟨t, hvt, ht, -⟩ := onLine_of_conditional h v hv
    rw [hmatched] at ht
    exact hvt.trans (ht.trans (List.take_prefix _ _).isInfix)
  · obtain ⟨front, hcs, hparts⟩ := idiom.quotes_parts _ _ _ hs
    obtain ⟨s, hs, hvs⟩ := k.excerpts_of_extract hk he hx v hv
    rw [hcs]
    exact hvs.trans ((hparts s hs).trans (List.prefix_append _ _).isInfix)

/-- The operands of an expression are parts of it, and shorter. -/
theorem isProper_of_recover (hrole : k.definition.shape.role.isValue = true)
    (h : k.definition.recover cs = some (e, b, matched)) : ∀ v ∈ e.values, IsProper v.2 cs := by
  have hfills := k.fills_of_recover h
  obtain ⟨idiom, extractor, c, rest, hi, he, hs, hx, -⟩ := k.recover_some h
  intro v hv
  have hvalues : k.definition.shape.valueInputs e.mutation ≠ [] := by
    rw [← hfills.values]
    exact List.ne_nil_of_mem (List.mem_map_of_mem hv)
  -- every idiom with operands has a parenthesis before them
  have hquotes : idiom.Quotes IsProper := by
    cases k with
    | logicNegate | logicCompare | logicOperation | mathArithmetic | mathRandom =>
      obtain rfl := Option.some.inj hi
      exact (quotes_after (by decide) _).append IsProper.mono (quotes_lit _)
    | mathNumber | text | logicBoolean | buttonIsPressed | temperature | acceleration
    | variablesGet => exact absurd rfl hvalues
    | _ => cases hrole
  have hk : k ≠ .ifElse := by
    rintro rfl
    cases hrole
  obtain ⟨front, rfl, hparts⟩ := hquotes _ _ _ hs
  obtain ⟨s, hs, hvs⟩ := k.excerpts_of_extract hk he hx v hv
  have hproper := hparts s hs
  exact IsProper.mono _ _ _ ⟨hvs.trans hproper.1, Nat.lt_of_le_of_lt hvs.length_le hproper.2⟩
    (List.prefix_append _ _).isInfix

/-- The idiom of a statement that has value inputs names parts of its lines, unless it takes a
conditional as a whole. -/
theorem quotes_onLine {idiom : Pattern} (hrole : k.definition.shape.role.isValue = false)
    (hk : k ≠ .ifElse) (hi : k.definition.idiom = some idiom) (m : Option Mutation)
    (hvalues : k.definition.shape.valueInputs m ≠ []) : idiom.Quotes OnLine := by
  -- a literal may run over line ends, but the statement that shows one has no value input
  cases k with
  | showNumber | pause | displayShow | plot | unplot | playTone =>
    obtain rfl := Option.some.inj hi
    refine (Inline.quotes (((inline_lits (by decide)).append (inline_hole _ _)).append
      (inline_lits (by decide))) ?_).followed (quotes_lit _)
    exact ((marked_lits (by decide)).append_left).append_left
  | setVariable | changeVariable =>
    obtain rfl := Option.some.inj hi
    refine (Inline.quotes (((inline_word _).append (inline_lits (by decide))).append
      (inline_hole _ _)) ?_).followed (quotes_lit _)
    exact ((marked_lits (by decide)).append_right).append_left
  | repeatTimes | whileLoop =>
    obtain rfl := Option.some.inj hi
    exact quotes_header (by decide) (by decide)
  | ifElse => exact absurd rfl hk
  | ifElseElseIf | ifElseElse => cases hi
  | onStart | forever | onButtonPressed | onGesture | showString | showIcon | showLeds
  | clearScreen => exact absurd rfl hvalues
  | mathNumber | text | logicBoolean | logicCompare | logicOperation | logicNegate
  | mathArithmetic | mathRandom | buttonIsPressed | temperature | acceleration | variablesGet =>
    cases hrole

/-- The sources of the inputs of a statement stand on its lines. -/
theorem onLine_of_recover (hrole : k.definition.shape.role.isValue = false)
    (h : k.definition.recover cs = some (e, b, matched)) : ∀ v ∈ e.values, OnLine v.2 matched := by
  by_cases hk : k = .ifElse
  · subst hk
    exact onLine_of_conditional h
  have hfills := k.fills_of_recover h
  obtain ⟨idiom, extractor, c, rest, hi, he, hs, hx, -, rfl, -⟩ := k.recover_some h
  intro v hv
  have hvalues : k.definition.shape.valueInputs e.mutation ≠ [] := by
    rw [← hfills.values]
    exact List.ne_nil_of_mem (List.mem_map_of_mem hv)
  obtain ⟨front, hcs, hparts⟩ := quotes_onLine hrole hk hi e.mutation hvalues _ _ _ hs
  obtain ⟨s, hs, hvs⟩ := k.excerpts_of_extract hk he hx v hv
  obtain ⟨t, hst, ht⟩ := hparts s hs
  rw [take_front hcs]
  exact ⟨t, hvs.trans hst, ht⟩

end Kind

end BlockText

import BlockText.Proofs.Parentheses
import Mathlib.Data.List.Forall2

/-!
# Arguments

A text is cut at its commas outside of parentheses. The pieces are texts with tokens of their own,
since neither a token nor a pair of parentheses goes on over such a comma, and the text is the
pieces with commas between them. So taking arguments apart undoes putting them together, and what it
takes apart was put together from what it gives, with blanks around each argument.
-/

namespace BlockText

open Text

namespace Lexeme

variable {l c : Lexeme} {ls as bs : List Lexeme} {d e : Nat} {cs text rest gap : List Char}

theorem isBlank_of_isGap {c : Char} (h : isGap c = true) : isBlank c = true := by
  rw [isGap, Bool.or_eq_true, beq_iff_eq, beq_iff_eq] at h
  rcases h with rfl | rfl <;> decide

/-! ## Commas outside of parentheses -/

theorem depthAfter_append (d : Nat) (as bs : List Lexeme) :
    depthAfter d (as ++ bs) = (depthAfter d as).bind (depthAfter · bs) := by
  induction as generalizing d with
  | nil => rfl
  | cons l as ih =>
    rw [List.cons_append, depthAfter_cons, depthAfter_cons, ih]
    split <;> rfl

/-- No comma of some tokens stands outside of parentheses, when they start at a depth. -/
def Whole (d : Nat) (ls : List Lexeme) : Prop :=
  ∀ before l after, ls = before ++ l :: after → l.token = .comma → depthAfter d before ≠ some 0

theorem whole_nil : Whole d [] := by
  intro before l after h
  simp at h

theorem whole_cons : Whole d (l :: ls) ↔ ¬ (l.token = .comma ∧ d = 0) ∧
    (¬ (l.token = .closing ∧ d = 0) → Whole (deepen d l) ls) := by
  constructor
  · intro h
    refine ⟨fun ⟨hl, hd⟩ => h [] l ls rfl hl (congrArg some hd), fun hc before k after he hk => ?_⟩
    have := h (l :: before) k after (by rw [he, List.cons_append]) hk
    rwa [depthAfter_cons, if_neg hc] at this
  · rintro ⟨hcomma, hrest⟩ before k after he hk
    cases before with
    | nil =>
      obtain ⟨rfl, -⟩ := List.cons.inj he
      exact fun hd => hcomma ⟨hk, Option.some.inj hd⟩
    | cons m before =>
      obtain ⟨rfl, hls⟩ := List.cons.inj he
      rw [depthAfter_cons]
      split
      · simp
      · next hc => exact hrest hc before k after hls hk

instance decidableWhole : (d : Nat) → (ls : List Lexeme) → Decidable (Whole d ls)
  | _, [] => isTrue whole_nil
  | d, l :: ls =>
    have := decidableWhole (deepen d l) ls
    decidable_of_iff _ whole_cons.symm

/-- Blanks before a token do not matter. -/
theorem depthAfter_gap (gap : List Char) :
    depthAfter d ({ l with gap := gap } :: ls) = depthAfter d (l :: ls) := by
  rw [depthAfter_cons, depthAfter_cons]
  rfl

theorem whole_gap (gap : List Char) :
    Whole d ({ l with gap := gap } :: ls) ↔ Whole d (l :: ls) := by
  rw [whole_cons, whole_cons]
  rfl

/-- Either there is no comma outside of parentheses, or there is a first one. -/
theorem whole_or_first (h : depthAfter d ls = some e) : Whole d ls ∨
    ∃ as c bs, ls = as ++ c :: bs ∧ c.token = .comma ∧ Whole d as ∧ depthAfter d as = some 0 := by
  induction ls generalizing d with
  | nil => exact .inl whole_nil
  | cons l ls ih =>
    by_cases hcomma : l.token = .comma ∧ d = 0
    · exact .inr ⟨[], l, ls, rfl, hcomma.1, whole_nil, congrArg some hcomma.2⟩
    · have hclosing : ¬ (l.token = .closing ∧ d = 0) := by
        intro hc
        rw [depthAfter_cons, if_pos hc] at h
        cases h
      rw [depthAfter_cons, if_neg hclosing] at h
      rcases ih h with hwhole | ⟨as, c, bs, rfl, hc, hwhole, hdepth⟩
      · exact .inl (whole_cons.mpr ⟨hcomma, fun _ => hwhole⟩)
      · refine .inr ⟨l :: as, c, bs, rfl, hc, whole_cons.mpr ⟨hcomma, fun _ => hwhole⟩, ?_⟩
        rw [depthAfter_cons, if_neg hclosing, hdepth]

theorem text_of_comma (h : first? cs = some (.comma, text, rest)) : text = [','] := by
  obtain ⟨hsign, -⟩ | ⟨he, -⟩ | ⟨he, -⟩ | ⟨he, -⟩ := first?_cases h
  · have hsigns : ∀ s ∈ signs, s.1 = .comma → s.2 = [','] := by decide
    exact hsigns _ hsign rfl
  · cases he
  · cases he
  · cases he

/-- The texts on both sides of a comma have the tokens on both sides of it. -/
theorem scan_comma (h : scan cs = some (as ++ c :: bs, gap)) (hc : c.token = .comma) :
    cs = spell as ++ c.gap ++ ',' :: (spell bs ++ gap) ∧
      scan (spell as ++ c.gap) = some (as, c.gap) ∧ scan (spell bs ++ gap) = some (bs, gap) := by
  obtain ⟨hgap, after, hfirst⟩ := first?_of_mem_scan h (l := c) (by simp)
  rw [hc] at hfirst
  have htext := text_of_comma hfirst
  refine ⟨?_, scan_front h hgap ?_, ?_⟩
  · rw [← spell_scan h, spell_append, spell_cons, htext]
    simp
  · rw [spell_cons, List.append_assoc, List.append_assoc]
    exact List.prefix_append _ _
  · rw [List.append_cons] at h
    exact scan_back h

/-- A text whose first token has no blanks before it, and with none after the last, is trimmed. -/
theorem trimmed_of_scan (h : scan cs = some (l :: ls, [])) (hl : l.gap = []) : Trimmed cs := by
  obtain ⟨after, hcs, -, hfirst, -⟩ := scan_eq_cons.mp h
  rw [hl, List.nil_append] at hcs
  obtain ⟨hne, hhead, -⟩ := (ends_of_first hfirst).1
  obtain ⟨ms, k, hlast⟩ : ∃ ms k, l :: ls = ms ++ [k] :=
    ⟨_, _, (List.dropLast_concat_getLast (List.cons_ne_nil l ls)).symm⟩
  rw [hlast] at h
  obtain ⟨-, after', hfirst'⟩ := first?_of_mem_scan h (l := k) (by simp)
  refine ⟨by simp [hcs, hne], ?_, ?_⟩
  · rw [hcs]
    obtain ⟨c, text, htext⟩ := List.exists_cons_of_ne_nil hne
    rw [htext] at hhead ⊢
    exact stops_cons (hhead c rfl)
  · rw [getLast?_scan h]
    exact (ends_of_first hfirst').1.2.2

end Lexeme

namespace Expression

open Lexeme

variable {l c : Lexeme} {ls as bs : List Lexeme} {d e : Nat} {cs a p gap : List Char}
  {ps args : List (List Char)}

/-! ## Cutting tokens -/

/-- A text before the first of some pieces. -/
def glue (text : List Char) : List (List Char) → List (List Char)
  | [] => [text]
  | piece :: pieces => (text ++ piece) :: pieces

theorem cutArguments_cons (d : Nat) (l : Lexeme) (ls : List Lexeme) :
    cutArguments d (l :: ls) =
      if l.token = .comma ∧ d = 0 then l.gap :: cutArguments d ls
      else glue (l.gap ++ l.text) (cutArguments (deepen d l) ls) := by
  have hmore (d : Nat) : (match cutArguments d ls with
      | [] => [l.gap ++ l.text]
      | piece :: pieces => (l.gap ++ l.text ++ piece) :: pieces) =
        glue (l.gap ++ l.text) (cutArguments d ls) := by
    cases cutArguments d ls <;> rfl
  rw [cutArguments, deepen]
  split
  · next h =>
    simp only [h, reduceCtorEq, false_and, if_false, if_true]
    exact hmore (d + 1)
  · next h =>
    simp only [h, reduceCtorEq, false_and, if_false, if_true]
    exact hmore (d - 1)
  · next h =>
    simp only [h, reduceCtorEq, true_and, if_false]
    split
    · rfl
    · exact hmore d
  · next ho hc hm =>
    rw [if_neg fun h => hm h.1, if_neg ho, if_neg hc]
    exact hmore d

theorem cutArguments_ne_nil (d : Nat) (ls : List Lexeme) : cutArguments d ls ≠ [] := by
  cases ls with
  | nil => simp [cutArguments]
  | cons l ls =>
    rw [cutArguments_cons]
    split
    · simp
    · cases cutArguments (deepen d l) ls <;> simp [glue]

/-- Without a comma outside of parentheses there is one piece. -/
theorem cutArguments_whole (h : Whole d ls) (hd : depthAfter d ls = some e) :
    cutArguments d ls = [spell ls] := by
  induction ls generalizing d with
  | nil => rfl
  | cons l ls ih =>
    obtain ⟨hcomma, hrest⟩ := whole_cons.mp h
    rw [depthAfter_cons] at hd
    split at hd
    · cases hd
    · next hclosing =>
      rw [cutArguments_cons, if_neg hcomma, ih (hrest hclosing) hd, spell_cons]
      rfl

/-- The first piece ends at the first comma outside of parentheses. -/
theorem cutArguments_first (h : Whole d as) (hd : depthAfter d as = some 0)
    (hc : c.token = .comma) (bs : List Lexeme) :
    cutArguments d (as ++ c :: bs) = (spell as ++ c.gap) :: cutArguments 0 bs := by
  induction as generalizing d with
  | nil =>
    obtain rfl : d = 0 := Option.some.inj hd
    rw [List.nil_append, cutArguments_cons, if_pos ⟨hc, rfl⟩]
    rfl
  | cons l as ih =>
    obtain ⟨hcomma, hrest⟩ := whole_cons.mp h
    rw [depthAfter_cons] at hd
    split at hd
    · cases hd
    · next hclosing =>
      rw [List.cons_append, cutArguments_cons, if_neg hcomma, ih (hrest hclosing) hd, spell_cons,
        List.append_assoc _ (spell as)]
      rfl

/-- Pieces with a text after the last one. -/
def ended (gap : List Char) (pieces : List (List Char)) : List (List Char) :=
  pieces.dropLast ++ pieces.getLast?.toList.map (· ++ gap)

theorem ended_cons (h : ps ≠ []) (gap p : List Char) : ended gap (p :: ps) = p :: ended gap ps := by
  cases ps with
  | nil => exact absurd rfl h
  | cons q qs => simp [ended]

theorem ended_ne_nil (h : ps ≠ []) (gap : List Char) : ended gap ps ≠ [] := by
  rw [ended, List.getLast?_eq_some_getLast h]
  simp

/-! ## Pieces of a text -/

/-- A text with tokens whose parentheses match, without a comma outside of them. -/
def IsPiece (p : List Char) : Prop :=
  ∃ ls gap, scan p = some (ls, gap) ∧ depthAfter 0 ls = some 0 ∧ Whole 0 ls

theorem join_cons (h : ps ≠ []) (separator p : List Char) :
    join separator (p :: ps) = p ++ separator ++ join separator ps := by
  obtain ⟨q, qs, rfl⟩ := List.exists_cons_of_ne_nil h
  rfl

/-- A text is what it is cut into, with commas between the pieces. -/
theorem pieces_of_scan (n : Nat) (hn : ls.length ≤ n) (h : scan cs = some (ls, gap))
    (hd : depthAfter 0 ls = some 0) :
    join [','] (ended gap (cutArguments 0 ls)) = cs ∧
      ∀ p ∈ ended gap (cutArguments 0 ls), IsPiece p := by
  -- each piece takes at least its comma, so the number of tokens left goes down
  induction n generalizing ls cs with
  | zero =>
    obtain rfl := List.length_eq_zero_iff.mp (Nat.le_zero.mp hn)
    obtain ⟨rfl, hgap⟩ := scan_eq_nil.mp h
    exact ⟨rfl, List.forall_mem_singleton.mpr ⟨[], _, h, hd, whole_nil⟩⟩
  | succ n ih =>
    obtain hwhole | ⟨as, c, bs, rfl, hc, hwhole, has⟩ := whole_or_first hd
    · have hcut : ended gap (cutArguments 0 ls) = [cs] := by
        rw [cutArguments_whole hwhole hd, ← spell_scan h]
        rfl
      rw [hcut]
      exact ⟨rfl, List.forall_mem_singleton.mpr ⟨ls, gap, h, hd, hwhole⟩⟩
    · obtain ⟨hcs, hfront, hback⟩ := scan_comma h hc
      have hbs : depthAfter 0 bs = some 0 := by
        rw [depthAfter_append, has, Option.bind_some, depthAfter_cons, if_neg (by simp [hc]),
          deepen_other (by simp [hc]) (by simp [hc])] at hd
        exact hd
      have hlength : bs.length ≤ n := by
        rw [List.length_append, List.length_cons] at hn
        omega
      obtain ⟨hjoin, hpieces⟩ := ih hlength hback hbs
      have hne := cutArguments_ne_nil 0 bs
      rw [cutArguments_first hwhole has hc, ended_cons hne, join_cons (ended_ne_nil hne gap), hjoin]
      refine ⟨by simp [hcs], List.forall_mem_cons.mpr ⟨?_, hpieces⟩⟩
      exact ⟨as, c.gap, hfront, has, hwhole⟩

/-- Pieces with commas between them are cut at these commas. -/
theorem scan_join (hne : ps ≠ []) (hps : ∀ p ∈ ps, IsPiece p) :
    ∃ ls gap, scan (join [','] ps) = some (ls, gap) ∧ depthAfter 0 ls = some 0 ∧
      ended gap (cutArguments 0 ls) = ps := by
  induction ps with
  | nil => exact absurd rfl hne
  | cons p ps ih =>
    obtain ⟨⟨as, gap, hscan, has, hwhole⟩, hps⟩ := List.forall_mem_cons.mp hps
    by_cases hnil : ps = []
    · subst hnil
      refine ⟨as, gap, hscan, has, ?_⟩
      rw [cutArguments_whole hwhole has, ← spell_scan hscan]
      rfl
    · obtain ⟨bs, last, hrest, hbs, hcut⟩ := ih hnil hps
      have hcomma : scan (',' :: join [','] ps) = some (⟨[], .comma, [',']⟩ :: bs, last) := by
        have hfirst : first? (',' :: join [','] ps) = some (.comma, [','], join [','] ps) := rfl
        rw [scan_first hfirst, hrest]
        rfl
      have hall := scan_append hscan hcomma (stops_cons (by decide))
      refine ⟨as ++ ⟨gap ++ [], .comma, [',']⟩ :: bs, last, ?_, ?_, ?_⟩
      · rw [join_cons hnil, List.append_assoc]
        exact hall
      · rw [depthAfter_append, has]
        exact hbs
      · rw [cutArguments_first hwhole has rfl, ended_cons (cutArguments_ne_nil 0 bs), hcut,
          List.append_nil, spell_scan hscan]

/-- A text is taken apart into the pieces that it is put together from. -/
theorem splitArguments_eq_some : splitArguments cs = some args ↔
    ∃ ps, ps ≠ [] ∧ (∀ p ∈ ps, IsPiece p) ∧ cs = join [','] ps ∧ args = ps.map trim ∧
      ∀ a ∈ args, a ≠ [] := by
  constructor
  · intro h
    unfold splitArguments at h
    split at h
    · cases h
    · next ls gap hscan =>
      split at h
      · cases h
      · next hd =>
        obtain ⟨hjoin, hpieces⟩ := pieces_of_scan ls.length le_rfl hscan (not_not.mp hd)
        dsimp only at h
        split at h
        · cases h
        · next hempty =>
          refine ⟨ended gap (cutArguments 0 ls), ended_ne_nil (cutArguments_ne_nil 0 ls) gap,
            hpieces, hjoin.symm, (Option.some.inj h).symm, ?_⟩
          rw [Bool.not_eq_true, List.any_eq_false] at hempty
          rw [← Option.some.inj h]
          exact fun a ha => by simpa using hempty a ha
  · rintro ⟨ps, hne, hps, rfl, rfl, hempty⟩
    obtain ⟨ls, gap, hscan, hd, hcut⟩ := scan_join hne hps
    have hany : (ps.map trim).any List.isEmpty = false := by
      rw [List.any_eq_false]
      exact fun a ha => by simpa using hempty a ha
    rw [splitArguments, hscan]
    simp only [hd, ne_eq, not_true_eq_false, if_false]
    rw [← ended, hcut, hany]
    rfl

/-! ## Arguments and the blanks around them -/

/-- What can stand as one argument: a text without blanks at its ends that has tokens, whose
parentheses match, and that has no comma outside of them. -/
structure IsArgument (a : List Char) : Prop where
  trimmed : Trimmed a
  balanced : isBalanced a = true
  whole : ∃ ls gap, scan a = some (ls, gap) ∧ Whole 0 ls

/-- A text with blanks before and after it. -/
def Padded (p a : List Char) : Prop :=
  ∃ before after, p = before ++ (a ++ after) ∧ (∀ c ∈ before, isGap c = true) ∧
    ∀ c ∈ after, isGap c = true

theorem isArgument_iff : IsArgument a ↔ Trimmed a ∧ IsPiece a := by
  constructor
  · rintro ⟨htrimmed, hbalanced, ls, gap, hscan, hwhole⟩
    rw [isBalanced_of_scan hscan, beq_iff_eq] at hbalanced
    exact ⟨htrimmed, ls, gap, hscan, hbalanced, hwhole⟩
  · rintro ⟨htrimmed, ls, gap, hscan, hdepth, hwhole⟩
    refine ⟨htrimmed, ?_, ls, gap, hscan, hwhole⟩
    rw [isBalanced_of_scan hscan, hdepth]
    rfl

/-- A piece that is not blank is an argument with blanks around it. -/
theorem IsPiece.trim (h : IsPiece p) (hne : Text.trim p ≠ []) :
    Padded p (Text.trim p) ∧ IsArgument (Text.trim p) := by
  obtain ⟨ls, gap, hscan, hdepth, hwhole⟩ := h
  have hgap := isGap_of_scan hscan
  cases ls with
  | nil =>
    obtain ⟨rfl, -⟩ := scan_eq_nil.mp hscan
    have hblank := dropWhile_run (fun c hc => isBlank_of_isGap (hgap c hc)) stops_nil
    rw [List.append_nil] at hblank
    rw [Text.trim, trimStart, hblank] at hne
    exact absurd rfl hne
  | cons l ls =>
    have hall : scan p = some (l :: ls ++ [], gap) := by rwa [List.append_nil]
    have hfront := scan_front hall (List.forall_mem_nil _) List.nil_prefix
    obtain ⟨after, hafter, hl, hfirst, hrest⟩ := scan_eq_cons.mp hfront
    have hinner : scan (l.text ++ after) = some ({ l with gap := [] } :: ls, []) :=
      scan_eq_cons.mpr ⟨after, rfl, by simp, hfirst, hrest⟩
    have htrimmed := trimmed_of_scan hinner rfl
    have hp : p = l.gap ++ (l.text ++ after ++ gap) := by
      rw [List.append_nil] at hafter
      rw [← spell_scan hscan, hafter, List.append_assoc]
    have htrim : Text.trim p = l.text ++ after := by
      rw [hp]
      exact htrimmed.trim_padded (fun c hc => isBlank_of_isGap (hl c hc))
        fun c hc => isBlank_of_isGap (hgap c hc)
    rw [htrim]
    refine ⟨⟨l.gap, gap, hp, hl, hgap⟩, isArgument_iff.mpr ⟨htrimmed, _, _, hinner, ?_, ?_⟩⟩
    · rwa [depthAfter_gap]
    · rwa [whole_gap]

/-- An argument with blanks around it is a piece. -/
theorem IsArgument.padded (h : IsArgument a) (hp : Padded p a) : IsPiece p ∧ trim p = a := by
  obtain ⟨htrimmed, ls, gap, hscan, hdepth, hwhole⟩ := isArgument_iff.mp h
  obtain ⟨before, after, rfl, hbefore, hafter⟩ := hp
  refine ⟨?_, htrimmed.trim_padded (fun c hc => isBlank_of_isGap (hbefore c hc))
    fun c hc => isBlank_of_isGap (hafter c hc)⟩
  have hend := scan_append_gap hscan hafter
  cases ls with
  | nil =>
    obtain ⟨he, hgap⟩ := scan_eq_nil.mp hend
    refine ⟨[], _, scan_gap (List.forall_mem_append.mpr ⟨hbefore, ?_⟩), hdepth, hwhole⟩
    rwa [he]
  | cons l ls =>
    refine ⟨_, _, scan_gap_append hbefore hend, ?_, ?_⟩
    · rwa [depthAfter_gap]
    · rwa [whole_gap]

theorem pieces_of_padded (h : List.Forall₂ Padded ps args) (hargs : ∀ a ∈ args, IsArgument a) :
    (∀ p ∈ ps, IsPiece p) ∧ args = ps.map trim := by
  induction h with
  | nil => exact ⟨by simp, rfl⟩
  | cons hp _ ih =>
    obtain ⟨ha, hargs⟩ := List.forall_mem_cons.mp hargs
    obtain ⟨hpiece, htrim⟩ := ha.padded hp
    obtain ⟨hpieces, hmap⟩ := ih hargs
    exact ⟨List.forall_mem_cons.mpr ⟨hpiece, hpieces⟩, by rw [List.map_cons, htrim, ← hmap]⟩

/-- Exactly what arguments with blanks around them make, with commas between them, is taken apart,
and into these arguments. -/
theorem splitArguments_iff : splitArguments cs = some args ↔
    args ≠ [] ∧ (∀ a ∈ args, IsArgument a) ∧
      ∃ ps, List.Forall₂ Padded ps args ∧ cs = join [','] ps := by
  rw [splitArguments_eq_some]
  constructor
  · rintro ⟨ps, hne, hps, rfl, rfl, hempty⟩
    have hboth : ∀ p ∈ ps, Padded p (trim p) ∧ IsArgument (trim p) :=
      fun p hp => (hps p hp).trim (hempty _ (List.mem_map_of_mem hp))
    refine ⟨by simpa using hne, List.forall_mem_map.mpr fun p hp => (hboth p hp).2, ps, ?_, rfl⟩
    rw [List.forall₂_map_right_iff, List.forall₂_same]
    exact fun p hp => (hboth p hp).1
  · rintro ⟨hne, hargs, ps, hpadded, rfl⟩
    obtain ⟨hpieces, hmap⟩ := pieces_of_padded hpadded hargs
    refine ⟨ps, ?_, hpieces, rfl, hmap, fun a ha => (hargs a ha).trimmed.1⟩
    rintro rfl
    exact hne hmap

/-- A blank after each comma is a blank before each argument but the first. -/
theorem join_comma_space (a : List Char) (args : List (List Char)) :
    join [',', ' '] (a :: args) = join [','] (a :: args.map (' ' :: ·)) := by
  have hspace (t : List Char) (ts : List (List Char)) :
      ' ' :: join [','] (t :: ts) = join [','] ((' ' :: t) :: ts) := by
    cases ts <;> rfl
  induction args generalizing a with
  | nil => rfl
  | cons b args ih =>
    rw [join_cons (List.cons_ne_nil b args), ih, List.map_cons,
      join_cons (List.cons_ne_nil _ _), ← hspace]
    simp

/-- Arguments with commas and blanks between them are taken apart at the commas. -/
theorem splitArguments_join (hne : args ≠ []) (hargs : ∀ a ∈ args, IsArgument a) :
    splitArguments (join [',', ' '] args) = some args := by
  obtain ⟨a, rest, rfl⟩ := List.exists_cons_of_ne_nil hne
  refine splitArguments_iff.mpr ⟨hne, hargs, a :: rest.map (' ' :: ·), .cons ?_ ?_,
    join_comma_space a rest⟩
  · exact ⟨[], [], by simp, by simp, by simp⟩
  · rw [List.forall₂_map_left_iff, List.forall₂_same]
    exact fun b _ => ⟨[' '], [], by simp, by decide, by simp⟩

/-- Taking arguments apart is the inverse of putting them together. Arguments with a comma and a
blank between them come back. What is taken apart at all was put together from the arguments that
are found, with blanks around each of them and commas between them. -/
theorem splitArguments_inverts_join :
    (∀ args : List (List Char), args ≠ [] → (∀ a ∈ args, IsArgument a) →
      splitArguments (join [',', ' '] args) = some args) ∧
    ∀ (cs : List Char) (args : List (List Char)), splitArguments cs = some args ↔
      args ≠ [] ∧ (∀ a ∈ args, IsArgument a) ∧
        ∃ ps, List.Forall₂ Padded ps args ∧ cs = join [','] ps :=
  ⟨fun _ => splitArguments_join, fun _ _ => splitArguments_iff⟩

/-- A call with commas in its parentheses and in a literal, and a literal with an open parenthesis;
and arguments with other blanks around them. -/
theorem splitArguments_inverts_join_nested :
    (∀ a ∈ ["max(a, (\"b)\"), c)".toList, "\"x, (\"".toList], IsArgument a) ∧
    splitArguments (join [',', ' '] ["max(a, (\"b)\"), c)".toList, "\"x, (\"".toList]) =
      some ["max(a, (\"b)\"), c)".toList, "\"x, (\"".toList] ∧
    splitArguments " 1.5 ,\t-f(2,3)".toList = some ["1.5".toList, "-f(2,3)".toList] ∧
    ∃ ps, List.Forall₂ Padded ps ["1.5".toList, "-f(2,3)".toList] ∧
      " 1.5 ,\t-f(2,3)".toList = join [','] ps := by
  obtain ⟨hjoin, hsplit⟩ := splitArguments_inverts_join
  have hargs : ∀ a ∈ ["max(a, (\"b)\"), c)".toList, "\"x, (\"".toList], IsArgument a := by
    rw [List.forall_mem_cons, List.forall_mem_singleton]
    exact ⟨⟨trimmed_of_ends (by decide) (by decide), by decide, _, _, rfl, by decide⟩,
      ⟨trimmed_of_ends (by decide) (by decide), by decide, _, _, rfl, by decide⟩⟩
  have hblanks : splitArguments " 1.5 ,\t-f(2,3)".toList =
      some ["1.5".toList, "-f(2,3)".toList] := by decide
  exact ⟨hargs, hjoin _ (by simp) hargs, hblanks, ((hsplit _ _).mp hblanks).2.2⟩

end Expression

end BlockText

import BlockText.Program.Reader
import BlockText.Proofs.Rivals
import BlockText.Proofs.Selections
import Mathlib.Data.List.Sublists

/-!
# The order of registration

The first idiom that fits a text reads it, so the order in which kinds are registered decides where
several fit. Only a negation and a kind with two operands ever fit the same text. Two registries of
the same kinds that agree on which of these two comes first read every text alike: expressions,
units and levels, up to the failures. Where they do not agree there is a text that they read
differently.
-/

namespace BlockText

open Workspace Program

/-! ## The first that fits -/

section First

variable {α β : Type} [DecidableEq α] {l l' : List α} {f : α → Option β} {a : α} {b : β}

/-- What stands before all else that fits is found. -/
theorem findSome?_of_first (ha : a ∈ l) (hf : f a = some b)
    (hfirst : ∀ c ∈ l, (f c).isSome = true → c ≠ a → l.idxOf a < l.idxOf c) :
    l.findSome? f = some b := by
  induction l with
  | nil => cases ha
  | cons x l ih =>
    by_cases hx : x = a
    · rw [List.findSome?_cons, hx, hf]
    · have hnone : f x = none := by
        by_contra hsome
        have hlt := hfirst x List.mem_cons_self (Option.isSome_iff_ne_none.mpr hsome) hx
        rw [List.idxOf_cons_self] at hlt
        exact Nat.not_lt_zero _ hlt
      rw [List.findSome?_cons, hnone]
      refine ih ((List.mem_cons.mp ha).resolve_left (Ne.symm hx)) fun c hc hfc hca => ?_
      have hxc : x ≠ c := by
        rintro rfl
        rw [hnone] at hfc
        cases hfc
      have hlt := hfirst c (List.mem_cons_of_mem x hc) hfc hca
      rw [List.idxOf_cons_ne _ hx, List.idxOf_cons_ne _ hxc] at hlt
      exact Nat.lt_of_succ_lt_succ hlt

/-- Two orders of the same things that agree on all that fit have the same first. -/
theorem findSome?_eq_of_order (hp : l.Perm l')
    (horder : ∀ c d, (f c).isSome = true → (f d).isSome = true → l.idxOf c < l.idxOf d →
      l'.idxOf c < l'.idxOf d) : l'.findSome? f = l.findSome? f := by
  cases hf : l.findSome? f with
  | none =>
    rw [List.findSome?_eq_none_iff] at hf ⊢
    exact fun c hc => hf c (hp.mem_iff.mpr hc)
  | some b =>
    obtain ⟨before, a, after, rfl, ha, hbefore⟩ := List.findSome?_eq_some_iff.mp hf
    refine findSome?_of_first (hp.mem_iff.mp (by simp)) ha fun c hc hfc hca => ?_
    have hout (d : α) (hd : (f d).isSome = true) : d ∉ before := by
      intro hm
      rw [hbefore d hm] at hd
      cases hd
    have hfa : (f a).isSome = true := Option.isSome_iff_exists.mpr ⟨b, ha⟩
    apply horder a c hfa hfc
    rw [List.idxOf_append_of_notMem (hout a hfa), List.idxOf_append_of_notMem (hout c hfc),
      List.idxOf_cons_self, List.idxOf_cons_ne _ (Ne.symm hca)]
    omega

end First

/-! ## Registries that read alike -/

/-- Two registries find the same definitions, and of each text and each level the same idiom reads
the same. -/
structure Registry.Alike (r r' : Registry) : Prop where
  lookup : ∀ kind, r'.lookup kind = r.lookup kind
  length : r'.definitions.length = r.definitions.length
  value : ∀ cs, (r'.valueIdioms.findSome? fun d => d.recover cs) =
    r.valueIdioms.findSome? fun d => d.recover cs
  unit : ∀ top items, matchUnit r' top items = matchUnit r top items

namespace Registry.Alike

variable {r r' : Registry} (h : r.Alike r')

include h

theorem makeUpTo (depth : Nat) : Workspace.makeUpTo r' depth = Workspace.makeUpTo r depth := by
  induction depth with
  | zero => rfl
  | succ depth ih =>
    funext b w
    simp only [Workspace.makeUpTo, h.lookup, ih]

theorem make (w : Workspace) (b : Blueprint) : w.make r' b = w.make r b := by
  rw [Workspace.make, h.length, h.makeUpTo, Workspace.make]

theorem readExpressionUpTo (depth : Nat) :
    Program.readExpressionUpTo r' depth = Program.readExpressionUpTo r depth := by
  induction depth with
  | zero => rfl
  | succ depth ih =>
    funext line source w
    simp only [Program.readExpressionUpTo, h.value, h.make, ih]

theorem readExpression : Program.readExpression r' = Program.readExpression r := by
  funext line source w
  rw [Program.readExpression, h.readExpressionUpTo, Program.readExpression]

theorem readUnits (top : Bool)
    (readBlock : List Item → Workspace → Except Failure (Workspace × List NodeId)) (bound : Nat) :
    Program.readUnits r' top readBlock bound = Program.readUnits r top readBlock bound := by
  have hunit (m : Match) (w : Workspace) :
      readUnit r' readBlock m w = readUnit r readBlock m w := by
    simp only [readUnit, h.make, h.readExpression]
  induction bound with
  | zero =>
    funext items w
    cases items <;> rfl
  | succ bound ih =>
    funext items w
    cases items with
    | nil => rfl
    | cons item items => simp only [Program.readUnits, h.unit, hunit, ih]

theorem readLevel (options : Options) (depth : Nat) :
    Program.readLevel r' options depth = Program.readLevel r options depth := by
  induction depth with
  | zero =>
    funext top items w
    simp only [Program.readLevel, h.readUnits]
  | succ depth ih =>
    funext top items w
    simp only [Program.readLevel, h.readUnits, ih]

/-- Registries that read units and expressions alike read all programs alike. -/
theorem read (rules : Rules) (options : Options) (source : String) :
    Program.read ⟨r', rules, options⟩ source = Program.read ⟨r, rules, options⟩ source := by
  have hbuild (items : List Item) : build ⟨r', rules, options⟩ items =
      build ⟨r, rules, options⟩ items := by
    simp only [build, h.readLevel]
  simp only [Program.read, readChars, hbuild]

end Registry.Alike

/-! ## Orders of the same kinds -/

/-- The registry of the built-in definitions of some kinds. -/
def Registry.inOrder (kinds : List Kind) : Registry := ⟨kinds.map Kind.definition⟩

/-- Two orders of the same kinds in which rivals come in the same order. -/
structure Concordant (ks ls : List Kind) : Prop where
  perm : ks.Perm ls
  order : ∀ k k' : Kind, k.Rivals k' → ks.idxOf k < ks.idxOf k' → ls.idxOf k < ls.idxOf k'

theorem findSome?_idioms {β : Type} (p : Definition → Bool) (g : Definition → Option β)
    (ks : List Kind) : ((ks.map Kind.definition).filter p).findSome? g =
      ks.findSome? fun k => if p k.definition then g k.definition else none := by
  induction ks with
  | nil => rfl
  | cons k ks ih =>
    rw [List.map_cons, List.findSome?_cons, ← ih, List.filter_cons]
    by_cases hp : p k.definition = true
    · rw [if_pos hp, if_pos hp, List.findSome?_cons]
    · rw [if_neg hp, if_neg hp]

theorem Registry.find?_inOrder (ks : List Kind) (k : Kind) :
    (inOrder ks).find? k = if k ∈ ks then some k.definition else none := by
  induction ks with
  | nil => rfl
  | cons k' ks ih =>
    show List.find? _ (k'.definition :: ks.map Kind.definition) = _
    rw [List.find?_cons, k'.kind_definition]
    by_cases hk : k' = k
    · simp [hk]
    · have hne : k ≠ k' := fun he => hk he.symm
      simp only [hk, decide_false, List.mem_cons, hne, false_or]
      exact ih

theorem Program.reads_of_matchOne {items : List Item} {text : List Char} {k : Kind}
    (h : (matchOne items text k.definition).isSome = true) : k.Reads text := by
  cases hr : k.definition.recover text with
  | none =>
    rw [matchOne, hr] at h
    cases h
  | some r => exact Option.isSome_iff_exists.mpr ⟨r, hr⟩

namespace Concordant

variable {ks ls : List Kind} (h : Concordant ks ls)

include h

/-- Idioms of which no two fit, unless they are rivals, have the same first in both orders. -/
theorem findSome?_eq {β : Type} {p : Definition → Bool} {g : Definition → Option β}
    (hone : ∀ k k' : Kind, p k.definition = true → p k'.definition = true →
      (g k.definition).isSome = true → (g k'.definition).isSome = true → k = k' ∨ k.Rivals k') :
    ((ls.map Kind.definition).filter p).findSome? g =
      ((ks.map Kind.definition).filter p).findSome? g := by
  have hfits (k : Kind) (hk : (if p k.definition then g k.definition else none).isSome = true) :
      p k.definition = true ∧ (g k.definition).isSome = true := by
    by_cases hp : p k.definition = true
    · rw [if_pos hp] at hk
      exact ⟨hp, hk⟩
    · rw [if_neg hp] at hk
      cases hk
  rw [findSome?_idioms, findSome?_idioms]
  refine findSome?_eq_of_order h.perm fun k k' hk hk' hlt => ?_
  obtain ⟨hp, hg⟩ := hfits k hk
  obtain ⟨hp', hg'⟩ := hfits k' hk'
  rcases hone k k' hp hp' hg hg' with rfl | hrivals
  · exact absurd hlt (Nat.lt_irrefl _)
  · exact h.order k k' hrivals hlt

theorem value (cs : List Char) :
    ((Registry.inOrder ls).valueIdioms.findSome? fun d => d.recover cs) =
      (Registry.inOrder ks).valueIdioms.findSome? fun d => d.recover cs := by
  refine h.findSome?_eq fun k k' hp hp' hk hk' => ?_
  rw [Bool.and_eq_true] at hp hp'
  exact Kind.Reads.eq_or_rivals hk hk' hp.2 hp'.2

theorem unit (top : Bool) (items : List Item) :
    matchUnit (Registry.inOrder ls) top items = matchUnit (Registry.inOrder ks) top items := by
  have hrole (k : Kind) (hp : (k.definition.isReadable && (k.definition.shape.role = .statement ||
      (top && k.definition.shape.role = .root))) = true) :
      k.definition.shape.role.isValue = false := by
    simp only [Bool.and_eq_true, Bool.or_eq_true, decide_eq_true_eq] at hp
    rcases hp.2 with hr | hr
    · rw [hr]
      rfl
    · rw [hr.2]
      rfl
  refine h.findSome?_eq fun k k' hp hp' hk hk' => .inl ?_
  exact (reads_of_matchOne hk).eq_of_statement (reads_of_matchOne hk') (hrole k hp) (hrole k' hp')

theorem alike : (Registry.inOrder ks).Alike (Registry.inOrder ls) where
  lookup kind := by
    simp only [Registry.lookup, Registry.find?_inOrder, h.perm.mem_iff]
  length := by
    simp only [Registry.inOrder, List.length_map, h.perm.length_eq]
  value := h.value
  unit := h.unit

end Concordant

/-! ## Where the order matters -/

namespace Kind

/-- All kinds in an order with some of those with two operands before the negation, and the others
after it. -/
def leading (first : List Kind) : List Kind :=
  setVariable :: first ++ logicNegate :: binaries.filter (· ∉ first) ++
    priority.filter (· ∉ setVariable :: grouped)

theorem perm_leading : ∀ first ∈ binaries.sublists, (leading first).Perm priority := by
  decide +kernel

theorem idxOf_leading : ∀ first ∈ binaries.sublists, ∀ k ∈ binaries,
    if k ∈ first then (leading first).idxOf k < (leading first).idxOf logicNegate
    else (leading first).idxOf logicNegate < (leading first).idxOf k := by
  decide +kernel

/-- The catalogue has the negation before its rivals. -/
theorem idxOf_priority : ∀ k ∈ binaries, priority.idxOf logicNegate < priority.idxOf k := by decide

/-- A program with a negation that a kind with two operands can read too. -/
def contested : Kind → String
  | logicCompare => "x = (not a == b)\n"
  | logicOperation => "x = (not a and b)\n"
  | _ => "x = (not a + b)\n"

end Kind

/-- The text at which reading failed. -/
def Program.failedAt : Except Failure Reading → Option (List Char)
  | .error f => some f.text
  | .ok _ => none

/-- What comes first reads a contested program, and fails at the operand that it takes from it. -/
theorem failedAt_contested : ∀ first ∈ Kind.binaries.sublists, ∀ k ∈ Kind.binaries,
    (failedAt (read ⟨.inOrder (Kind.leading first), .standard, {}⟩ k.contested) =
      some "not a".toList ↔ k ∈ first) := by
  decide +kernel

section Priority

variable {ks : List Kind} (hks : ks.Perm Kind.priority)

include hks

/-- An order with the negation before its rivals is as good as that of the catalogue. -/
theorem concordant_priority (hfirst : ∀ k ∈ Kind.binaries, ks.idxOf .logicNegate < ks.idxOf k) :
    Concordant Kind.priority ks := by
  refine ⟨hks.symm, fun k k' hrivals hlt => ?_⟩
  rcases hrivals with ⟨rfl, hk'⟩ | ⟨hk, rfl⟩
  · exact hfirst k' hk'
  · exact absurd hlt (Nat.lt_asymm (Kind.idxOf_priority k hk))

/-- In any order a contested program is read as what comes first of the two. -/
theorem failedAt_contested_iff {k : Kind} (hk : k ∈ Kind.binaries) :
    failedAt (read ⟨.inOrder ks, .standard, {}⟩ k.contested) = some "not a".toList ↔
      ks.idxOf k < ks.idxOf .logicNegate := by
  let first := Kind.binaries.filter fun k => ks.idxOf k < ks.idxOf .logicNegate
  have hmem (k : Kind) (hk : k ∈ Kind.binaries) :
      k ∈ first ↔ ks.idxOf k < ks.idxOf .logicNegate := by simp [first, hk]
  have hfirst : first ∈ Kind.binaries.sublists := List.mem_sublists.mpr List.filter_sublist
  -- all that counts of the order is which rivals come before the negation
  have hconcordant : Concordant ks (Kind.leading first) := by
    refine ⟨hks.trans (Kind.perm_leading first hfirst).symm, fun k k' hrivals hlt => ?_⟩
    rcases hrivals with ⟨rfl, hk'⟩ | ⟨hk, rfl⟩
    · have hplace := Kind.idxOf_leading first hfirst k' hk'
      rwa [if_neg fun hm => Nat.lt_asymm hlt ((hmem k' hk').mp hm)] at hplace
    · have hplace := Kind.idxOf_leading first hfirst k hk
      rwa [if_pos ((hmem k hk).mpr hlt)] at hplace
  rw [← hconcordant.alike.read, failedAt_contested first hfirst k hk, hmem k hk]

/-- The built-in kinds can be registered in any order. The order makes no difference to any text,
rules and layout, neither to what is read nor to how reading fails, exactly if the negation comes
before the kinds with two operands. -/
theorem read_eq_builtin_iff : ∃ r, Registry.ofKinds ks = .ok r ∧
    ((∀ (rules : Rules) (options : Options) (source : String),
        read ⟨r, rules, options⟩ source = read ⟨.builtin, rules, options⟩ source) ↔
      ∀ k ∈ [Kind.logicCompare, .logicOperation, .mathArithmetic],
        ks.idxOf .logicNegate < ks.idxOf k) := by
  have hnd : ks.Nodup := hks.nodup_iff.mpr (by decide)
  refine ⟨.inOrder ks, Registry.ofKinds_of_nodup hnd, fun hread k hk => ?_, fun hfirst => ?_⟩
  · have hks' := failedAt_contested_iff hks hk
    have hbuiltin := failedAt_contested_iff (List.Perm.refl Kind.priority) hk
    rw [hread] at hks'
    have hlate : ¬ ks.idxOf k < ks.idxOf .logicNegate := fun hlt =>
      Nat.lt_asymm (Kind.idxOf_priority k hk) ((hks'.symm.trans hbuiltin).mp hlt)
    have hne : ks.idxOf .logicNegate ≠ ks.idxOf k := by
      rw [Ne, List.idxOf_inj (hks.mem_iff.mpr (by decide))]
      rintro rfl
      exact absurd hk (by decide)
    omega
  · exact (concordant_priority hks hfirst).alike.read

end Priority

/-- The negation, then all other kinds from the last to the first. -/
def negationFirst : List Kind := .logicNegate :: (Kind.priority.filter (· ≠ .logicNegate)).reverse

theorem read_negationFirst :
    negationFirst.Perm Kind.priority ∧ ∃ r, Registry.ofKinds negationFirst = .ok r ∧
      ∀ (rules : Rules) (options : Options) (source : String),
        read ⟨r, rules, options⟩ source = read ⟨.builtin, rules, options⟩ source := by
  have hperm : negationFirst.Perm Kind.priority := by decide +kernel
  obtain ⟨r, hr, hread⟩ := read_eq_builtin_iff hperm
  exact ⟨hperm, r, hr, hread.mpr (by decide +kernel)⟩

end BlockText

import BlockText.Proofs.Pruning

/-!
# What the rules decide

The rules run in passes over the same flags: deletions, clearing, one pass for each handler rule,
gating. What comes out does not depend on the flags that were there. Of each kind that may be root
once the first made is left; a root is a duplicate if the last rule for its kind finds an earlier
root that shows the same; of all other nodes those need an event that are gated and below no root of
an event. So a rule that is followed by another rule for its kind holds only by accident.
-/

namespace BlockText

open Workspace

variable {w v : Workspace} {x y : NodeId} {kind : Kind}

/-! ## In the order of creation -/

theorem NodeId.pairwise_place (id : NodeId) {ids : List NodeId} (h : ids.Pairwise (· ≤ ·)) :
    (NodeId.sort.place id ids).Pairwise (· ≤ ·) := by
  induction ids with
  | nil => exact List.pairwise_singleton _ _
  | cons x xs ih =>
    obtain ⟨hx, hxs⟩ := List.pairwise_cons.mp h
    rw [sort.place]
    split
    · next hle =>
      refine List.pairwise_cons.mpr ⟨?_, h⟩
      intro y hy
      rcases List.mem_cons.mp hy with rfl | hy
      · exact hle
      · exact Nat.le_trans hle (hx y hy)
    · next hle =>
      refine List.pairwise_cons.mpr ⟨?_, ih hxs⟩
      intro y hy
      rcases List.mem_cons.mp ((perm_place id xs).mem_iff.mp hy) with rfl | hy
      · exact Nat.le_of_lt (Nat.lt_of_not_le hle)
      · exact hx y hy

theorem NodeId.pairwise_sort (ids : List NodeId) : (NodeId.sort ids).Pairwise (· ≤ ·) := by
  induction ids with
  | nil => exact .nil
  | cons id ids ih => exact pairwise_place id ih

theorem Workspace.ascending_topLevelOf (h : w.roots.Nodup) (kind : Kind) :
    (w.topLevelOf kind).Pairwise (· < ·) :=
  (NodeId.pairwise_sort _).imp₂ (fun _ _ hle hne => Nat.lt_of_le_of_ne hle hne)
    (nodup_topLevelOf h)

/-- In ascending order all come after an earlier one but the first. -/
theorem NodeId.mem_tail_iff {ids : List NodeId} (h : ids.Pairwise (· < ·)) :
    x ∈ ids.tail ↔ x ∈ ids ∧ ∃ y ∈ ids, y < x := by
  cases ids with
  | nil => simp
  | cons first others =>
    obtain ⟨hfirst, -⟩ := List.pairwise_cons.mp h
    rw [List.tail_cons]
    constructor
    · intro hx
      exact ⟨List.mem_cons_of_mem _ hx, first, List.mem_cons_self, hfirst x hx⟩
    · rintro ⟨hx, y, hy, hlt⟩
      apply (List.mem_cons.mp hx).resolve_left
      rintro rfl
      rcases List.mem_cons.mp hy with rfl | hy
      · exact Nat.lt_irrefl _ hlt
      · exact Nat.lt_asymm hlt (hfirst y hy)

namespace Rules

/-! ## Duplicates -/

/-- An earlier root of the kind of a rule shows the same for the field of the rule. -/
def Anticipated (w : Workspace) (rule : HandlerRule) (x : NodeId) : Prop :=
  ∃ y ∈ w.topLevelOf rule.kind, y < x ∧
    discriminant w rule.field y = discriminant w rule.field x

/-- A rule that no other rule for its kind follows. -/
def IsLast (rules : List HandlerRule) (rule : HandlerRule) : Prop :=
  ∃ before after, rules = before ++ rule :: after ∧ ∀ r ∈ after, r.kind ≠ rule.kind

theorem anticipated_reflagged (h : Reflagged w v) (rule : HandlerRule) (x : NodeId) :
    Anticipated v rule x ↔ Anticipated w rule x := by
  simp only [Anticipated, reflagged_topLevelOf h, reflagged_discriminant h]

theorem mem_tail_peers (h : w.roots.Nodup) {rule : HandlerRule} :
    x ∈ (peers w rule x).tail ↔ x ∈ w.topLevelOf rule.kind ∧ Anticipated w rule x := by
  rw [peers, NodeId.mem_tail_iff ((ascending_topLevelOf h rule.kind).filter _)]
  simp only [List.mem_filter, decide_eq_true_iff, and_true, Anticipated, and_assoc,
    and_comm (a := discriminant w rule.field _ = _)]

theorem fieldFor_eq_none {rules : List HandlerRule} (h : ∀ rule ∈ rules, rule.kind ≠ kind) :
    fieldFor kind rules = none := by
  induction rules with
  | nil => rfl
  | cons rule rules ih =>
    rw [List.forall_mem_cons] at h
    rw [fieldFor, ih h.2, if_neg h.1, Option.or_none]

/-- The field for a kind is that of the last rule for it. -/
theorem fieldFor_eq_some_iff {rules : List HandlerRule} {field : String} :
    fieldFor kind rules = some field ↔ IsLast rules ⟨kind, field⟩ := by
  constructor
  · intro h
    induction rules with
    | nil => cases h
    | cons rule rules ih =>
      rw [fieldFor] at h
      cases hlater : fieldFor kind rules with
      | some later =>
        rw [hlater, Option.some_or] at h
        obtain ⟨before, after, hrules, hafter⟩ := ih (hlater.trans h)
        exact ⟨rule :: before, after, congrArg _ hrules, hafter⟩
      | none =>
        rw [hlater, Option.none_or] at h
        split at h
        · next hk =>
          cases h
          exact ⟨[], rules, by rw [← hk]; rfl, kind_ne_of_fieldFor_eq_none hlater⟩
        · cases h
  · rintro ⟨before, after, rfl, hafter⟩
    induction before with
    | nil => rw [List.nil_append, fieldFor, fieldFor_eq_none hafter, if_pos rfl, Option.none_or]
    | cons rule before ih => rw [List.cons_append, fieldFor, ih, Option.some_or]

/-- A node is a duplicate if it is a root for which the last rule for its kind finds an earlier
one. -/
theorem isDuplicate_iff (h : w.roots.Nodup) (rules : Rules) (x : NodeId) :
    rules.isDuplicate w x = true ↔ ∃ rule, IsLast rules.uniqueHandlers rule ∧
      x ∈ w.topLevelOf rule.kind ∧ Anticipated w rule x := by
  rw [isDuplicate, Option.any_eq_true]
  constructor
  · rintro ⟨rule, hrule, hx⟩
    obtain ⟨kind, -, hrule⟩ := Option.bind_eq_some_iff.mp hrule
    obtain ⟨field, hfield, rfl⟩ := Option.map_eq_some_iff.mp hrule
    refine ⟨⟨kind, field⟩, fieldFor_eq_some_iff.mp hfield, ?_⟩
    exact (mem_tail_peers h).mp (List.contains_iff_mem.mp hx)
  · rintro ⟨rule, hlast, hx⟩
    refine ⟨rule, ?_, List.contains_iff_mem.mpr ((mem_tail_peers h).mpr hx)⟩
    rw [ruleFor, (mem_topLevelOf.mp hx.1).2, Option.bind_some, fieldFor_eq_some_iff.mpr hlast]
    rfl

theorem roots_prune_sublist (kinds : List Kind) (w : Workspace) :
    (prune kinds w).workspace.roots.Sublist w.roots := by
  refine prune_keeps (I := fun u => u.roots.Sublist w.roots) (fun u id hu => ?_) kinds (.refl _)
  refine List.Sublist.trans ?_ hu
  unfold delete
  split
  · exact .refl _
  · split
    · exact .refl _
    · rw [Workspace.roots_remove]
      refine List.filter_sublist.trans ?_
      unfold unlink
      split
      · exact .refl _
      · exact List.filter_sublist

/-- After the rules exactly the duplicates are flagged as such, whatever was flagged before. -/
theorem flag?_normalize_iff (h : w.roots.Nodup) (rules : Rules) (x : NodeId) :
    flag? (rules.normalize w).workspace x = some .duplicateHandler ↔
      ∃ rule, IsLast rules.uniqueHandlers rule ∧
        x ∈ (rules.normalize w).workspace.topLevelOf rule.kind ∧
        Anticipated (rules.normalize w).workspace rule x := by
  have hflags := rules.reflagged_normalize w
  have hnd := h.sublist (roots_prune_sublist rules.singletons w)
  simp only [reflagged_topLevelOf hflags, anticipated_reflagged hflags, ← isDuplicate_iff hnd]
  rw [flag?, get?_normalize]
  cases hx : (prune rules.singletons w).workspace.get? x with
  | none => simp [isDuplicate, ruleFor, Workspace.kind?, hx]
  | some n =>
    show rules.flagFor _ x n = _ ↔ _
    rw [flagFor]
    cases rules.isDuplicate (prune rules.singletons w).workspace x with
    | true => simp
    | false => cases rules.isEnabled (prune rules.singletons w).workspace n.id <;> simp

/-- With one rule for each kind every rule is the last one for its kind. -/
theorem isLast_iff_mem {rules : List HandlerRule} (h : (rules.map (·.kind)).Nodup)
    {rule : HandlerRule} : IsLast rules rule ↔ rule ∈ rules := by
  constructor
  · rintro ⟨before, after, rfl, -⟩
    exact List.mem_append_right _ List.mem_cons_self
  · intro hmem
    obtain ⟨before, after, rfl⟩ := List.append_of_mem hmem
    refine ⟨before, after, rfl, fun r hr he => ?_⟩
    rw [List.map_append, List.map_cons] at h
    have hlater := (List.nodup_cons.mp h.of_append_right).1
    exact hlater (he ▸ List.mem_map_of_mem hr)

/-! ## All that the rules do -/

/-- A root of some kinds is not superfluous if it is the first made of its kind. -/
theorem not_mem_superfluous_iff (h : w.roots.Nodup) {kinds : List Kind} (hx : x ∈ w.roots) :
    x ∉ superfluous (Kind.ordered kinds) w ↔ ∀ kind ∈ kinds, w.kind? x = some kind →
      ∀ y ∈ w.roots, w.kind? y = some kind → x ≤ y := by
  simp only [mem_superfluous, mem_ordered, NodeId.mem_tail_iff (ascending_topLevelOf h _),
    mem_topLevelOf, hx, true_and, not_exists, not_and, Nat.not_lt, and_imp]

/-- A node of a gated kind that is its own topmost ancestor or below one that starts no event. -/
def Stranded (rules : Rules) (w : Workspace) (x : NodeId) (n : Node) : Prop :=
  rules.isGated n.kind = true ∧
    (w.rootOf x = x ∨ (w.kind? (w.rootOf x)).any rules.isEventRoot = false)

/-- The workspace `v` and the report `c` are what the rules make of the workspace `w`. -/
structure Corrected (rules : Rules) (w v : Workspace) (c : Correction) : Prop where
  /-- But for flags, all that is not reported as removed is as it was and where it was. -/
  rest : Reflagged (w.remove c.removed) v
  /-- Of each kind that may be root once, the first made is the only one left. -/
  mem_roots : ∀ x, x ∈ v.roots ↔ x ∈ w.roots ∧ ∀ kind ∈ rules.singletons,
    w.kind? x = some kind → ∀ y ∈ w.roots, w.kind? y = some kind → x ≤ y
  /-- What is removed are the trees of the roots that are gone. -/
  removed : ∃ tops : List NodeId, tops.Nodup ∧ (∀ x, x ∈ tops ↔ x ∈ w.roots ∧ x ∉ v.roots) ∧
    c.removed = tops.flatMap w.descendants
  duplicate : ∀ x n, v.get? x = some n → (n.disabled = some .duplicateHandler ↔
    x ∈ v.roots ∧ ∃ rule ∈ rules.uniqueHandlers, n.kind = rule.kind ∧ Anticipated v rule x)
  needsEvent : ∀ x n, v.get? x = some n → n.disabled ≠ some .duplicateHandler →
    (n.disabled = some .needsEvent ↔ rules.Stranded v x n)
  ascending : c.disabled.Pairwise (· < ·)
  mem_disabled : ∀ x, x ∈ c.disabled ↔ ∃ n, v.get? x = some n ∧ n.disabled.isSome

/-- A node that is there may not run if it is stranded. -/
theorem isEnabled_eq_false_iff (rules : Rules) {n : Node} (hn : w.get? x = some n) :
    rules.isEnabled w x = false ↔ rules.Stranded w x n := by
  simp only [isEnabled, hn, Stranded]
  by_cases hg : rules.isGated n.kind = true
  · simp only [hg, if_true, true_and, Bool.and_eq_false_iff, bne_eq_false_iff_eq]
  · simp [hg]

/-- With one rule for each kind a root is a duplicate after the rules if some rule finds an earlier
one. -/
theorem duplicate_normalize_iff (h : w.roots.Nodup) {rules : Rules}
    (hrules : (rules.uniqueHandlers.map (·.kind)).Nodup) {n : Node}
    (hn : (rules.normalize w).workspace.get? x = some n) :
    n.disabled = some .duplicateHandler ↔ x ∈ (rules.normalize w).workspace.roots ∧
      ∃ rule ∈ rules.uniqueHandlers,
        n.kind = rule.kind ∧ Anticipated (rules.normalize w).workspace rule x := by
  have hflag := flag?_normalize_iff h rules x
  simp only [flag?, hn, Option.bind_some, isLast_iff_mem hrules, mem_topLevelOf,
    Workspace.kind?, Option.map_some, Option.some.injEq] at hflag
  rw [hflag]
  constructor
  · rintro ⟨rule, hrule, ⟨hx, hkind⟩, hbefore⟩
    exact ⟨hx, rule, hrule, hkind, hbefore⟩
  · rintro ⟨hx, rule, hrule, hkind, hbefore⟩
    exact ⟨rule, hrule, ⟨hx, hkind⟩, hbefore⟩

/-- A node that is no duplicate needs an event after the rules if it is stranded. -/
theorem needsEvent_normalize_iff (rules : Rules)
    (hid : ∀ n, (prune rules.singletons w).workspace.get? x = some n → n.id = x) {n : Node}
    (hn : (rules.normalize w).workspace.get? x = some n)
    (hd : n.disabled ≠ some .duplicateHandler) :
    n.disabled = some .needsEvent ↔ rules.Stranded (rules.normalize w).workspace x n := by
  rw [← isEnabled_eq_false_iff rules hn, isEnabled_reflagged (rules.reflagged_normalize w)]
  rw [get?_normalize] at hn
  obtain ⟨m, hm, rfl⟩ := Option.map_eq_some_iff.mp hn
  simp only [flagFor, hid m hm] at hd ⊢
  cases hdup : rules.isDuplicate (prune rules.singletons w).workspace x with
  | true => simp [hdup] at hd
  | false => cases rules.isEnabled (prune rules.singletons w).workspace x <;> simp

/-- The report names the nodes that are left with a flag, in order of creation. -/
theorem disabled_report (w : Workspace) :
    (w.nodes.keys.filter fun id => ((w.get? id).bind (·.disabled)).isSome).Pairwise (· < ·) ∧
      ∀ x, x ∈ (w.nodes.keys.filter fun id => ((w.get? id).bind (·.disabled)).isSome) ↔
        ∃ n, w.get? x = some n ∧ n.disabled.isSome := by
  refine ⟨(ascending_keys w).filter _, fun x => ?_⟩
  rw [List.mem_filter, mem_keys]
  constructor
  · rintro ⟨⟨n, hn⟩, hflag⟩
    rw [hn] at hflag
    exact ⟨n, hn, hflag⟩
  · rintro ⟨n, hn, hflag⟩
    rw [hn]
    exact ⟨⟨n, rfl⟩, hflag⟩

/-- In a forest without shadows at its top and with one rule for the handlers of each kind, the rules
do what they say, whatever the flags were. -/
theorem normalize_corrects (h : Forest w) (hid : ∀ x n, w.get? x = some n → n.id = x)
    (hreal : ∀ x ∈ w.roots, ∀ n, w.get? x = some n → n.shadow = false) {rules : Rules}
    (hrules : (rules.uniqueHandlers.map (·.kind)).Nodup) :
    ∃ c, (rules.normalize w).answer = .ok c ∧
      rules.Corrected w (rules.normalize w).workspace c := by
  obtain ⟨hprune, hremoved⟩ := prune_eq_remove h hreal rules.singletons
  have hflags := rules.reflagged_normalize w
  have hroots (x : NodeId) : x ∈ (rules.normalize w).workspace.roots ↔
      x ∈ w.roots ∧ x ∉ superfluous (Kind.ordered rules.singletons) w := by
    rw [hflags.roots, hprune, h.roots_remove_trees, List.mem_filter, decide_eq_true_iff]
  obtain ⟨hascending, hdisabled⟩ := disabled_report (rules.normalize w).workspace
  refine ⟨_, rfl, ?_, fun x => ?_, ⟨superfluous (Kind.ordered rules.singletons) w,
    nodup_superfluous (nodup_ordered _) h.roots_nodup, fun x => ?_, hremoved⟩,
    fun x n hn => ?_, fun x n hn hd => ?_, hascending, hdisabled⟩
  · show Reflagged (w.remove (prune rules.singletons w).removed) _
    rw [hremoved, ← hprune]
    exact hflags
  · rw [hroots]
    exact and_congr_right fun hx => not_mem_superfluous_iff h.roots_nodup hx
  · rw [hroots, not_and, not_not]
    exact ⟨fun hx => ⟨superfluous_subset _ w hx, fun _ => hx⟩, fun hx => hx.2 hx.1⟩
  · exact duplicate_normalize_iff h.roots_nodup hrules hn
  · refine needsEvent_normalize_iff rules (fun m hm => ?_) hn hd
    rw [hprune, get?_remove] at hm
    exact hid x m (Option.ite_none_left_eq_some.mp hm).2

/-- Two blocks of the start, two handlers of one button and a block that needs an event. -/
def crowded : Workspace :=
  [Kind.onStart, .onStart, .onButtonPressed, .onButtonPressed, .clearScreen].foldl
    (fun w kind => (w.create .builtin ⟨kind, [], none⟩).workspace) {}

theorem tidy_crowded : Tidy .builtin crowded :=
  have hr := Registry.sound_builtin
  ((((Tidy.empty.create hr _).create hr _).create hr _).create hr _).create hr _

theorem real_crowded {n : Node} (hx : x ∈ crowded.roots) (hn : crowded.get? x = some n) :
    n.shadow = false := by
  have hroot := tidy_crowded.furnished.roots x hx
  rwa [tag?, hn] at hroot

theorem normalize_corrects_crowded :
    Forest crowded ∧ (∀ x n, crowded.get? x = some n → n.id = x) ∧
      (∀ x ∈ crowded.roots, ∀ n, crowded.get? x = some n → n.shadow = false) ∧
      (standard.uniqueHandlers.map (·.kind)).Nodup ∧
      ∃ c, (standard.normalize crowded).answer = .ok c ∧ c.removed = [1] ∧ c.disabled = [3, 4] ∧
        standard.Corrected crowded (standard.normalize crowded).workspace c := by
  have hid (x : NodeId) (n : Node) (hn : crowded.get? x = some n) : n.id = x :=
    (tidy_crowded.conforms.stored x n hn).1
  have hrules : (standard.uniqueHandlers.map (·.kind)).Nodup := by decide
  obtain ⟨c, hc, hcorrected⟩ := normalize_corrects tidy_crowded.forest hid
    (fun _ hx _ => real_crowded hx) hrules
  refine ⟨tidy_crowded.forest, hid, fun _ hx _ => real_crowded hx, hrules, c, hc, ?_, ?_,
    hcorrected⟩
  · cases hc
    decide
  · cases hc
    decide

/-! ## Rules for handlers -/

end Rules

/-- A rule for handlers holds: of the roots of its kind that show the same for its field only the
first made may be no duplicate, so one at most is none. -/
def HandlerRule.Holds (rule : HandlerRule) (w : Workspace) : Prop :=
  ∀ x ∈ w.topLevelOf rule.kind, Rules.flag? w x ≠ some .duplicateHandler →
    ∀ y ∈ w.topLevelOf rule.kind,
      Rules.discriminant w rule.field y = Rules.discriminant w rule.field x → x ≤ y

theorem HandlerRule.holds_iff {rule : HandlerRule} : rule.Holds w ↔
    ∀ x ∈ w.topLevelOf rule.kind, Rules.Anticipated w rule x →
      Rules.flag? w x = some .duplicateHandler := by
  constructor
  · rintro h x hx ⟨y, hy, hlt, hsame⟩
    by_contra hflag
    exact Nat.not_le.mpr hlt (h x hx hflag y hy hsame)
  · intro h x hx hflag y hy hsame
    by_contra hle
    exact hflag (h x hx ⟨y, hy, Nat.not_le.mp hle, hsame⟩)

namespace Rules

/-- The last rule for a kind holds after the rules. An earlier one for the same kind holds exactly if
what it finds anticipated is anticipated for the last one too: each rule takes back what the rules
before it have flagged. -/
theorem normalize_holds_iff (h : w.roots.Nodup) (rules : Rules) :
    (∀ rule, IsLast rules.uniqueHandlers rule → rule.Holds (rules.normalize w).workspace) ∧
      ∀ rule ∈ rules.uniqueHandlers, rule.Holds (rules.normalize w).workspace ↔
        ∀ x ∈ (rules.normalize w).workspace.topLevelOf rule.kind,
          Anticipated (rules.normalize w).workspace rule x →
            ∃ last, IsLast rules.uniqueHandlers last ∧ last.kind = rule.kind ∧
              Anticipated (rules.normalize w).workspace last x := by
  constructor
  · intro rule hlast
    refine HandlerRule.holds_iff.mpr fun x hx hbefore => ?_
    exact (flag?_normalize_iff h rules x).mpr ⟨rule, hlast, hx, hbefore⟩
  · intro rule _
    refine HandlerRule.holds_iff.trans (forall₂_congr fun x hx => imp_congr_right fun _ => ?_)
    rw [flag?_normalize_iff h]
    refine exists_congr fun last => and_congr_right fun _ => and_congr_left fun _ => ?_
    -- the kind of a root tells for which kind the last rule is
    rw [mem_topLevelOf, (mem_topLevelOf.mp hx).2, Option.some.injEq, eq_comm]
    exact and_iff_right (mem_topLevelOf.mp hx).1

/-- Two handlers that the whole catalogue has made, one for each button. -/
def buttonHandlers : Workspace :=
  ((({} : Workspace).create .builtin ⟨.onButtonPressed, [], none⟩).workspace.create .builtin
    ⟨.onButtonPressed, [("BUTTON", .choice "B")], none⟩).workspace

theorem tidy_buttonHandlers : Tidy .builtin buttonHandlers :=
  (Tidy.empty.create Registry.sound_builtin _).create Registry.sound_builtin _

/-- Handlers have to differ in a field that they do not have, and then in their button. -/
def sideThenButton : Rules := ⟨[], [], [], [⟨.onButtonPressed, "SIDE"⟩, ⟨.onButtonPressed, "BUTTON"⟩]⟩

theorem normalize_holds_last_button :
    buttonHandlers.roots.Nodup ∧
      IsLast sideThenButton.uniqueHandlers ⟨.onButtonPressed, "BUTTON"⟩ ∧
      HandlerRule.Holds ⟨.onButtonPressed, "BUTTON"⟩
        (sideThenButton.normalize buttonHandlers).workspace :=
  have hnd := tidy_buttonHandlers.forest.roots_nodup
  have hlast : IsLast sideThenButton.uniqueHandlers ⟨.onButtonPressed, "BUTTON"⟩ :=
    ⟨[_], [], rfl, by simp⟩
  ⟨hnd, hlast, (normalize_holds_iff hnd sideThenButton).1 _ hlast⟩

/-- Both handlers show nothing for the first rule, yet neither is a duplicate in the end. -/
theorem normalize_first_rule_broken :
    Forest buttonHandlers ∧ ⟨.onButtonPressed, "SIDE"⟩ ∈ sideThenButton.uniqueHandlers ∧
      ¬ HandlerRule.Holds ⟨.onButtonPressed, "SIDE"⟩
        (sideThenButton.normalize buttonHandlers).workspace := by
  refine ⟨tidy_buttonHandlers.forest, List.mem_cons_self, fun h => ?_⟩
  have hlate : (1 : NodeId) ≤ 0 := h 1 (by decide) (by decide) 0 (by decide) (by decide)
  exact absurd hlate (by decide)

end Rules

end BlockText

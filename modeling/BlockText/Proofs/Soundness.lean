import BlockText.Proofs.Accounting

/-!
# What reading gives is well formed

The reader works on a workspace in five ways only: it makes a node, hangs a loose node into a value
input as its child or as its default, appends it to a sequence, and makes it a root. So a condition
on workspaces that these steps keep holds of all that is read. One such condition is that every kind
is in the registry. Together with the tidy forest that the reader builds over the whole catalogue it
makes the result well formed over the registry that was used, with some kinds or all of them and in
any order, and the rules keep that.
-/

namespace BlockText

open Workspace Program

/-! ## Conditions that reading keeps -/

namespace Program

/-- Every step of the reader keeps a condition. -/
structure Invariant (r : Registry) (I : Workspace → Prop) : Prop where
  make : ∀ {w v : Workspace} {b : Blueprint} {x : NodeId}, w.make r b = (v, .ok x) → I w → I v
  setChild : ∀ {w : Workspace} (p : NodeId) (i : String) (c : NodeId), I w → I (w.setChild p i c)
  setShadow : ∀ {w : Workspace} (p : NodeId) (i : String) (c : NodeId), I w → I (w.setShadow p i c)
  appendStatement : ∀ {w : Workspace} (p : NodeId) (i : String) (c : NodeId), I w →
    I (w.appendStatement p i c)
  pushRoot : ∀ {w : Workspace} (c : NodeId), I w → I (w.pushRoot c)

namespace Invariant

variable {r : Registry} {I : Workspace → Prop} {w v : Workspace} {x parent : NodeId}
  {input : String} {ids : List NodeId} {items : List Item}

theorem attach (hI : Invariant r I) {line : Nat} {source : List Char} {child : NodeId}
    (h : Program.attach w line parent input source child = .ok v) (hw : I w) : I v := by
  unfold Program.attach at h
  split at h
  · next u hlink =>
    cases h
    split at hlink
    · unfold linkShadow at hlink
      split at hlink
      · cases hlink
      · split at hlink
        · have hv : w.setShadow parent input child = v := congrArg Prod.fst hlink
          exact hv ▸ hI.setShadow parent input child hw
        · cases hlink
    · unfold linkValue at hlink
      split at hlink
      · cases hlink
      · cases hlink
      · have hv : w.setChild parent input child = v := congrArg Prod.fst hlink
        exact hv ▸ hI.setChild parent input child hw
  · cases h

theorem attachAll (hI : Invariant r I)
    {read : Nat → List Char → Workspace → Except Failure (Workspace × NodeId)}
    (hread : ∀ line source w v x, read line source w = .ok (v, x) → I w → I v)
    {lineOf : List Char → Nat} {sources : List (String × List Char)}
    (h : Program.attachAll read lineOf parent sources w = .ok v) (hw : I w) : I v := by
  induction sources generalizing w with
  | nil =>
    cases h
    exact hw
  | cons s sources ih =>
    rw [Program.attachAll] at h
    obtain ⟨⟨u, c⟩, hu, h⟩ := bind_ok h
    obtain ⟨u', hattach, h⟩ := bind_ok h
    exact ih h (hI.attach hattach (hread _ _ _ _ _ hu hw))

theorem readExpressionUpTo (hI : Invariant r I) {depth line : Nat} {source : List Char}
    (h : Program.readExpressionUpTo r depth line source w = .ok (v, x)) (hw : I w) : I v := by
  induction depth generalizing line source w v x with
  | zero => cases h
  | succ depth ih =>
    rw [Program.readExpressionUpTo] at h
    split at h
    · cases h
    · split at h
      · cases h
      · next hmake =>
        obtain ⟨u, hall, h⟩ := bind_ok h
        cases h
        exact hI.attachAll (fun _ _ _ _ _ hr hu => ih hr hu) hall (hI.make hmake hw)

theorem attachBody (hI : Invariant r I) {line : Nat} {text : List Char}
    {children : List NodeId}
    (h : Program.attachBody line text parent input children w = .ok v) (hw : I w) : I v := by
  induction children generalizing w with
  | nil =>
    cases h
    exact hw
  | cons c children ih =>
    rw [Program.attachBody] at h
    split at h
    · next u hlink =>
      unfold linkStatement at hlink
      split at hlink
      · cases hlink
      · cases hlink
      · have hu : w.appendStatement parent input c = u := congrArg Prod.fst hlink
        exact ih h (hu ▸ hI.appendStatement parent input c hw)
    · cases h

theorem attachBodies (hI : Invariant r I)
    {readBlock : List Item → Workspace → Except Failure (Workspace × List NodeId)}
    (hread : ∀ items w v ids, readBlock items w = .ok (v, ids) → I w → I v) {line : Nat}
    {text : List Char} {bodies : List (String × List Item)}
    (h : Program.attachBodies readBlock line text parent bodies w = .ok v) (hw : I w) : I v := by
  induction bodies generalizing w with
  | nil =>
    cases h
    exact hw
  | cons b bodies ih =>
    rw [Program.attachBodies] at h
    obtain ⟨⟨u, children⟩, hu, h⟩ := bind_ok h
    obtain ⟨u', hbody, h⟩ := bind_ok h
    exact ih h (hI.attachBody hbody (hread _ _ _ _ hu hw))

theorem readUnit (hI : Invariant r I)
    {readBlock : List Item → Workspace → Except Failure (Workspace × List NodeId)}
    (hread : ∀ items w v ids, readBlock items w = .ok (v, ids) → I w → I v) {m : Match}
    (h : Program.readUnit r readBlock m w = .ok (v, x)) (hw : I w) : I v := by
  rw [Program.readUnit] at h
  generalize (m.covered.head?.map Item.firstLine).getD (0, []) = first at h
  simp only at h
  split at h
  · cases h
  · next hmake =>
    obtain ⟨u, hall, h⟩ := bind_ok h
    obtain ⟨u', hbodies, h⟩ := bind_ok h
    cases h
    apply hI.attachBodies hread hbodies
    exact hI.attachAll (fun _ _ _ _ _ hr hu => hI.readExpressionUpTo hr hu) hall
      (hI.make hmake hw)

theorem readUnits (hI : Invariant r I) {top : Bool}
    {readBlock : List Item → Workspace → Except Failure (Workspace × List NodeId)}
    (hread : ∀ items w v ids, readBlock items w = .ok (v, ids) → I w → I v) {bound : Nat}
    (h : Program.readUnits r top readBlock bound items w = .ok (v, ids)) (hw : I w) : I v := by
  induction bound generalizing items w ids with
  | zero =>
    cases items with
    | nil =>
      cases h
      exact hw
    | cons item items => cases h
  | succ bound ih =>
    cases items with
    | nil =>
      cases h
      exact hw
    | cons item items =>
      rw [Program.readUnits] at h
      split at h
      · cases h
      · obtain ⟨⟨u, x⟩, hunit, h⟩ := bind_ok h
        obtain ⟨⟨v', ids'⟩, hunits, h⟩ := bind_ok h
        cases h
        exact ih hunits (hI.readUnit hread hunit hw)

theorem readLevel (hI : Invariant r I) {o : Options} {depth : Nat} {top : Bool}
    (h : Program.readLevel r o depth top items w = .ok (v, ids)) (hw : I w) : I v := by
  induction depth generalizing top items w v ids with
  | zero =>
    rw [readLevel_eq] at h
    refine hI.readUnits (fun items w v ids hread hw => ?_) h hw
    cases hread
    exact hw
  | succ depth ih =>
    rw [readLevel_eq] at h
    exact hI.readUnits (fun items w v ids hread hw => ih hread hw) h hw

theorem build {s : Setup} (hI : Invariant s.registry I) (h : Program.build s items = .ok w)
    (hempty : I {}) : I w := by
  unfold Program.build at h
  split at h
  · next v ids hlevel =>
    cases h
    have hv := hI.readLevel hlevel hempty
    clear hlevel
    induction ids generalizing v with
    | nil => exact hv
    | cons c ids ih => exact ih (v.pushRoot c) (hI.pushRoot c hv)
  · cases h

end Invariant

/-- The reader makes nodes of kinds that are in its registry, and no other. -/
theorem invariant_within (r : Registry) : Invariant r (Within · r) where
  make hm hw := hw.make hm
  setChild p i c hw := hw.keeps (.place p c i _)
  setShadow p i c hw := by
    have hplaced := hw.update (f := fun n => n.withSlot i (shadowInSlot c)) (fun _ => rfl) p
    refine Within.update (f := fun n => { n with parent := some p, shadow := true }) ?_
      (fun _ => rfl) c
    split
    · exact hplaced.remove _
    · exact hplaced
  appendStatement p i c hw := hw.keeps (.place p c i _)
  pushRoot c hw := by
    unfold pushRoot
    split
    · exact hw.update (f := fun n => { n with parent := none }) (fun _ => rfl) c
    · exact hw

end Program

/-! ## Programs -/

/-- What was built from an outline is tidy over the registry that was used. -/
theorem Tidy.of_build {s : Setup} {items : List Item} {w : Workspace} (hr : s.registry.Selected)
    (hclean : ∀ l ∈ Item.linesAll items, '\n' ∉ l) (h : build s items = .ok w) :
    Tidy s.registry w := by
  obtain ⟨t, -, htidy, -⟩ := Script.of_build_selected hr hclean h
  exact htidy.select hr ((invariant_within s.registry).build h .empty)

/-- Different kinds, all or some and in any order, make a registry, and every program that is read
with it gives a well-formed workspace, whatever the rules and the layout options are. -/
theorem wellFormed_of_read {kinds : List Kind} (hk : kinds.Nodup) :
    ∃ r, Registry.ofKinds kinds = .ok r ∧ ∀ rules options source reading,
      Program.read ⟨r, rules, options⟩ source = .ok reading →
        WellFormed r reading.workspace := by
  refine ⟨_, Registry.ofKinds_of_nodup hk, fun rules options source reading h => ?_⟩
  obtain ⟨items, hitems, h⟩ := bind_ok h
  obtain ⟨w, hbuild, h⟩ := bind_ok h
  cases h
  have hclean := (Outline.linesAll_ofSource hitems).2
  have htidy := Tidy.of_build (Registry.selected_definitions hk) hclean hbuild
  exact (htidy.normalize rules).wellFormed

/-- Five kinds in an odd order: a name stands in front of the default of a loop, and the placeholder
leaves no node. -/
theorem wellFormed_of_read_selection : ∃ r reading,
    Registry.ofKinds [.variablesGet, .setVariable, .whileLoop, .logicBoolean, .mathNumber] =
      .ok r ∧
    Program.read ⟨r, .standard, {}⟩ "while x:\n    y = 2\n    pass\ny = z\n" = .ok reading ∧
    reading.workspace.roots.length = 2 ∧ WellFormed r reading.workspace := by
  let kinds : List Kind := [.variablesGet, .setVariable, .whileLoop, .logicBoolean, .mathNumber]
  have hk : kinds.Nodup := by decide
  obtain ⟨r, hr, hwf⟩ := wellFormed_of_read hk
  obtain rfl := Except.ok.inj ((Registry.ofKinds_of_nodup hk).symm.trans hr)
  have hroots : (Program.read { registry := ⟨kinds.map Kind.definition⟩ }
      "while x:\n    y = 2\n    pass\ny = z\n").toOption.map (·.workspace.roots.length) =
        some 2 := by
    decide +kernel
  cases hread : Program.read { registry := ⟨kinds.map Kind.definition⟩ }
      "while x:\n    y = 2\n    pass\ny = z\n" with
  | error f =>
    rw [hread] at hroots
    cases hroots
  | ok reading =>
    rw [hread] at hroots
    exact ⟨_, reading, hr, hread, Option.some.inj hroots, hwf _ _ _ _ hread⟩

end BlockText

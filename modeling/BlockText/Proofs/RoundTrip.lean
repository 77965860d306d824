import BlockText.Proofs.Corrections
import Mathlib.Data.List.Pairwise

/-!
# Text and back

The program that a workspace shows after the rules obeys the rules: no block in it is gated off, and
its top level needs no correction. So when its text is read, the rules leave the workspace that was
read as it is, and all of it is written: it shows the program that was written.
-/

namespace BlockText

open Workspace Program Rules

variable {s : Setup} {w v : Workspace} {x y : NodeId} {n : Node}

/-! ## Programs that obey the rules -/

namespace Script

/-- The gated blocks of a sequence are below the root of an event. -/
def Runs (rules : Rules) (root : Kind) : Script → Prop
  | done => True
  | block kind _ mutation _ body next =>
    (rules.isGated kind = true → rules.isEventRoot root = true) ∧
    (∀ i ∈ kind.definition.shape.statementInputs mutation, (body i).Runs rules root) ∧
    next.Runs rules root

/-- No block of a program is gated off. -/
def Ungated (rules : Rules) : Script → Prop
  | done => True
  | block kind _ mutation _ body next => rules.isGated kind = false ∧
    (∀ i ∈ kind.definition.shape.statementInputs mutation, (body i).Runs rules kind) ∧
    next.Ungated rules

/-- The blocks at the top of a sequence, with their fields. -/
def tops : Script → List (Kind × SortedMap String FieldValue)
  | done => []
  | block kind fields _ _ _ next => (kind, fields) :: next.tops

end Script

/-- A field as it is shown, or nothing if there is no such field. -/
def shownField (fields : SortedMap String FieldValue) (field : String) : String :=
  ((fields.get? field).map fun v => String.ofList v.shown).getD ""

/-- A program in which the rules have nothing to correct. -/
structure Script.Obeys (rules : Rules) (t : Script) : Prop where
  ungated : t.Ungated rules
  single : ∀ k ∈ rules.singletons, t.tops.Pairwise fun a b => ¬ (a.1 = k ∧ b.1 = k)
  handlers : ∀ kind field, fieldFor kind rules.uniqueHandlers = some field →
    t.tops.Pairwise fun a b => a.1 = kind → b.1 = kind → shownField a.2 field ≠ shownField b.2 field

/-! ## What is shown obeys the rules -/

theorem Program.discriminant_eq (hn : w.get? x = some n) (field : String) :
    discriminant w field x = shownField n.fields field := by
  rw [discriminant, hn, Option.bind_some, shownField, Node.field?]
  cases n.fields.get? field <;> rfl

namespace Orderly

theorem rootOf_child (h : Orderly w) (hp : w.parent? y = some x) : w.rootOf y = w.rootOf x := by
  rw [rootOf, ancestors_of_parent h.forest.linked hp, rootOf, List.getLast?_cons]
  rfl

theorem rootOf_root (h : Orderly w) (hx : x ∈ w.roots) : w.rootOf x = x := by
  obtain ⟨n, hn, hp⟩ := h.forest.root_there hx
  rw [rootOf, ancestors_of_top (by rw [parent?, hn, Option.bind_some, hp])]
  rfl

/-- A written node is enabled. -/
theorem isEnabled_of_isWritten (h : Orderly w) (hn : w.get? x = some n)
    (hw : isWritten s w n = true) : s.rules.isEnabled w x = true := by
  rw [isWritten, Bool.and_eq_true, Bool.and_eq_true, (h.conforms.stored x n hn).1] at hw
  exact hw.1.2

/-- What is written below the root of an event may run there. -/
theorem runs_scriptUpTo (h : Orderly w) {root : NodeId} {kind : Kind}
    (hroot : w.kind? root = some kind) (bound : Nat) {ids : List NodeId}
    (hids : ∀ x ∈ ids, w.rootOf x = root) :
    (scriptUpTo s w bound ids).Runs s.rules kind := by
  induction bound generalizing ids with
  | zero => trivial
  | succ bound ih =>
    rw [scriptUpTo]
    induction ids with
    | nil => trivial
    | cons x ids ihs =>
      rw [List.forall_mem_cons] at hids
      have hnext := ihs hids.2
      rw [List.foldr_cons, front]
      cases hn : w.get? x with
      | none => exact hnext
      | some n =>
        dsimp only
        split
        case isFalse => exact hnext
        case isTrue hw =>
          refine ⟨fun hgated => ?_, fun i _ => ih fun y hy => ?_, hnext⟩
          · have henabled := h.isEnabled_of_isWritten hn hw
            rw [isEnabled, hn] at henabled
            simp only [hgated, if_true, Bool.and_eq_true, hids.1, hroot] at henabled
            exact henabled.2
          · obtain ⟨-, m, -, hp, -⟩ := h.statement_child hn hy
            exact (h.rootOf_child hp).trans hids.1

theorem ungated_emitted (h : Orderly w) : (emitted s w).Ungated s.rules := by
  have hrun (ids : List NodeId) (hids : ∀ x ∈ ids, x ∈ w.roots) :
      (scriptUpTo s w (w.size + 1) ids).Ungated s.rules := by
    rw [scriptUpTo]
    induction ids with
    | nil => trivial
    | cons x ids ih =>
      rw [List.forall_mem_cons] at hids
      have hnext := ih hids.2
      rw [List.foldr_cons, front]
      cases hn : w.get? x with
      | none => exact hnext
      | some n =>
        dsimp only
        split
        case isFalse => exact hnext
        case isTrue hw =>
          refine ⟨?_, fun i _ => ?_, hnext⟩
          · have henabled := h.isEnabled_of_isWritten hn hw
            rw [isEnabled, hn] at henabled
            simpa [h.rootOf_root hids.1] using henabled
          · have hkind : w.kind? x = some n.kind := by
              rw [Workspace.kind?, hn]
              rfl
            refine h.runs_scriptUpTo hkind _ fun y hy => ?_
            obtain ⟨-, m, -, hp, -⟩ := h.statement_child hn hy
            exact (h.rootOf_child hp).trans (h.rootOf_root hids.1)
  exact hrun w.roots fun _ => id

end Orderly

/-- The blocks at the top of what is shown are the roots that are written. -/
theorem Program.tops_emitted (s : Setup) (w : Workspace) : (emitted s w).tops =
    w.roots.filterMap fun x => (w.get? x).bind fun n =>
      if isWritten s w n then some (n.kind, n.fields) else none := by
  rw [emitted, scriptUpTo]
  induction w.roots with
  | nil => rfl
  | cons x ids ih =>
    rw [List.foldr_cons, List.filterMap_cons, front]
    cases hn : w.get? x with
    | none => exact ih
    | some n =>
      rw [Option.bind_some]
      dsimp only
      split
      · exact congrArg (_ :: ·) ih
      · exact ih

/-- What an orderly workspace shows after the rules obeys them. -/
theorem Orderly.obeys_emitted (h : Orderly w) (hs : s.rules.Settled w) :
    (emitted s w).Obeys s.rules := by
  have hshown {x : NodeId} {a : Kind × SortedMap String FieldValue}
      (ha : ((w.get? x).bind fun n =>
        if isWritten s w n then some (n.kind, n.fields) else none) = some a) :
      ∃ n, w.get? x = some n ∧ n.disabled = none ∧ a = (n.kind, n.fields) := by
    obtain ⟨n, hn, hif⟩ := Option.bind_eq_some_iff.mp ha
    split at hif
    case isFalse => cases hif
    case isTrue hw =>
      rw [isWritten, Bool.and_eq_true, Bool.and_eq_true, Option.isNone_iff_eq_none] at hw
      exact ⟨n, hn, hw.1.1, (Option.some.inj hif).symm⟩
  -- a block that is written is enabled, so it is none of the duplicates that were flagged
  have hunflagged {x : NodeId} {n : Node} (hn : w.get? x = some n) (hd : n.disabled = none) :
      flag? w x ≠ some .duplicateHandler := by
    rw [flag?, hn, Option.bind_some, hd]
    exact (Option.some_ne_none _).symm
  have hkind {x : NodeId} {n : Node} (hn : w.get? x = some n) : w.kind? x = some n.kind := by
    rw [Workspace.kind?, hn]
    rfl
  refine ⟨h.ungated_emitted, fun k hk => ?_, fun kind field hfield => ?_⟩
  · rw [tops_emitted, List.pairwise_filterMap]
    refine h.forest.roots_nodup.imp_of_mem fun {x y} hx hy hne a ha b hb hab => hne ?_
    obtain ⟨n, hn, -, rfl⟩ := hshown ha
    obtain ⟨m, hm, -, rfl⟩ := hshown hb
    obtain ⟨hak, hbk⟩ := hab
    exact hs.single k hk x hx y hy (hak ▸ hkind hn) (hbk ▸ hkind hm)
  · rw [tops_emitted, List.pairwise_filterMap]
    refine h.forest.roots_nodup.imp_of_mem fun {x y} hx hy hne a ha b hb hak hbk heq => hne ?_
    obtain ⟨n, hn, hnd, rfl⟩ := hshown ha
    obtain ⟨m, hm, hmd, rfl⟩ := hshown hb
    subst hak
    refine hs.handlers _ field hfield x (mem_topLevelOf.mpr ⟨hx, hkind hn⟩) y
      (mem_topLevelOf.mpr ⟨hy, hbk ▸ hkind hm⟩) ?_ (hunflagged hn hnd) (hunflagged hm hmd)
    rw [discriminant_eq hn, discriminant_eq hm]
    exact heq

/-! ## What was read needs no correction -/

/-- A statement or a root that is enabled is written, where the rules left out nothing else. -/
theorem Program.isWritten_of_isEnabled (hr : s.registry = .builtin) (hid : n.id = x)
    (hrole : n.kind.definition.shape.role = .statement ∨ n.kind.definition.shape.role = .root)
    (hd : n.disabled = none) (he : s.rules.isEnabled w x = true) : isWritten s w n = true := by
  have hloose : isLoose s.registry n.kind = false := by
    rw [isLoose, hr, Registry.find?_builtin]
    rcases hrole with hrole | hrole <;> simp [hrole, Role.isValue]
  rw [isWritten, hd, hid, he, hloose]
  rfl

namespace Script.Stands

variable {t : Script} {top : Bool} {lo hi : NodeId} {ids : List NodeId}

theorem tops_eq (h : t.Stands w lo hi ids) :
    t.tops = ids.filterMap fun x => (w.get? x).map fun n => (n.kind, n.fields) := by
  induction t generalizing ids with
  | done =>
    rw [show ids = [] from h]
    rfl
  | block kind fields mutation value body next _ ih =>
    obtain ⟨x, rest, rfl, -, -, ⟨n, hn, rfl, rfl, -⟩, hnext⟩ := h
    rw [tops, ih hnext, List.filterMap_cons, hn]
    rfl

/-- What holds of any two blocks at the top holds of any two nodes at which they stand. -/
theorem tops_pairwise (h : t.Stands w lo hi ids)
    {R : Kind × SortedMap String FieldValue → Kind × SortedMap String FieldValue → Prop}
    (hsymm : ∀ a b, R a b → R b a) (hR : t.tops.Pairwise R) (hx : x ∈ ids) (hy : y ∈ ids)
    (hne : x ≠ y) {m : Node} (hn : w.get? x = some n) (hm : w.get? y = some m) :
    R (n.kind, n.fields) (m.kind, m.fields) := by
  rw [h.tops_eq, List.pairwise_filterMap] at hR
  have hpairs : Std.Symm fun x y : NodeId =>
      ∀ b, (w.get? x).map (fun n => (n.kind, n.fields)) = some b →
        ∀ b', (w.get? y).map (fun n => (n.kind, n.fields)) = some b' → R b b' :=
    ⟨fun x y hxy b hb b' hb' => hsymm _ _ (hxy b' hb' b hb)⟩
  exact hR.forall hx hy hne _ (by rw [hn]; rfl) _ (by rw [hm]; rfl)

/-- Below a root all statements that may run there are written. -/
theorem written_below (h : t.Stands w lo hi ids) (hw : Orderly w) (hr : s.registry = .builtin)
    (hp : t.Proper top) (hflags : ∀ x n, w.get? x = some n → s.rules.isEnabled w x = true →
      n.disabled = none) {root : NodeId} {kind : Kind} (hroot : root ∈ w.roots)
    (hkind : w.kind? root = some kind) (hruns : t.Runs s.rules kind)
    (hids : ∀ x ∈ ids, w.rootOf x = root ∧ x ∉ w.roots) : t.Written s w ids := by
  induction t generalizing top ids with
  | done => trivial
  | block _ fields mutation value body next ihb ih =>
    obtain ⟨x, rest, rfl, -, -, ⟨n, hn, rfl, -, rfl, -, hbodies⟩, hnext⟩ := h
    obtain ⟨hrole, -, -, -, hpbody, hpnext⟩ := hp
    obtain ⟨hgate, hrbody, hrnext⟩ := hruns
    rw [List.forall_mem_cons] at hids
    have hne : root ≠ x := fun he => hids.1.2 (he ▸ hroot)
    have henabled : s.rules.isEnabled w x = true := by
      rw [isEnabled, hn]
      dsimp only
      split
      · next hgated => simp [hids.1.1, hne, hkind, hgate hgated]
      · rfl
    refine ⟨x, rest, n, rfl, hn, isWritten_of_isEnabled hr (hw.conforms.stored x n hn).1
      (hrole.imp_right And.right) (hflags x n hn henabled) henabled, fun i hi => ?_,
      ih hnext hpnext hrnext hids.2⟩
    obtain ⟨children, hc, hstands⟩ := hbodies i hi
    have hstatements : n.statements i = children := by rw [Node.statements, hc]
    refine ihb i (hstatements ▸ hstands) (hpbody i hi) (hrbody i hi) fun y hy => ?_
    obtain ⟨-, m, -, hparent, -⟩ := hw.statement_child hn hy
    exact ⟨(hw.rootOf_child hparent).trans hids.1.1, hw.forest.not_root_of_parent hparent⟩

/-- All statements of a program that is not gated off are written. -/
theorem written (h : t.Stands w lo hi ids) (hw : Orderly w) (hr : s.registry = .builtin)
    (hp : t.Proper top) (hflags : ∀ x n, w.get? x = some n → s.rules.isEnabled w x = true →
      n.disabled = none) (ht : t.Ungated s.rules) (hids : ∀ x ∈ ids, x ∈ w.roots) :
    t.Written s w ids := by
  induction t generalizing ids with
  | done => trivial
  | block kind fields mutation value body next _ ih =>
    obtain ⟨x, rest, rfl, -, -, ⟨n, hn, rfl, -, rfl, -, hbodies⟩, hnext⟩ := h
    obtain ⟨hrole, -, -, -, hpbody, hpnext⟩ := hp
    obtain ⟨hgate, hrbody, hrnext⟩ := ht
    rw [List.forall_mem_cons] at hids
    have henabled : s.rules.isEnabled w x = true := by
      rw [isEnabled, hn]
      dsimp only
      rw [hgate, if_neg Bool.false_ne_true]
    refine ⟨x, rest, n, rfl, hn, isWritten_of_isEnabled hr (hw.conforms.stored x n hn).1
      (hrole.imp_right And.right) (hflags x n hn henabled) henabled, fun i hi => ?_,
      ih hnext hpnext hrnext hids.2⟩
    obtain ⟨children, hc, hstands⟩ := hbodies i hi
    have hstatements : n.statements i = children := by rw [Node.statements, hc]
    rw [hstatements]
    refine hstands.written_below hw hr (hpbody i hi) hflags hids.1
      (by rw [Workspace.kind?, hn]; rfl) (hrbody i hi) fun y hy => ?_
    obtain ⟨-, m, -, hparent, -⟩ := hw.statement_child hn (hstatements ▸ hy)
    exact ⟨(hw.rootOf_child hparent).trans (hw.rootOf_root hids.1),
      hw.forest.not_root_of_parent hparent⟩

/-- The rules leave a program that obeys them as it stands, and all of it is written. -/
theorem emitted_normalize (h : t.Stands w lo hi w.roots) (hw : Orderly w)
    (hr : s.registry = .builtin) (hp : t.Proper true) (htight : t.Tight) (ht : t.Obeys s.rules) :
    emitted s (s.rules.normalize w).workspace = t := by
  have hkind {x : NodeId} {k : Kind} (hk : w.kind? x = some k) :
      ∃ n, w.get? x = some n ∧ n.kind = k := by
    obtain ⟨n, hn, rfl⟩ := Option.map_eq_some_iff.mp hk
    exact ⟨n, hn, rfl⟩
  have hsingle : ∀ k ∈ s.rules.singletons, w.Single k := by
    intro k hk x hx y hy hkx hky
    obtain ⟨n, hn, hnk⟩ := hkind hkx
    obtain ⟨m, hm, hmk⟩ := hkind hky
    by_contra hne
    exact h.tops_pairwise (fun a b hab hba => hab hba.symm) (ht.single k hk) hx hy hne hn hm
      ⟨hnk, hmk⟩
  have hdistinct : ∀ kind field, fieldFor kind s.rules.uniqueHandlers = some field →
      ∀ x ∈ w.topLevelOf kind, ∀ y ∈ w.topLevelOf kind,
        discriminant w field x = discriminant w field y → x = y := by
    intro kind field hfield x hx y hy hd
    obtain ⟨hx, hkx⟩ := mem_topLevelOf.mp hx
    obtain ⟨hy, hky⟩ := mem_topLevelOf.mp hy
    obtain ⟨n, hn, hnk⟩ := hkind hkx
    obtain ⟨m, hm, hmk⟩ := hkind hky
    rw [discriminant_eq hn, discriminant_eq hm] at hd
    by_contra hne
    exact h.tops_pairwise (fun a b hab hb ha he => hab ha hb he.symm)
      (ht.handlers kind field hfield) hx hy hne hn hm hnk hmk hd
  obtain ⟨hflags, hdup⟩ := hw.normalize_of_distinct hsingle hdistinct
  have hstands : t.Stands (s.rules.normalize w).workspace lo hi
      (s.rules.normalize w).workspace.roots := by
    rw [hflags.roots]
    exact h.reflagged hflags
  refine hstands.emitted_eq (hw.normalize s.rules) hp htight (hstands.written (hw.normalize s.rules)
    hr hp (fun x n hn he => hw.disabled_normalize hn (hdup x) he) ht.ungated fun _ => id)

end Script.Stands

/-! ## Round trips -/

/-- The text of an orderly workspace after the rules is read, and what is read shows the program
that was written. -/
theorem Orderly.read_write (h : Orderly w) (hr : s.registry = .builtin) {step : Nat}
    (hstep : 0 < step) (hindent : s.options.indent.toList = List.replicate step ' ')
    (hnoop : (emitted s (s.rules.normalize w).workspace).Hollow →
      OneLine s.options.noop.toList)
    (hfree : s.options.noop.toList ∉ (emitted s (s.rules.normalize w).workspace).lines) :
    ∃ reading, Program.read s (write s (s.rules.normalize w).workspace) = .ok reading ∧
      Orderly reading.workspace ∧
      emitted s reading.workspace = emitted s (s.rules.normalize w).workspace := by
  have hv := h.normalize s.rules
  have hproper := hv.proper_emitted hr
  obtain ⟨items, hitems, hsheet⟩ := Script.ofSource_text hstep hindent hproper hnoop
  obtain ⟨u, hbuild, htidy, hstands⟩ := Script.build_ok hr hproper hfree hsheet
  rw [hv.text_emitted hr] at hitems
  refine ⟨⟨(s.rules.normalize u).workspace,
    ((s.rules.normalize u).answer.map (·.notices)).toOption.getD []⟩, ?_,
    htidy.orderly.normalize s.rules, hstands.emitted_normalize htidy.orderly hr hproper
      hv.tight_emitted (hv.obeys_emitted (h.settled_normalize s.rules))⟩
  · rw [Program.read, write, String.toList_ofList, readChars, hitems]
    simp only [bind, Except.bind, hbuild]
    rfl

/-- What shows the same program is written the same way. -/
theorem Orderly.write_congr (hw : Orderly w) (hv : Orderly v) (hr : s.registry = .builtin)
    (h : emitted s v = emitted s w) : write s v = write s w := by
  rw [write, ← hv.text_emitted hr, h, hw.text_emitted hr, write]

/-- A setup with the built-in catalogue, one or more spaces of indentation and the usual
placeholder. -/
structure Setup.Spaced (s : Setup) : Prop where
  registry : s.registry = .builtin
  indent : ∃ step, 0 < step ∧ s.options.indent.toList = List.replicate step ' '
  noop : s.options.noop = "pass"

/-- Every line that a block writes is more than a word. -/
theorem Script.Proper.isLine {t : Script} {top : Bool} (h : t.Proper top) :
    ∀ l ∈ t.lines, IsLine l := by
  induction t generalizing top with
  | done => exact nofun
  | block kind fields mutation value body next ihb ih =>
    intro l hl
    have hsentence := h.sentence
    rw [lines, h.lines_rows, List.mem_append, List.mem_append] at hl
    obtain ⟨-, -, -, -, hbodies, hnext⟩ := h
    rcases hl with (hl | hl) | hl
    · obtain ⟨r, hr, rfl⟩ := List.mem_map.mp hl
      exact hsentence.lines r hr
    · obtain ⟨i, hi, hl⟩ := List.mem_flatMap.mp hl
      exact ihb i (hbodies i hi) l hl
    · exact ih hnext l hl

namespace Setup.Spaced

/-- The usual placeholder is a word, so no block writes it. -/
theorem read_write (hs : s.Spaced) (h : Orderly w) :
    ∃ reading, Program.read s (write s (s.rules.normalize w).workspace) = .ok reading ∧
      Orderly reading.workspace ∧
      emitted s reading.workspace = emitted s (s.rules.normalize w).workspace := by
  obtain ⟨step, hstep, hindent⟩ := hs.indent
  refine h.read_write hs.registry hstep hindent (fun _ => ?_) fun hm => ?_
  · rw [hs.noop]
    exact oneLine_of_trim (by decide) (by decide) (by decide)
  · obtain ⟨c, hc, hpart⟩ := ((h.normalize s.rules).proper_emitted hs.registry).isLine _ hm |>.mark
    rw [hs.noop] at hc
    have hall : ∀ c ∈ "pass".toList, Word.isPart c = true := by decide
    rw [hall c hc] at hpart
    cases hpart

end Setup.Spaced

/-- The text of an orderly workspace after the rules is read, and what is read has the same text. -/
theorem write_read_write (hs : s.Spaced) (h : Orderly w) :
    ∃ reading, Program.read s (write s (s.rules.normalize w).workspace) = .ok reading ∧
      write s reading.workspace = write s (s.rules.normalize w).workspace := by
  obtain ⟨reading, hread, horderly, hshows⟩ := hs.read_write h
  exact ⟨reading, hread, (h.normalize s.rules).write_congr horderly hs.registry hshows⟩

/-- A string with quotes, a conditional with empty branches, a second start that the rules delete
and a gated block at the top, which is not written; indented by two spaces. -/
theorem write_read_write_conditional :
    ∃ w s, s.Spaced ∧ Orderly w ∧ w.roots = [0, 8, 9] ∧
      write s (s.rules.normalize w).workspace =
        "def on_start():\n  basic.show_string(\"say \\\"hi\\\"\\n\")\n  if True:\n    pass\n" ++
          "  elif (0 == 0):\n    pass\n  else:\n    pass\non_start()\n" ∧
      ∃ reading, Program.read s (write s (s.rules.normalize w).workspace) = .ok reading ∧
        write s reading.workspace = write s (s.rules.normalize w).workspace := by
  have h1 : History .builtin _ := .change (.edit (.create "on_start" [] none)) .start trivial
  have h2 := h1.change (.edit (.create "show_string" [("TEXT", .text "say \"hi\"\n")] none)) trivial
  have h3 := h2.change (.edit (.pushStatement 0 "DO" 1)) trivial
  have h4 := h3.change (.edit (.create "if_else" [] (some ⟨1, true⟩))) trivial
  have h5 := h4.change (.edit (.pushStatement 0 "DO" 2)) trivial
  have h6 := h5.change (.edit (.create "logic_compare" [] none)) trivial
  have h7 := h6.change (.edit (.connectValue 2 "IF1" 5))
    (show Workspace.child? _ 2 "IF1" ≠ some 5 by decide +kernel)
  have h8 := h7.change (.edit (.create "on_start" [] none)) trivial
  have h9 := h8.change (.edit (.create "plot" [] none)) trivial
  have horderly := (h9.tidy Registry.sound_builtin).orderly
  have hs : Setup.Spaced { options := { indent := "  " } } := ⟨rfl, ⟨2, by decide, by decide⟩, rfl⟩
  exact ⟨_, _, hs, horderly, by decide +kernel, by decide +kernel, write_read_write hs horderly⟩

/-- Workspaces with the same text after the rules show the same program. -/
theorem emitted_eq_of_write_eq (hs : s.Spaced) (hv : Orderly v) (hw : Orderly w)
    (h : write s (s.rules.normalize v).workspace = write s (s.rules.normalize w).workspace) :
    emitted s (s.rules.normalize v).workspace = emitted s (s.rules.normalize w).workspace := by
  obtain ⟨reading, hread, -, hshows⟩ := hs.read_write hv
  obtain ⟨reading', hread', -, hshows'⟩ := hs.read_write hw
  obtain rfl : reading = reading' := by
    rw [h, hread'] at hread
    exact (Except.ok.inj hread).symm
  exact hshows.symm.trans hshows'

/-- A number that is the default and a negative zero in front of the default show the same
program. -/
theorem emitted_eq_of_write_eq_zeros :
    ∃ v w, Orderly v ∧ Orderly w ∧ v ≠ w ∧
      write {} (Rules.standard.normalize v).workspace =
        "def on_start():\n    basic.show_number(0)\non_start()\n" ∧
      write {} (Rules.standard.normalize v).workspace =
        write {} (Rules.standard.normalize w).workspace ∧
      emitted {} (Rules.standard.normalize v).workspace =
        emitted {} (Rules.standard.normalize w).workspace := by
  have h1 : History .builtin _ := .change (.edit (.create "on_start" [] none)) .start trivial
  have h2 := h1.change (.edit (.create "show_number" [] none)) trivial
  have h3 := h2.change (.edit (.pushStatement 0 "DO" 1)) trivial
  have h4 := h3.change
    (.edit (.create "math_number" [("NUM", .number (.finite true ⟨0, by decide⟩))] none)) trivial
  have h5 := h4.change (.edit (.connectValue 1 "NUM" 3))
    (show Workspace.child? _ 1 "NUM" ≠ some 3 by decide +kernel)
  have hv := (h3.tidy Registry.sound_builtin).orderly
  have hw := (h5.tidy Registry.sound_builtin).orderly
  have hs : Setup.Spaced {} := ⟨rfl, ⟨4, by decide, by decide⟩, rfl⟩
  exact ⟨_, _, hv, hw, by decide +kernel, by decide +kernel, by decide +kernel,
    emitted_eq_of_write_eq hs hv hw (by decide +kernel)⟩

end BlockText

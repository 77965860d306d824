import BlockText.Format
import BlockText.Proofs.RoundTrip
import BlockText.Settings.Basic

/-!
# Settings and documents

Text can be read back under all settings that the check accepts, if the placeholder keeps out of the
way: it must not be spelled like a line of the program, and where it is written it has to be one
line. The check asks for neither. A document is converted to text that can be read back if the
workspace in it is orderly, which loading does not check: it takes over fields and inputs as they
are.
-/

namespace BlockText

open Workspace Program

variable {w : Workspace}

/-! ## Settings -/

namespace Settings

/-- The setup of a conversion under some settings. -/
def setup (settings : Settings) : Setup := { rules := settings.rules, options := settings.options }

/-- What the check asks for. -/
theorem check_ok {settings accepted : Settings} (h : settings.check = .ok accepted) :
    accepted = settings ∧ (∃ step, 0 < step ∧
      settings.options.indent.toList = List.replicate step ' ') ∧
      settings.options.noop.toList ≠ [] ∧
      Text.trim settings.options.noop.toList = settings.options.noop.toList := by
  rw [check] at h
  split at h
  · cases h
  · next hindent =>
    split at h
    · cases h
    · next hnoop =>
      simp only [Bool.or_eq_true, List.isEmpty_iff, List.any_eq_true, not_or, not_exists,
        not_and, bne_iff_ne, ne_eq, not_not] at hindent hnoop
      refine ⟨(Except.ok.inj h).symm, ⟨settings.options.indent.toList.length,
        List.length_pos_iff.mpr hindent.1, ?_⟩, hnoop⟩
      exact List.eq_replicate_iff.mpr ⟨rfl, hindent.2⟩

/-- Under settings that pass the check the text of an orderly workspace can be read back, unless a
line of the program is spelled like the placeholder or an empty body shows a placeholder that has
control characters. -/
theorem write_read_write_of_check {settings accepted : Settings}
    (hcheck : settings.check = .ok accepted) (hw : Orderly w)
    (hline : accepted.options.noop.toList ∉
      (emitted accepted.setup (accepted.rules.normalize w).workspace).lines)
    (hvisible : (emitted accepted.setup (accepted.rules.normalize w).workspace).Hollow →
      ∀ c ∈ accepted.options.noop.toList, Text.isControl c = true → c = '\t') :
    ∃ reading,
      Program.read accepted.setup (write accepted.setup (accepted.rules.normalize w).workspace) =
        .ok reading ∧
      write accepted.setup reading.workspace =
        write accepted.setup (accepted.rules.normalize w).workspace := by
  obtain ⟨rfl, ⟨step, hstep, hindent⟩, hne, htrim⟩ := check_ok hcheck
  obtain ⟨reading, hread, horderly, hshows⟩ := Orderly.read_write (s := accepted.setup) hw rfl hstep
    hindent (fun hhollow => oneLine_of_trim hne htrim (hvisible hhollow)) hline
  exact ⟨reading, hread, (hw.normalize _).write_congr horderly rfl hshows⟩

/-- The usual rules and a layout. -/
def ofLayout (indent noop : String) : Settings := ⟨⟨indent, noop⟩, .standard, 300⟩

/-- An empty loop is written with three dots in it, and read back. -/
theorem write_read_write_of_check_dots :
    ∃ w, (ofLayout "  " "...").check = .ok (ofLayout "  " "...") ∧ Orderly w ∧
      write (ofLayout "  " "...").setup (Rules.standard.normalize w).workspace =
        "while True:\n  ...\n" ∧
      ∃ reading, Program.read (ofLayout "  " "...").setup
          (write (ofLayout "  " "...").setup (Rules.standard.normalize w).workspace) = .ok reading ∧
        write (ofLayout "  " "...").setup reading.workspace =
          write (ofLayout "  " "...").setup (Rules.standard.normalize w).workspace := by
  have h1 : History .builtin _ := .change (.edit (.create "while_loop" [] none)) .start trivial
  have hw := (h1.tidy Registry.sound_builtin).orderly
  have hcheck : (ofLayout "  " "...").check = .ok (ofLayout "  " "...") := by
    rw [check, if_neg (by decide +kernel), if_neg (by decide +kernel)]
  exact ⟨_, hcheck, hw, by decide +kernel, write_read_write_of_check hcheck hw
    (by decide +kernel) fun _ => by decide⟩

/-- The check accepts an assignment as the placeholder, and then an assignment at the top is taken
for one; it accepts two lines, and then an empty body cannot be read. -/
theorem placeholder_in_the_way :
    (∃ w, (ofLayout "  " "item = 0").check = .ok (ofLayout "  " "item = 0") ∧ Orderly w ∧
      write (ofLayout "  " "item = 0").setup (Rules.standard.normalize w).workspace = "item = 0\n" ∧
      (Program.read (ofLayout "  " "item = 0").setup "item = 0\n").toOption.map
        (fun r => write (ofLayout "  " "item = 0").setup r.workspace) = some "") ∧
    ∃ w, (ofLayout "  " "wait\nhere").check = .ok (ofLayout "  " "wait\nhere") ∧ Orderly w ∧
      write (ofLayout "  " "wait\nhere").setup (Rules.standard.normalize w).workspace =
        "while True:\n  wait\n  here\n" ∧
      (Program.read (ofLayout "  " "wait\nhere").setup "while True:\n  wait\n  here\n").isOk =
        false := by
  have h1 : History .builtin _ := .change (.edit (.create "set_variable" [] none)) .start trivial
  have h2 : History .builtin _ := .change (.edit (.create "while_loop" [] none)) .start trivial
  have hassign : (ofLayout "  " "item = 0").check = .ok (ofLayout "  " "item = 0") := by
    rw [check, if_neg (by decide +kernel), if_neg (by decide +kernel)]
  have hlines : (ofLayout "  " "wait\nhere").check = .ok (ofLayout "  " "wait\nhere") := by
    rw [check, if_neg (by decide +kernel), if_neg (by decide +kernel)]
  exact ⟨⟨_, hassign, (h1.tidy Registry.sound_builtin).orderly, by decide +kernel,
      by decide +kernel⟩,
    ⟨_, hlines, (h2.tidy Registry.sound_builtin).orderly, by decide +kernel, by decide +kernel⟩⟩

end Settings

/-! ## Documents -/

namespace Format

variable {s : Setup} {source : String} {reading : Program.Reading}

/-- A document that is accepted is loaded, and then the rules are applied. -/
theorem readDocument_ok (h : readDocument s source = .ok reading) :
    ∃ w, Document.read source = .ok w ∧ reading.workspace = (s.rules.normalize w).workspace := by
  unfold readDocument at h
  split at h
  · cases h
  · next w hw =>
    split at h
    · cases h
    · cases h
      exact ⟨w, hw, rfl⟩

/-- The text of a document that is accepted can be read back, if the workspace in it is orderly. -/
theorem write_read_write_of_readDocument (hs : s.Spaced) (h : readDocument s source = .ok reading)
    (hw : ∀ w, Document.read source = .ok w → Orderly w) :
    ∃ again, Program.read s (Program.write s reading.workspace) = .ok again ∧
      Program.write s again.workspace = Program.write s reading.workspace := by
  obtain ⟨w, hload, hnormal⟩ := readDocument_ok h
  obtain ⟨again, hread, horderly, hshows⟩ := hs.read_write (hw w hload)
  rw [hnormal]
  exact ⟨again, hread, ((hw w hload).normalize s.rules).write_congr horderly hs.registry hshows⟩

/-- The document of a loop without a body. -/
theorem write_read_write_of_readDocument_loop : ∃ source reading,
    readDocument {} source = .ok reading ∧
    (∀ w, Document.read source = .ok w → Orderly w) ∧
    Program.write {} reading.workspace = "while True:\n    pass\n" ∧
    ∃ again, Program.read {} (Program.write {} reading.workspace) = .ok again ∧
      Program.write {} again.workspace = Program.write {} reading.workspace := by
  have h1 : History .builtin _ := .change (.edit (.create "while_loop" [] none)) .start trivial
  have horderly := (h1.tidy Registry.sound_builtin).orderly
  generalize hlast : Change.run _ _ _ = w at horderly
  have hload : Document.read (Document.write w) = .ok w := by
    rw [Document.read, Document.write, String.toList_ofList, ← hlast]
    decide +kernel
  obtain ⟨reading, hread, hnormal⟩ : ∃ reading, readDocument {} (Document.write w) = .ok reading ∧
      reading.workspace = (Rules.standard.normalize w).workspace := by
    have hdefined : firstUndefined .builtin w.nodes.values = .ok () := by
      rw [← hlast]
      decide +kernel
    rw [readDocument, hload]
    simp only [hdefined]
    exact ⟨_, rfl, rfl⟩
  have hw : ∀ v, Document.read (Document.write w) = .ok v → Orderly v := by
    intro v hv
    rwa [← Except.ok.inj (hload.symm.trans hv)]
  refine ⟨_, reading, hread, hw, ?_,
    write_read_write_of_readDocument ⟨rfl, ⟨4, by decide, by decide⟩, rfl⟩ hread hw⟩
  rw [hnormal, ← hlast]
  decide +kernel

/-- A name that is no word is loaded as it is, and no idiom fits the line that it is written on. -/
theorem readDocument_unreadable_name : ∃ source,
    ((readDocument {} source).toOption.map fun r => Program.write {} r.workspace) =
      some "2x = 0\n" ∧
    (Program.read {} "2x = 0\n").isOk = false := by
  let assignment : Node :=
    ⟨0, .setVariable, .ofList [("VAR", .var "2x")], [], none, false, none, none⟩
  refine ⟨Document.write ⟨.ofList [(0, assignment)], [0], 1⟩, ?_, by decide +kernel⟩
  rw [readDocument, Document.read, Document.write, String.toList_ofList]
  decide +kernel

end Format

end BlockText

import BlockText.Proofs.Clauses

/-!
# Chains of branches

The lines of a conditional are headers, each with the mark of its block: one `if`, any number of
`elif` and perhaps an `else`. Whatever stands in the conditions, the conditional is read from
exactly these lines when what follows them does not go on the chain. A condition may hold colons,
keywords and literals, since a header ends with its line.
-/

namespace BlockText.Catalogue

open Text Pattern

variable {rest : List Char}

/-- A header line, and the mark of its block. -/
def headed (line : List Char) : List Char := line ++ '\n' :: (blockMark ++ ['\n'])

/-- The lines of a conditional with its conditions in order. -/
def chain (condition : List Char) (conditions : List (List Char)) (hasElse : Bool) : List Char :=
  headed ("if ".toList ++ (condition ++ [':'])) ++
    (conditions.flatMap (fun t => headed ("elif ".toList ++ (t ++ [':']))) ++
      if hasElse then headed "else:".toList else [])

/-- A text goes on a chain: it starts with a header of a further branch and the mark of a block. -/
def GoesOnChain (rest : List Char) : Prop :=
  (∃ t, FitsHole t ∧ headed ("elif ".toList ++ (t ++ [':'])) <+: rest) ∨
    headed "else:".toList <+: rest

theorem chain_eq_spellRows (condition : List Char) (conditions : List (List Char)) (m : Mutation) :
    chain condition conditions m.hasElse = spellRows (conditionalRows condition conditions m) := by
  have hbranches (i : Nat) : conditions.flatMap (fun t => headed ("elif ".toList ++ (t ++ [':']))) =
      spellRows (branchRows i conditions) := by
    induction conditions generalizing i with
    | nil => rfl
    | cons t conditions ih =>
      rw [List.flatMap_cons, ih (i + 1)]
      rfl
  have helse : (if m.hasElse then headed "else:".toList else []) = spellRows (elseRows m) := by
    unfold elseRows
    split <;> rfl
  rw [chain, hbranches 1, helse, conditionalRows]
  simp [spellRows, headed, markedBody]

/-- A chain ends before a text exactly when the text does not go on it. -/
theorem endsChain_iff : EndsChain rest ↔ ¬ GoesOnChain rest := by
  constructor
  · rintro h (⟨t, ht, more, rfl⟩ | ⟨more, rfl⟩)
    · have htaken := scan_branch "elif " "elif" Conditional.otherwise ht more
      cases h.elseIf.symm.trans htaken
    · cases h.otherwise
  · intro h
    refine ⟨Option.eq_none_iff_forall_ne_some.mpr fun r hr => h (.inl ?_),
      Option.eq_none_iff_forall_ne_some.mpr fun r hr => h (.inr ?_)⟩
    · obtain ⟨t, -, ht, hcs⟩ := scan_header rfl hr
      refine ⟨t, ht, r.2, ?_⟩
      rw [hcs Conditional.otherwise]
      simp [spellRows, headed, markedBody]
    · obtain ⟨-, rfl⟩ := scan_elseIdiom_some hr
      exact ⟨r.2, rfl⟩

/-- A conditional is read from its lines, and from no more: its mutation counts the branches, each
condition without the blanks around it is the source of its input, and each block is named in order.
What follows may be anything that does not go on the chain, and after an `else` anything at all. -/
theorem recover_chain (condition : List Char) (conditions : List (List Char)) (hasElse : Bool)
    (rest : List Char) (hconditions : ∀ t ∈ condition :: conditions, FitsHole t)
    (hrest : hasElse = false → ¬ GoesOnChain rest) :
    ifElse.recover (chain condition conditions hasElse ++ rest) =
      some
        ({ values := (condition :: conditions).zipIdx.map fun s =>
             (Conditional.condition s.2, trim s.1)
           bodies := (List.range (conditions.length + 1)).map Conditional.body ++
             if hasElse then [Conditional.otherwise] else []
           mutation := some ⟨conditions.length, hasElse⟩ },
         ⟨.ifElse, [], some ⟨conditions.length, hasElse⟩⟩,
         chain condition conditions hasElse) := by
  rw [chain_eq_spellRows condition conditions ⟨conditions.length, hasElse⟩]
  exact recover_conditionalRows hconditions fun h => endsChain_iff.mpr (hrest h)

/-- Conditions with colons, keywords and blanks, before a header without a block; and the same with
an `else`, before a header with one. -/
theorem recover_chain_keywords :
    (∀ t ∈ ["a: else".toList, " \"elif b:\" == c ".toList], FitsHole t) ∧
    ¬ GoesOnChain "elif d:\nelse:\n".toList ∧
    ifElse.recover (chain "a: else".toList [" \"elif b:\" == c ".toList] false ++
        "elif d:\nelse:\n".toList) =
      some
        ({ values := [("IF0", "a: else".toList), ("IF1", "\"elif b:\" == c".toList)]
           bodies := ["DO0", "DO1"]
           mutation := some ⟨1, false⟩ },
         ⟨.ifElse, [], some ⟨1, false⟩⟩,
         chain "a: else".toList [" \"elif b:\" == c ".toList] false) ∧
    ifElse.recover (chain "a: else".toList [" \"elif b:\" == c ".toList] true ++
        headed "elif d:".toList) =
      some
        ({ values := [("IF0", "a: else".toList), ("IF1", "\"elif b:\" == c".toList)]
           bodies := ["DO0", "DO1", "ELSE"]
           mutation := some ⟨1, true⟩ },
         ⟨.ifElse, [], some ⟨1, true⟩⟩,
         chain "a: else".toList [" \"elif b:\" == c ".toList] true) := by
  have hconditions : ∀ t ∈ ["a: else".toList, " \"elif b:\" == c ".toList], FitsHole t := by
    rw [List.forall_mem_cons, List.forall_mem_singleton]
    exact ⟨⟨by decide, by decide⟩, by decide, by decide⟩
  have hrest : ¬ GoesOnChain "elif d:\nelse:\n".toList :=
    endsChain_iff.mp ⟨by decide, by decide⟩
  exact ⟨hconditions, hrest, recover_chain _ _ false _ hconditions fun _ => hrest,
    recover_chain _ _ true _ hconditions (by simp)⟩

end BlockText.Catalogue

import BlockText.Text.Blank

/-!
# Pieces of text

How texts that are put together come apart again: a run of characters ends before a character that
is not of its kind, a beginning and an ending are taken off, and blanks inside do not matter
to trimming.
-/

namespace BlockText.Text

variable {p : Char → Bool} {xs ys zs : List Char}

/-- What holds of all or of some characters of a text is decided along the text, and not for each
character that there is. -/
instance decidableForallMem {q : Char → Prop} [DecidablePred q] : Decidable (∀ c ∈ xs, q c) :=
  List.decidableBAll q xs

instance decidableExistsMem {q : Char → Prop} [DecidablePred q] : Decidable (∃ c ∈ xs, q c) :=
  List.decidableBEx q xs

/-! ## Runs -/

/-- No character of some sort at the front. -/
def Stops (p : Char → Bool) (cs : List Char) : Prop := ∀ c ∈ cs.head?, p c = false

theorem stops_nil : Stops p [] := by
  intro c hc
  cases hc

theorem stops_cons {c : Char} (h : p c = false) : Stops p (c :: xs) := by
  intro d hd
  cases hd
  exact h

/-- A run is taken off up to where it ends. -/
theorem takeWhile_run (hx : ∀ c ∈ xs, p c = true) (hy : Stops p ys) :
    (xs ++ ys).takeWhile p = xs := by
  rw [List.takeWhile_append_of_pos hx]
  cases ys with
  | nil => simp
  | cons c ys => simp [hy c rfl]

theorem dropWhile_run (hx : ∀ c ∈ xs, p c = true) (hy : Stops p ys) :
    (xs ++ ys).dropWhile p = ys := by
  rw [List.dropWhile_append_of_pos hx]
  cases ys with
  | nil => simp
  | cons c ys => simp [hy c rfl]

theorem stops_dropWhile (p : Char → Bool) (xs : List Char) : Stops p (xs.dropWhile p) := by
  intro c hc
  have hhead := List.head?_dropWhile_not p xs
  rw [show (xs.dropWhile p).head? = some c from hc] at hhead
  simpa using hhead

/-- What cannot go on a run does not matter to it. -/
theorem takeWhile_append (hy : Stops p ys) : (xs ++ ys).takeWhile p = xs.takeWhile p := by
  induction xs with
  | nil => exact takeWhile_run (by simp) hy
  | cons c xs ih => simp only [List.cons_append, List.takeWhile_cons, ih]

theorem dropWhile_append (hy : Stops p ys) : (xs ++ ys).dropWhile p = xs.dropWhile p ++ ys := by
  induction xs with
  | nil => exact dropWhile_run (by simp) hy
  | cons c xs ih =>
    simp only [List.cons_append, List.dropWhile_cons, ih]
    split <;> rfl

/-! ## Beginnings and endings -/

@[simp] theorem dropStart?_append (xs ys : List Char) : dropStart? xs (xs ++ ys) = some ys := by
  induction xs with
  | nil => rfl
  | cons c xs ih => simp [dropStart?, ih]

theorem dropStart?_eq_some : dropStart? xs zs = some ys ↔ zs = xs ++ ys := by
  constructor
  · intro h
    induction xs generalizing zs with
    | nil =>
      cases h
      rfl
    | cons c xs ih =>
      cases zs with
      | nil => cases h
      | cons d zs =>
        rw [dropStart?] at h
        split at h
        · next hc => rw [hc, ih h, List.cons_append]
        · cases h
  · rintro rfl
    exact dropStart?_append xs ys

@[simp] theorem dropEnd?_append (xs ys : List Char) : dropEnd? ys (xs ++ ys) = some xs := by
  simp [dropEnd?, List.reverse_append]

theorem mem_join {separator : List Char} {ts : List (List Char)} {c : Char}
    (h : c ∈ join separator ts) : c ∈ separator ∨ ∃ t ∈ ts, c ∈ t := by
  fun_induction join separator ts with
  | case1 => cases h
  | case2 t => exact .inr ⟨t, List.mem_singleton_self t, h⟩
  | case3 t u ts ih =>
    rw [List.mem_append, List.mem_append] at h
    rcases h with (h | h) | h
    · exact .inr ⟨t, List.mem_cons_self, h⟩
    · exact .inl h
    · rcases ih h with h | ⟨v, hv, h⟩
      · exact .inl h
      · exact .inr ⟨v, List.mem_cons_of_mem t hv, h⟩

theorem cut_ne_nil (separator : Char) (cs : List Char) : cut separator cs ≠ [] := by
  cases cs with
  | nil => simp [cut]
  | cons c cs =>
    rw [cut]
    split
    · simp
    · split <;> simp

theorem cut_append {separator : Char} (h : separator ∉ xs) (ys : List Char) :
    cut separator (xs ++ ys) = (xs ++ (cut separator ys).headD []) :: (cut separator ys).tail := by
  obtain ⟨piece, pieces, hcut⟩ := List.exists_cons_of_ne_nil (cut_ne_nil separator ys)
  induction xs with
  | nil => simp [hcut]
  | cons c xs ih =>
    rw [List.mem_cons, not_or] at h
    rw [List.cons_append, cut, if_neg (Ne.symm h.1), ih h.2]
    rfl

/-- Pieces without the separator that are joined with it are found again. -/
theorem cut_join {separator : Char} {ts : List (List Char)} (hne : ts ≠ [])
    (h : ∀ t ∈ ts, separator ∉ t) : cut separator (join [separator] ts) = ts := by
  fun_induction join [separator] ts with
  | case1 => exact absurd rfl hne
  | case2 t =>
    have := cut_append (h t List.mem_cons_self) []
    rw [List.append_nil] at this
    rw [this]
    simp [cut]
  | case3 t u ts ih =>
    rw [List.append_assoc, cut_append (h t List.mem_cons_self), List.singleton_append, cut,
      if_pos rfl, ih (List.cons_ne_nil u ts) fun v hv => h v (List.mem_cons_of_mem t hv)]
    simp

theorem not_mem_cut {separator : Char} {t : List Char} :
    ∀ piece ∈ cut separator t, separator ∉ piece := by
  induction t with
  | nil => simp [cut]
  | cons c t ih =>
    rw [cut]
    by_cases hc : c = separator
    · rw [if_pos hc, List.forall_mem_cons]
      exact ⟨List.not_mem_nil, ih⟩
    · rw [if_neg hc]
      obtain ⟨piece, pieces, hcut⟩ := List.exists_cons_of_ne_nil (cut_ne_nil separator t)
      rw [hcut, List.forall_mem_cons] at ih
      rw [hcut, List.forall_mem_cons, List.mem_cons, not_or]
      exact ⟨⟨Ne.symm hc, ih.1⟩, ih.2⟩

theorem length_cut (separator : Char) (t : List Char) :
    (cut separator t).length = t.count separator + 1 := by
  induction t with
  | nil => rfl
  | cons c t ih =>
    rw [cut]
    by_cases hc : c = separator
    · rw [if_pos hc, hc, List.count_cons_self, List.length_cons, ih]
    · rw [if_neg hc, List.count_cons_of_ne hc, ← ih]
      obtain ⟨piece, pieces, hcut⟩ := List.exists_cons_of_ne_nil (cut_ne_nil separator t)
      rw [hcut]
      rfl

theorem join_cut (separator : Char) (cs : List Char) :
    join [separator] (cut separator cs) = cs := by
  induction cs with
  | nil => rfl
  | cons c cs ih =>
    obtain ⟨piece, pieces, hcut⟩ := List.exists_cons_of_ne_nil (cut_ne_nil separator cs)
    rw [cut]
    by_cases hc : c = separator
    · rw [if_pos hc, hcut, join, ← hcut, ih, hc]
      rfl
    · rw [if_neg hc, hcut]
      rw [hcut] at ih
      cases pieces with
      | nil => exact congrArg (c :: ·) ih
      | cons next pieces => exact congrArg (c :: ·) ih

/-! ## Lines of a source -/

/-- Lines with their line ends. -/
def unlines (ls : List (List Char)) : List Char := ls.flatMap (· ++ ['\n'])

theorem cut_unlines {ls : List (List Char)} (h : ∀ l ∈ ls, '\n' ∉ l) :
    cut '\n' (unlines ls) = ls ++ [[]] := by
  induction ls with
  | nil => rfl
  | cons l ls ih =>
    have htext : unlines (l :: ls) = l ++ '\n' :: unlines ls := by simp [unlines]
    rw [htext, cut_append (h l List.mem_cons_self), cut, if_pos rfl,
      ih fun k hk => h k (List.mem_cons_of_mem l hk)]
    simp

theorem chomp_of_last {l : List Char} (h : l.getLast? ≠ some '\r') : chomp l = l := by
  induction l with
  | nil => rfl
  | cons c l ih =>
    cases l with
    | nil =>
      have hc : c ≠ '\r' := by simpa using h
      simp [chomp, hc]
    | cons d l =>
      rw [List.getLast?_cons_cons] at h
      rw [chomp, ih h]

/-- The lines of a source are found. -/
theorem lines_unlines {ls : List (List Char)} (h : ∀ l ∈ ls, '\n' ∉ l)
    (hlast : ∀ l ∈ ls, l.getLast? ≠ some '\r') : Text.lines (unlines ls) = ls := by
  rw [Text.lines, cut_unlines h]
  clear h
  induction ls with
  | nil => rfl
  | cons l ls ih =>
    have hrest := ih fun k hk => hlast k (List.mem_cons_of_mem l hk)
    obtain ⟨k, ks, hks⟩ : ∃ k ks, ls ++ [[]] = k :: ks := by
      cases ls <;> exact ⟨_, _, rfl⟩
    rw [hks] at hrest
    rw [List.cons_append, hks, linesOfPieces, hrest, chomp_of_last (hlast l List.mem_cons_self)]

/-! ## Length in bytes -/

theorem byteLength_append (xs ys : List Char) :
    byteLength (xs ++ ys) = byteLength xs + byteLength ys := by
  induction xs with
  | nil => exact (Nat.zero_add _).symm
  | cons c xs ih => rw [List.cons_append, byteLength, ih, byteLength, Nat.add_assoc]

theorem length_le_byteLength (xs : List Char) : xs.length ≤ byteLength xs := by
  induction xs with
  | nil => exact Nat.le_refl 0
  | cons c xs ih =>
    have := c.utf8Size_pos
    rw [byteLength, List.length_cons]
    omega

/-- A part that is shorter takes fewer bytes. -/
theorem byteLength_lt_of_infix (h : xs <:+: ys) (hlt : xs.length < ys.length) :
    byteLength xs < byteLength ys := by
  obtain ⟨before, after, rfl⟩ := h
  have hbefore := length_le_byteLength before
  have hafter := length_le_byteLength after
  rw [List.length_append, List.length_append] at hlt
  rw [byteLength_append, byteLength_append]
  omega

/-! ## Trimming -/

/-- Not empty, and no blank at either end. -/
def Trimmed (cs : List Char) : Prop :=
  cs ≠ [] ∧ Stops isBlank cs ∧ ∀ c ∈ cs.getLast?, isBlank c = false

theorem trimmed_of_ends (hs : xs.head?.any (fun c => !isBlank c) = true)
    (he : xs.getLast?.any (fun c => !isBlank c) = true) : Trimmed xs := by
  refine ⟨?_, fun c hc => ?_, fun c hc => ?_⟩
  · rintro rfl
    cases hs
  · rw [show xs.head? = some c from hc] at hs
    simpa using hs
  · rw [show xs.getLast? = some c from hc] at he
    simpa using he

theorem trimEnd_of_last (h : ∀ c ∈ xs.getLast?, isBlank c = false) : trimEnd xs = xs := by
  induction xs with
  | nil => rfl
  | cons c xs ih =>
    cases xs with
    | nil =>
      have hc : isBlank c = false := h c rfl
      simp [trimEnd, hc]
    | cons d xs =>
      rw [trimEnd, ih fun e he => h e (by simpa using he)]

theorem trimStart_of_stops (h : Stops isBlank xs) : trimStart xs = xs := by
  cases xs with
  | nil => rfl
  | cons c xs => simp [trimStart, h c rfl]

theorem Trimmed.trim (h : Trimmed xs) : trim xs = xs := by
  rw [Text.trim, trimStart_of_stops h.2.1, trimEnd_of_last h.2.2]

theorem trimEnd_blank (h : ∀ c ∈ xs, isBlank c = true) : trimEnd xs = [] := by
  induction xs with
  | nil => rfl
  | cons c xs ih =>
    rw [List.forall_mem_cons] at h
    rw [trimEnd, ih h.2]
    exact if_pos h.1

theorem trimEnd_append_blank (h : ∀ c ∈ ys, isBlank c = true) :
    trimEnd (xs ++ ys) = trimEnd xs := by
  induction xs with
  | nil => exact trimEnd_blank h
  | cons c xs ih => rw [List.cons_append, trimEnd, ih, trimEnd]

/-- Blanks on both sides of a trimmed text do not matter to trimming. -/
theorem Trimmed.trim_padded (h : Trimmed xs) (hy : ∀ c ∈ ys, isBlank c = true)
    (hz : ∀ c ∈ zs, isBlank c = true) : Text.trim (ys ++ (xs ++ zs)) = xs := by
  have hs : Stops isBlank (xs ++ zs) := by
    obtain ⟨c, xs, rfl⟩ := List.exists_cons_of_ne_nil h.1
    exact stops_cons (h.2.1 c rfl)
  rw [Text.trim, trimStart, dropWhile_run hy hs, trimEnd_append_blank hz, trimEnd_of_last h.2.2]

theorem Trimmed.trim_space_cons (h : Trimmed xs) : Text.trim (' ' :: xs) = xs := by
  have hspace : ∀ c ∈ [' '], isBlank c = true := by decide
  simpa using h.trim_padded hspace (List.forall_mem_nil _)

theorem Trimmed.trim_append_space (h : Trimmed xs) : Text.trim (xs ++ [' ']) = xs :=
  h.trim_padded (List.forall_mem_nil _) (by decide)

theorem trimEnd_prefix (xs : List Char) : trimEnd xs <+: xs := by
  induction xs with
  | nil => exact List.nil_prefix
  | cons c xs ih =>
    rw [trimEnd]
    split
    · split
      · exact List.nil_prefix
      · exact List.cons_prefix_cons.mpr ⟨rfl, List.nil_prefix⟩
    · next d ds hd => exact List.cons_prefix_cons.mpr ⟨rfl, hd ▸ ih⟩

theorem last_trimEnd (xs : List Char) : ∀ c ∈ (trimEnd xs).getLast?, isBlank c = false := by
  induction xs with
  | nil => exact nofun
  | cons c xs ih =>
    rw [trimEnd]
    split
    · split
      · exact nofun
      · next hc =>
        rintro d hd
        cases hd
        simpa using hc
    · next d ds hd =>
      rw [List.getLast?_cons_cons, ← hd]
      exact ih

/-- What trimming leaves has no blanks at its ends. -/
theorem trimmed_trim (h : trim xs ≠ []) : Trimmed (trim xs) := by
  refine ⟨h, fun c hc => ?_, last_trimEnd _⟩
  have hhead : (trimStart xs).head? = some c := by
    obtain ⟨rest, hrest⟩ := trimEnd_prefix (trimStart xs)
    rw [← hrest, List.head?_append, show (trimEnd (trimStart xs)).head? = some c from hc]
    rfl
  exact stops_dropWhile isBlank xs c hhead

end BlockText.Text

import BlockText.Block.Field
import BlockText.Block.Pattern
import BlockText.Proofs.Texts
import BlockText.Text.Category

/-!
# Pictures

The text of a picture is five words of zeros and ones. Reading stores the cells one by one: a row is
measured in bytes before its characters are counted off as columns, and how many rows there are is
known only at the end. Still, no cell lies outside the matrix, and the texts that are read are
exactly those that are written. The invariant of the loops is that what stands before the next cell
is what was read, and that what stands after it is not touched yet.
-/

namespace BlockText

open Text

namespace Bitmap

/-! ## The written form -/

/-- The characters of a picture. -/
theorem mem_text (b : Bitmap) : ∀ c ∈ b.text, c = '0' ∨ c = '1' ∨ c = ' ' := by
  intro c hc
  rcases mem_join hc with hc | ⟨t, ht, hc⟩
  · exact .inr (.inr (List.mem_singleton.mp hc))
  · obtain ⟨row, -, rfl⟩ := List.mem_map.mp ht
    obtain ⟨x, -, rfl⟩ := List.mem_map.mp hc
    cases x
    · exact .inl rfl
    · exact .inr (.inl rfl)

theorem isControl_text (b : Bitmap) : ∀ c ∈ b.text, isControl c = false := by
  intro c hc
  rcases b.mem_text c hc with rfl | rfl | rfl <;> decide

theorem inRanges_text (b : Bitmap) :
    ∀ c ∈ b.text, Pattern.inRanges [('0', '1'), (' ', ' ')] c = true := by
  intro c hc
  rcases b.mem_text c hc with rfl | rfl | rfl <;> decide

theorem cut_text (b : Bitmap) : cut ' ' b.text = b.val.map fun row => row.map cell := by
  refine cut_join ?_ fun t ht hc => ?_
  · have := b.2.1
    intro he
    rw [List.map_eq_nil_iff] at he
    rw [he] at this
    cases this
  · obtain ⟨row, -, rfl⟩ := List.mem_map.mp ht
    obtain ⟨x, -, hx⟩ := List.mem_map.mp hc
    cases x <;> cases hx

theorem text_ne_nil (b : Bitmap) : b.text ≠ [] := by
  intro he
  have hcut := congrArg List.length b.cut_text
  rw [he, List.length_map, b.2.1] at hcut
  cases hcut

/-! ## Cells -/

variable {b : Bitmap} {above below : List (List Bool)} {left right : List Bool}

theorem cell?_cell (lit : Bool) : cell? (cell lit) = some lit := by cases lit <;> rfl

theorem eq_cell_of_cell? {c : Char} {lit : Bool} (h : cell? c = some lit) : c = cell lit := by
  unfold cell? at h
  split at h
  · next hc =>
    obtain rfl := Option.some.inj h
    exact hc
  · split at h
    · next hc =>
      obtain rfl := Option.some.inj h
      exact hc
    · cases h

theorem cell_injective (x y : Bool) (h : cell x = cell y) : x = y := by
  have := cell?_cell x
  rw [h, cell?_cell] at this
  exact (Option.some.inj this).symm

theorem map_cell_injective (xs ys : List Bool) (h : xs.map cell = ys.map cell) : xs = ys :=
  (List.map_inj_right cell_injective).mp h

theorem text_injective {a b : Bitmap} (h : a.text = b.text) : a = b := by
  have hrows := congrArg (cut ' ') h
  rw [cut_text, cut_text] at hrows
  exact Subtype.ext ((List.map_inj_right map_cell_injective).mp hrows)

theorem byteLength_cells (cells : List Bool) : byteLength (cells.map cell) = cells.length := by
  induction cells with
  | nil => rfl
  | cons lit cells ih =>
    have hcell : (cell lit).utf8Size = 1 := by cases lit <;> decide
    rw [List.map_cons, byteLength, ih, hcell, Nat.add_comm, List.length_cons]

/-- A cell of the matrix is stored, and the cells around it stay. -/
theorem store_at {x : Bool} (hb : b.val = above ++ (left ++ x :: right) :: below) (lit : Bool) :
    ∃ b' : Bitmap, b.store above.length left.length lit = .ok b' ∧
      b'.val = above ++ (left ++ lit :: right) :: below := by
  have hrow : above.length < 5 := by
    have := b.2.1
    rw [hb, List.length_append, List.length_cons] at this
    omega
  have hcolumn : left.length < 5 := by
    have := b.2.2 (left ++ x :: right) (by simp [hb])
    rw [List.length_append, List.length_cons] at this
    omega
  refine ⟨_, if_pos ⟨hrow, hcolumn⟩, ?_⟩
  show b.val.modify above.length (fun cells => cells.set left.length lit) = _
  rw [hb, List.modify_eq_take_cons_drop (by simp)]
  simp

/-! ## Rows -/

/-- The characters of a row that is not too long are stored if all of them are cells, and the text
is refused otherwise. -/
theorem storeCells_at {cs : List Char} (hb : b.val = above ++ (left ++ right) :: below)
    (hlen : cs.length ≤ right.length) :
    (∃ (cells : List Bool) (b' : Bitmap), cs = cells.map cell ∧
      storeCells above.length left.length cs b = .ok b' ∧
      b'.val = above ++ (left ++ cells ++ right.drop cells.length) :: below) ∨
    ((∀ cells : List Bool, cs ≠ cells.map cell) ∧
      storeCells above.length left.length cs b = .error .malformed) := by
  induction cs generalizing left right b with
  | nil => exact .inl ⟨[], b, rfl, rfl, by simpa using hb⟩
  | cons c cs ih =>
    obtain ⟨x, right, rfl⟩ := List.exists_cons_of_length_pos (Nat.zero_lt_of_lt hlen)
    cases hc : cell? c with
    | none =>
      refine .inr ⟨fun cells he => ?_, by rw [storeCells, hc]⟩
      cases cells with
      | nil => cases he
      | cons lit cells =>
        rw [(List.cons.inj he).1, cell?_cell] at hc
        cases hc
    | some lit =>
      obtain ⟨b₁, hstore, hb₁⟩ := store_at hb lit
      have hstep : storeCells above.length left.length (c :: cs) b =
          storeCells above.length (left ++ [lit]).length cs b₁ := by
        rw [storeCells, hc, List.length_append]
        simp only [hstore]
        rfl
      have hb₁' : b₁.val = above ++ (left ++ [lit] ++ right) :: below := by
        rw [hb₁, List.append_assoc, List.singleton_append]
      rw [hstep]
      rcases ih hb₁' (Nat.le_of_succ_le_succ hlen) with ⟨cells, b', rfl, hrest, hb'⟩ | ⟨hne, hrest⟩
      · refine .inl ⟨lit :: cells, b', ?_, hrest, ?_⟩
        · rw [eq_cell_of_cell? hc, List.map_cons]
        · simp [hb']
      · refine .inr ⟨fun cells he => ?_, hrest⟩
        cases cells with
        | nil => cases he
        | cons lit cells => exact hne cells (List.cons.inj he).2

/-! ## Pictures -/

/-- A picture has some rows first, and what other rows spell after them. -/
def Completes (above : List (List Bool)) (rows : List (List Char)) (b : Bitmap) : Prop :=
  ∃ missing : List (List Bool), rows = missing.map (fun row => row.map cell) ∧
    b.val = above ++ missing

theorem completes_nil : Completes above [] b ↔ b.val = above := by
  constructor
  · rintro ⟨missing, hrows, hb⟩
    rw [hb, List.map_eq_nil_iff.mp hrows.symm, List.append_nil]
  · intro hb
    exact ⟨[], rfl, by rw [hb, List.append_nil]⟩

theorem completes_cons {cs : List Char} {rows : List (List Char)} :
    Completes above (cs :: rows) b ↔
      ∃ cells : List Bool, cs = cells.map cell ∧ Completes (above ++ [cells]) rows b := by
  constructor
  · rintro ⟨missing, hrows, hb⟩
    obtain ⟨cells, missing, rfl, hcells, hrest⟩ := List.map_eq_cons_iff.mp hrows.symm
    exact ⟨cells, hcells.symm, missing, hrest.symm, by simp [hb]⟩
  · rintro ⟨cells, rfl, missing, rfl, hb⟩
    exact ⟨cells :: missing, rfl, by simp [hb]⟩

/-- A row of a picture passes the checks that are made before its cells are stored. -/
theorem Completes.row_fits {cs : List Char} {rows : List (List Char)}
    (h : Completes above (cs :: rows) b) : above.length < 5 ∧ byteLength cs = 5 := by
  obtain ⟨cells, rfl, missing, -, hb⟩ := completes_cons.mp h
  have hcount := b.2.1
  rw [hb, List.length_append, List.length_append, List.length_singleton] at hcount
  rw [byteLength_cells, b.2.2 cells (by simp [hb])]
  exact ⟨by omega, rfl⟩

/-- A row that passes the checks is stored cell by cell, and then the rows after it are stored. -/
theorem storeRows_cons {row : Nat} {cs : List Char} {rows : List (List Char)} (hrow : row < 5)
    (hbytes : byteLength cs = 5) : storeRows row (cs :: rows) b =
      (storeCells row 0 cs b).bind (storeRows (row + 1) rows) := by
  rw [storeRows, if_neg (by omega)]
  cases storeCells row 0 cs b <;> rfl

/-- Rows are stored if they complete a picture, and the text is refused otherwise. -/
theorem storeRows_at {rows : List (List Char)} (hb : b.val = above ++ below) :
    (∃ b' : Bitmap, Completes above rows b' ∧ storeRows above.length rows b = .ok b') ∨
    ((∀ b' : Bitmap, ¬ Completes above rows b') ∧
      storeRows above.length rows b = .error .malformed) := by
  induction rows generalizing above below b with
  | nil =>
    by_cases hall : above.length = 5
    · have hbelow : below = [] := by
        have := b.2.1
        rw [hb, List.length_append, hall] at this
        exact List.eq_nil_of_length_eq_zero (by omega)
      exact .inl ⟨b, completes_nil.mpr (by rw [hb, hbelow, List.append_nil]), if_pos hall⟩
    · refine .inr ⟨fun b' hb' => hall ?_, if_neg hall⟩
      rw [← completes_nil.mp hb', b'.2.1]
  | cons cs rows ih =>
    by_cases hbad : 5 ≤ above.length ∨ byteLength cs ≠ 5
    · refine .inr ⟨fun b' hb' => ?_, by rw [storeRows, if_pos hbad]⟩
      have := hb'.row_fits
      omega
    · have hrow : above.length < 5 := by omega
      have hbytes : byteLength cs = 5 := by omega
      -- there is a row left, and a row of five bytes has at most five columns
      obtain ⟨old, below, rfl⟩ : ∃ old rest, below = old :: rest := by
        refine List.exists_cons_of_length_pos ?_
        have := b.2.1
        rw [hb, List.length_append] at this
        omega
      have hold : old.length = 5 := b.2.2 old (by simp [hb])
      have hlen : cs.length ≤ old.length := by
        have := length_le_byteLength cs
        omega
      have hb₀ : b.val = above ++ ([] ++ old) :: below := hb
      rw [storeRows_cons hrow hbytes]
      rcases storeCells_at hb₀ hlen with ⟨cells, b₁, rfl, hstore, hb₁⟩ | ⟨hne, hstore⟩
      · rw [show storeCells above.length 0 (cells.map cell) b = .ok b₁ from hstore]
        have hb₁' : b₁.val = above ++ [cells] ++ below := by
          rw [byteLength_cells] at hbytes
          rw [hb₁, hbytes, ← hold, List.drop_length]
          simp
        have hih := @ih b₁ (above ++ [cells]) below hb₁'
        rw [List.length_append] at hih
        rcases hih with ⟨b', hb', hrest⟩ | ⟨hne, hrest⟩
        · exact .inl ⟨b', completes_cons.mpr ⟨cells, rfl, hb'⟩, hrest⟩
        · refine .inr ⟨fun b' hb' => ?_, hrest⟩
          obtain ⟨cells', hcells, hb'⟩ := completes_cons.mp hb'
          obtain rfl := map_cell_injective _ _ hcells
          exact hne b' hb'
      · rw [show storeCells above.length 0 cs b = .error .malformed from hstore]
        refine .inr ⟨fun b' hb' => ?_, rfl⟩
        obtain ⟨cells, hcells, -⟩ := completes_cons.mp hb'
        exact hne cells hcells

/-- A text is read as the picture it is the text of, and refused as malformed if it is the text of
none. -/
theorem ofText_cases (cs : List Char) :
    (∃ b : Bitmap, cs = b.text ∧ ofText cs = .ok b) ∨
      ((∀ b : Bitmap, cs ≠ b.text) ∧ ofText cs = .error .malformed) := by
  have hdark : dark.val = [] ++ dark.val := rfl
  rcases storeRows_at hdark with ⟨b, ⟨rows, hcut, hb⟩, hread⟩ | ⟨hne, hread⟩
  · refine .inl ⟨b, ?_, hread⟩
    rw [text, hb, List.nil_append, ← hcut, join_cut]
  · refine .inr ⟨?_, hread⟩
    rintro b rfl
    exact hne b ⟨b.val, b.cut_text, rfl⟩

-- the first row has five bytes and only four characters
example : ofText "01é0 11111 11111 01110 00100".toList = .error .malformed := rfl

/-- A picture is read back from its text. -/
theorem ofText?_text (b : Bitmap) : ofText? b.text = some b := by
  rcases ofText_cases b.text with ⟨b', htext, hread⟩ | ⟨hne, -⟩
  · rw [ofText?, hread, text_injective htext]
    rfl
  · exact absurd rfl (hne b)

/-! ## Which texts are pictures -/

theorem ofText?_eq_some_iff {cs : List Char} : ofText? cs = some b ↔ cs = b.text := by
  constructor
  · intro h
    rcases ofText_cases cs with ⟨b', htext, hread⟩ | ⟨-, hread⟩
    · rw [ofText?, hread] at h
      obtain rfl := Option.some.inj h
      exact htext
    · rw [ofText?, hread] at h
      cases h
  · rintro rfl
    exact ofText?_text b

theorem map_cell_of_mem {row : List Char} (h : ∀ c ∈ row, c = '0' ∨ c = '1') :
    (row.map (· == '1')).map cell = row := by
  rw [List.map_map]
  refine (List.map_congr_left fun c hc => ?_).trans (List.map_id row)
  rcases h c hc with rfl | rfl <;> rfl

/-- The texts of pictures, told by their shape: four spaces, and between them words of five zeros
and ones. -/
theorem exists_text_iff {cs : List Char} : (∃ b : Bitmap, cs = b.text) ↔
    cs.count ' ' = 4 ∧ ∀ row ∈ cut ' ' cs, row.length = 5 ∧ ∀ c ∈ row, c = '0' ∨ c = '1' := by
  constructor
  · rintro ⟨b, rfl⟩
    have hcount := length_cut ' ' b.text
    rw [cut_text, List.length_map, b.2.1] at hcount
    refine ⟨by omega, fun row hrow => ?_⟩
    rw [cut_text] at hrow
    obtain ⟨cells, hcells, rfl⟩ := List.mem_map.mp hrow
    refine ⟨(List.length_map _).trans (b.2.2 cells hcells), fun c hc => ?_⟩
    obtain ⟨lit, -, rfl⟩ := List.mem_map.mp hc
    cases lit
    · exact .inl rfl
    · exact .inr rfl
  · rintro ⟨hcount, hrows⟩
    have hfive : (cut ' ' cs).length = 5 := by rw [length_cut, hcount]
    refine ⟨⟨(cut ' ' cs).map fun row => row.map (· == '1'), ?_, ?_⟩, ?_⟩
    · rw [List.length_map, hfive]
    · intro cells hcells
      obtain ⟨row, hrow, rfl⟩ := List.mem_map.mp hcells
      exact (List.length_map _).trans (hrows row hrow).1
    · have hcells : ((cut ' ' cs).map fun row => row.map (· == '1')).map (fun r => r.map cell) =
          cut ' ' cs := by
        rw [List.map_map]
        refine (List.map_congr_left fun row hrow => ?_).trans (List.map_id _)
        exact map_cell_of_mem (hrows row hrow).2
      rw [text, hcells, join_cut]

/-- Reading accepts exactly the written pictures: five words of five zeros and ones with a single
space between two of them, and nothing else, be it a space more or less, a word of another length or
a character of several bytes. Whatever the text, no cell outside the matrix is stored. -/
theorem ofText?_exact (s : String) :
    (∀ b : Bitmap, ofText? s.toList = some b ↔ s = String.ofList b.text) ∧
    ((ofText? s.toList).isSome = true ↔ s.toList.count ' ' = 4 ∧
      ∀ row ∈ cut ' ' s.toList, row.length = 5 ∧ ∀ c ∈ row, c = '0' ∨ c = '1') ∧
    ∀ row column, ofText s.toList ≠ .error (.outside row column) := by
  refine ⟨fun b => ?_, ?_, fun row column h => ?_⟩
  · rw [ofText?_eq_some_iff]
    exact ⟨fun h => by rw [← h, String.ofList_toList], fun h => by rw [h, String.toList_ofList]⟩
  · rw [Option.isSome_iff_exists, ← exists_text_iff]
    exact exists_congr fun b => ofText?_eq_some_iff
  · rcases ofText_cases s.toList with ⟨b, -, hread⟩ | ⟨-, hread⟩
    · rw [hread] at h
      cases h
    · rw [hread] at h
      cases h

end Bitmap

end BlockText

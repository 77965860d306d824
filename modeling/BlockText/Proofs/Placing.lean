import BlockText.Proofs.Accounting

/-!
# Nothing that was read is misplaced

The extractor of a kind and the shape of the kind are written apart from each other: one names
fields, inputs and a mutation, the other says what a node has. They agree: every field that is
extracted is one of the shape, with a value that it accepts, and every input is there and empty when
its part comes to be linked. So the node of a block that was recognized is always made, what is read
for its inputs is always attached, and a program that cannot be read fails for another reason.
-/

namespace BlockText

open Workspace Program Text Catalogue

/-! ## Fields that were extracted -/

/-- Fields with different names, all of them fields of a shape with values that it accepts. -/
structure Extraction.Accepted (e : Extraction) (s : Shape) : Prop where
  nodup : (e.fields.map (·.1)).Nodup
  accepts : ∀ f ∈ e.fields, ∃ spec, s.field? f.1 = some spec ∧ spec.accepts f.2 = true

namespace Extraction.Accepted

variable {e : Extraction} {s : Shape}

theorem of_nil (h : e.fields = []) : e.Accepted s where
  nodup := by simp [h]
  accepts := by simp [h]

theorem of_singleton {name : String} {value : FieldValue} {spec : FieldSpec}
    (h : e.fields = [(name, value)]) (hs : s.field? name = some spec)
    (ha : spec.accepts value = true) : e.Accepted s where
  nodup := by simp [h]
  accepts := by
    rw [h, List.forall_mem_singleton]
    exact ⟨spec, hs, ha⟩

end Extraction.Accepted

/-- Accepted fields are put in. -/
theorem Workspace.fillFields_ok {s : Shape} (id : NodeId) {values : List (String × FieldValue)}
    (fields : SortedMap String FieldValue) (hnd : (values.map (·.1)).Nodup)
    (h : ∀ f ∈ values, ∃ spec, s.field? f.1 = some spec ∧ spec.accepts f.2 = true) :
    ∃ result, fillFields s id values fields = .ok result ∧
      (∀ f ∈ values, result.get? f.1 = some f.2) ∧
      ∀ name ∉ values.map (·.1), result.get? name = fields.get? name := by
  induction values generalizing fields with
  | nil => exact ⟨fields, rfl, by simp, fun _ _ => rfl⟩
  | cons f values ih =>
    rw [List.forall_mem_cons] at h
    rw [List.map_cons, List.nodup_cons] at hnd
    obtain ⟨⟨spec, hspec, haccepts⟩, hrest⟩ := h
    obtain ⟨result, hresult, hput, hkept⟩ := ih (fields.insert f.1 f.2) hnd.2 hrest
    refine ⟨result, ?_, ?_, fun name hname => ?_⟩
    · rw [fillFields, hspec]
      simp only [haccepts, if_true]
      exact hresult
    · rw [List.forall_mem_cons]
      refine ⟨?_, hput⟩
      rw [hkept f.1 hnd.1, SortedMap.get?_insert, if_pos rfl]
    · rw [List.map_cons, List.mem_cons, not_or] at hname
      rw [hkept name hname.2, SortedMap.get?_insert, if_neg hname.1]

namespace Catalogue

open Pattern

variable {cs rest : List Char} {c : Captures} {e : Extraction} {name : String}

/-- What stands between two texts is one of the options. -/
theorem scan_option {start close : String} {options : List (List Char)} {piece : List Char}
    (h : (lits start ++ oneOf name options ++ lits close).scan cs = some (c, rest))
    (hc : c.first? name = some piece) : piece ∈ options := by
  obtain ⟨c₂, _, _, h₂, hclose, rfl⟩ := scan_append_some h
  obtain ⟨c₁, _, _, h₁, hoption, rfl⟩ := scan_append_some h₂
  obtain ⟨rfl, -⟩ := scan_lits_some h₁
  obtain ⟨rfl, -⟩ := scan_lits_some hclose
  rw [scan] at hoption
  obtain ⟨⟨o, rest'⟩, ho, he⟩ := Option.map_eq_some_iff.mp hoption
  cases he
  obtain rfl : o = piece := by simpa [Captures.first?] using hc
  exact (firstOption?_eq_some ho).1

/-- An option of an idiom is accepted by a field that has all of them, in any order. -/
theorem accepts_option {start close : String} {options : List (List Char)} {choices : List String}
    {piece : List Char} (hall : ∀ o ∈ options, String.ofList o ∈ choices)
    (h : (lits start ++ oneOf name options ++ lits close).scan cs = some (c, rest))
    (hc : c.first? name = some piece) :
    (FieldSpec.choice name choices).accepts (.choice (String.ofList piece)) = true := by
  show choices.contains (String.ofList piece) = true
  rw [List.contains_iff_mem]
  exact hall piece (scan_option h hc)

/-- The name of an operator that is found by its sign is accepted. -/
theorem accepts_operator {operators : Operators} {sign : List Char} {o : String × List Char}
    (h : operators.find? (fun o => o.2 == sign) = some o) :
    (FieldSpec.choice name (operators.map (·.1))).accepts (.choice o.1) = true := by
  show (operators.map (·.1)).contains o.1 = true
  rw [List.contains_iff_mem]
  exact List.mem_map_of_mem (List.mem_of_find?_eq_some h)

theorem accepts_identifier {word : List Char} (h : Word.isIdentifier word = true) :
    (FieldSpec.var name).accepts (.var (String.ofList word)) = true := by
  show Word.isIdentifier (String.ofList word).toList = true
  rwa [String.toList_ofList]

/-- The fields that an extractor gives are accepted, for every text that its idiom took. -/
theorem accepted_of_extract {k : Kind} {idiom : Pattern}
    {extractor : Captures → Option Extraction} (hi : k.definition.idiom = some idiom)
    (hd : k.definition.extractor = some extractor) (hs : idiom.scan cs = some (c, rest))
    (hx : extractor c = some e) : e.Accepted k.definition.shape := by
  cases k with
  | ifElseElseIf | ifElseElse => cases hd
  | onStart | forever | clearScreen | temperature =>
    obtain rfl := Option.some.inj hd
    cases hx
    exact .of_nil rfl
  | ifElse =>
    obtain rfl := Option.some.inj hi
    obtain rfl := Option.some.inj hd
    obtain ⟨piece, pieces, m, -, -, hread⟩ := readConditional_of_scan hs
    obtain rfl := Option.some.inj (hx.symm.trans hread)
    exact .of_nil rfl
  | showNumber | pause | displayShow | plot | unplot | playTone | mathRandom =>
    obtain rfl := Option.some.inj hd
    exact .of_nil (readArguments_some hx).1
  | repeatTimes | whileLoop =>
    obtain rfl := Option.some.inj hd
    obtain ⟨_, -, hx⟩ := Option.bind_eq_some_iff.mp hx
    cases hx
    exact .of_nil rfl
  | logicNegate =>
    obtain rfl := Option.some.inj hd
    obtain ⟨_, -, hx⟩ := Option.bind_eq_some_iff.mp hx
    obtain ⟨_, -, hx⟩ := Option.bind_eq_some_iff.mp hx
    cases hx
    exact .of_nil rfl
  | logicBoolean =>
    obtain rfl := Option.some.inj hd
    obtain ⟨_, -, hx⟩ := Option.bind_eq_some_iff.mp hx
    cases hx
    exact .of_singleton rfl rfl rfl
  | showString | showLeds | text =>
    obtain rfl := Option.some.inj hd
    obtain ⟨_, -, hx⟩ := Option.bind_eq_some_iff.mp hx
    obtain ⟨_, -, hx⟩ := Option.bind_eq_some_iff.mp hx
    cases hx
    exact .of_singleton rfl rfl rfl
  | buttonIsPressed | acceleration =>
    obtain rfl := Option.some.inj hi
    obtain rfl := Option.some.inj hd
    obtain ⟨_, hc, hx⟩ := Option.bind_eq_some_iff.mp hx
    cases hx
    exact .of_singleton rfl rfl (accepts_option (by decide) hs hc)
  | showIcon =>
    obtain rfl := Option.some.inj hd
    obtain ⟨_, -, hx⟩ := Option.bind_eq_some_iff.mp hx
    obtain ⟨_, hicon, hx⟩ := Option.bind_eq_some_iff.mp hx
    cases hx
    exact .of_singleton rfl rfl ((Option.guard_eq_some' _).mp hicon)
  | variablesGet =>
    obtain rfl := Option.some.inj hd
    obtain ⟨_, -, hx⟩ := Option.bind_eq_some_iff.mp hx
    obtain ⟨_, hname, hx⟩ := Option.bind_eq_some_iff.mp hx
    cases hx
    exact .of_singleton rfl rfl (accepts_identifier ((Option.guard_eq_some' _).mp hname))
  | mathNumber =>
    obtain rfl := Option.some.inj hd
    obtain ⟨_, -, hx⟩ := Option.bind_eq_some_iff.mp hx
    obtain ⟨_, -, hx⟩ := Option.bind_eq_some_iff.mp hx
    obtain ⟨_, hfinite, hx⟩ := Option.bind_eq_some_iff.mp hx
    cases hx
    exact .of_singleton rfl rfl ((Option.guard_eq_some' _).mp hfinite)
  | setVariable | changeVariable =>
    obtain rfl := Option.some.inj hd
    obtain ⟨_, -, hx⟩ := Option.bind_eq_some_iff.mp hx
    obtain ⟨_, -, hx⟩ := Option.bind_eq_some_iff.mp hx
    obtain ⟨_, hname, hx⟩ := Option.bind_eq_some_iff.mp hx
    cases hx
    exact .of_singleton rfl rfl (accepts_identifier ((Option.guard_eq_some' _).mp hname))
  | logicCompare | logicOperation | mathArithmetic =>
    obtain rfl := Option.some.inj hd
    obtain ⟨_, -, hx⟩ := Option.bind_eq_some_iff.mp hx
    obtain ⟨_, -, hx⟩ := Option.bind_eq_some_iff.mp hx
    obtain ⟨_, -, hx⟩ := Option.bind_eq_some_iff.mp hx
    obtain ⟨_, hsign, hx⟩ := Option.bind_eq_some_iff.mp hx
    cases hx
    exact .of_singleton rfl rfl (accepts_operator hsign)
  | onButtonPressed | onGesture =>
    obtain rfl := Option.some.inj hd
    obtain ⟨_, -, hx⟩ := Option.bind_eq_some_iff.mp hx
    obtain ⟨_, -, hx⟩ := Option.bind_eq_some_iff.mp hx
    obtain ⟨_, -, hx⟩ := Option.bind_eq_some_iff.mp hx
    obtain ⟨_, hchoice, hx⟩ := Option.bind_eq_some_iff.mp hx
    obtain ⟨_, -, hx⟩ := Option.bind_eq_some_iff.mp hx
    cases hx
    exact .of_singleton rfl rfl ((Option.guard_eq_some' _).mp hchoice)

end Catalogue

/-- The node of a block that was recognized is made, and it has what was extracted: the mutation,
the fields, and each input, still empty. -/
theorem make_of_recover {k : Kind} {cs matched : List Char} {e : Extraction} {b : Blueprint}
    {w : Workspace} {loose : List NodeId} (ht : Tidy .builtin w loose)
    (h : k.definition.recover cs = some (e, b, matched)) :
    ∃ v n, w.make .builtin b = (v, .ok w.nextId) ∧ v.get? w.nextId = some n ∧ n.kind = k ∧
      n.mutation = e.mutation ∧ (∀ f ∈ e.fields, n.field? f.1 = some f.2) ∧
      (∀ s ∈ e.values, ∃ default, n.slot? s.1 = some (.value none default)) ∧
      ∀ i ∈ e.bodies, n.slot? i = some (.statements []) := by
  have hfills := k.fills_of_recover h
  obtain ⟨idiom, extractor, c, rest, hi, he, hs, hx, rfl, -, -⟩ := k.recover_some h
  have haccepted := accepted_of_extract hi he hs hx
  obtain ⟨fields, hfields, hput, -⟩ := fillFields_ok w.nextId (defaultFields k.definition.shape)
    haccepted.nodup haccepted.accepts
  obtain ⟨v, hmake, hgrowing⟩ := growing_make
    (b := ⟨k, fields, e.mutation, fun _ => .absent, fun _ => .done⟩) ht hfields hfills.mutation
  obtain ⟨n, hn, hkind, hnfields, hmutation, -, hblank, -⟩ := hgrowing.node
  refine ⟨v, n, hmake, hn, hkind, hmutation, fun f hf => ?_, fun s hs => ?_, fun i hi => ?_⟩
  · rw [Node.field?, hnfields]
    exact hput f hf
  · have hvalue : s.1 ∈ k.definition.shape.valueInputs e.mutation :=
      hfills.values ▸ List.mem_map_of_mem hs
    obtain ⟨default, hslot, -⟩ := (hblank s.1 (List.mem_append_left _ hvalue)).value hvalue
    exact ⟨default, hslot⟩
  · have hbody : i ∈ k.definition.shape.statementInputs e.mutation := hfills.bodies ▸ hi
    exact (hblank i (List.mem_append_right _ hbody)).body hbody

/-! ## Failures that are not about places -/

namespace Program

/-- A step of reading that does not fail because of a place. -/
def Placed {α : Type} (result : Except Failure α) : Prop :=
  ∀ f cause, result = .error f → f.reason ≠ .misplaced cause

variable {α β : Type}

theorem placed_ok (a : α) : Placed (.ok a : Except Failure α) := by
  intro f cause h
  cases h

theorem placed_error {f : Failure} (h : ∀ cause, f.reason ≠ .misplaced cause) :
    Placed (.error f : Except Failure α) := by
  intro f' cause he
  cases he
  exact h cause

theorem Placed.bind {x : Except Failure α} {f : α → Except Failure β} (hx : Placed x)
    (hf : ∀ a, x = .ok a → Placed (f a)) : Placed (x >>= f) := by
  intro e cause h
  cases x with
  | error e' =>
    apply hx e cause
    cases h
    rfl
  | ok a => exact hf a rfl e cause h

/-- An item that no idiom fits is no matter of places. -/
theorem placed_unmatched (item : Item) : Placed (.error (unmatched item) : Except Failure α) := by
  apply placed_error
  intro cause
  unfold unmatched
  dsimp only
  split <;> simp

/-! ### Outlines -/

namespace Outline

theorem placed_addSource (ls : Levels) (raw : List Char) (number : Nat) :
    Placed (addSource ls raw number) := by
  unfold addSource
  split
  · exact placed_ok _
  · split
    · exact placed_error (by simp)
    · dsimp only
      split
      · exact placed_error (by simp)
      · split
        · exact placed_ok _
        · next reason hline =>
          apply placed_error
          intro cause hreason
          obtain rfl : reason = .misplaced cause := hreason
          -- a line is refused for its width alone
          unfold addLine at hline
          split at hline
          · split at hline <;> cases hline
          · dsimp only at hline
            split at hline <;> cases hline

theorem placed_addSources (raws : List (List Char)) (number : Nat) (ls : Levels) :
    Placed (addSources raws number ls) := by
  induction raws generalizing number ls with
  | nil => exact placed_ok ls
  | cons raw raws ih =>
    rw [addSources]
    split
    · next ls' _ => exact ih (number + 1) ls'
    · next f hsource =>
      intro f' cause he
      cases he
      exact placed_addSource ls raw number f cause hsource

theorem placed_ofSource (source : List Char) : Placed (ofSource source) := by
  unfold ofSource
  split
  · exact placed_ok _
  · next f hsources =>
    intro f' cause he
    cases he
    exact placed_addSources _ _ _ f cause hsources

end Outline

end Program

/-! ### Inputs -/

namespace Growing

variable {b : Draft} {w v : Workspace} {loose : List NodeId} {lo : NodeId} {pending : List String}

/-- Sources that are read without misplacing anything are all attached, or one cannot be read. -/
theorem placed_attachAll
    {read : Nat → List Char → Workspace → Except Failure (Workspace × NodeId)}
    {lineOf : List Char → Nat} {P : List Char → Expr → Prop} {sources : List (String × List Char)}
    (hplaced : ∀ line source u ls, Tidy .builtin u ls → Placed (read line source u))
    (hread : ∀ line source u ls u' x, Tidy .builtin u ls → read line source u = .ok (u', x) →
      x = u.nextId ∧ ∃ e : Expr, P source e ∧ e.Valued ∧ e.Reads u ls u')
    (h : Growing b w loose lo (sources.map (·.1) ++ pending) v)
    (hnd : (sources.map (·.1) ++ pending).Nodup)
    (hvalues : ∀ i ∈ sources.map (·.1), i ∈ b.values) :
    Placed (Program.attachAll read lineOf w.nextId sources v) := by
  induction sources generalizing b v with
  | nil => exact placed_ok v
  | cons s sources ih =>
    rw [List.map_cons, List.cons_append, List.nodup_cons] at hnd
    rw [List.map_cons, List.forall_mem_cons] at hvalues
    rw [Program.attachAll]
    apply (hplaced _ _ _ _ h.tidy).bind
    rintro ⟨v₁, x⟩ hr
    obtain ⟨rfl, e, -, hvalued, hreads⟩ := hread _ _ _ _ _ _ h.tidy hr
    obtain ⟨u, hattach, hgrowing⟩ :=
      h.attach_value hnd.1 hvalues.1 hvalued hreads (lineOf s.2) s.2
    simp only [hattach]
    exact ih hgrowing hnd.2 hvalues.2

/-- Blocks that are read without misplacing anything are all attached, or one cannot be read. -/
theorem placed_attachBodies
    {readBlock : List Item → Workspace → Except Failure (Workspace × List NodeId)}
    {line : Nat} {text : List Char} {P : List Item → Script → Prop} {inputs : List String}
    {inners : List (List Item)}
    (hplaced : ∀ inner ∈ inners, ∀ u ls, Tidy .builtin u ls → Placed (readBlock inner u))
    (hread : ∀ inner ∈ inners, ∀ u ls u' ids, Tidy .builtin u ls →
      readBlock inner u = .ok (u', ids) →
      ∃ t : Script, P inner t ∧ t.Ranked false ∧ t.Reads u ls u' ids)
    (h : Growing b w loose lo (inputs ++ pending) v) (hnd : (inputs ++ pending).Nodup)
    (hbodies : ∀ i ∈ inputs, i ∈ b.bodies) :
    Placed (Program.attachBodies readBlock line text w.nextId (inputs.zip inners) v) := by
  induction inputs generalizing b v inners with
  | nil => exact placed_ok v
  | cons input inputs ih =>
    cases inners with
    | nil => exact placed_ok v
    | cons inner inners =>
      rw [List.cons_append, List.nodup_cons] at hnd
      rw [List.forall_mem_cons] at hbodies hread hplaced
      rw [List.zip_cons_cons, Program.attachBodies]
      apply (hplaced.1 _ _ h.tidy).bind
      rintro ⟨v₁, children⟩ hr
      obtain ⟨t, -, hranked, hreads⟩ := hread.1 _ _ _ _ h.tidy hr
      obtain ⟨u, hattach, hgrowing⟩ := h.attach_body hnd.1 hbodies.1 hranked hreads line text
      simp only [hattach]
      exact ih hplaced.2 hread.2 hgrowing hnd.2 hbodies.2

end Growing

namespace Program

variable {w : Workspace} {loose : List NodeId}

/-! ### Expressions and units -/

theorem placed_readExpressionUpTo (depth line : Nat) (source : List Char)
    (ht : Tidy .builtin w loose) : Placed (readExpressionUpTo .builtin depth line source w) := by
  induction depth generalizing line source w loose with
  | zero => exact placed_error (by simp)
  | succ depth ih =>
    rw [readExpressionUpTo]
    split
    · exact placed_error (by simp)
    · next e b matched hfound =>
      obtain ⟨d, hd, hrecover⟩ := List.exists_of_findSome?_eq_some hfound
      obtain ⟨k, rfl⟩ := Registry.selected_builtin.exists_kind (List.mem_of_mem_filter hd)
      obtain ⟨v, n, hmake, -⟩ := make_of_recover ht hrecover
      obtain ⟨-, hnd, fields, -, hgrow⟩ := growing_of_make ht hrecover hmake
      have hfills := k.fills_of_recover hrecover
      simp only [hmake]
      refine Placed.bind ?_ fun u _ => placed_ok (u, w.nextId)
      apply (hgrow (fun _ => .absent) fun _ => .done).placed_attachAll
        (fun line source u ls hu => ih line source hu)
        (fun _ _ _ _ _ _ hu hok => Expr.of_read Registry.selected_builtin hu hok) hnd
      intro i hi
      rwa [hfills.values] at hi

/-- A unit that was matched is made with all its parts, or one of them cannot be read. -/
theorem placed_readUnit {k : Kind} {m : Match} {cs matched : List Char}
    {readBlock : List Item → Workspace → Except Failure (Workspace × List NodeId)}
    {P : List Item → Script → Prop} (ht : Tidy .builtin w loose)
    (hr : k.definition.recover cs = some (m.extraction, m.blueprint, matched))
    (hplaced : ∀ inner ∈ blocks m.covered, ∀ u ls, Tidy .builtin u ls → Placed (readBlock inner u))
    (hread : ∀ inner ∈ blocks m.covered, ∀ u ls u' ids, Tidy .builtin u ls →
      readBlock inner u = .ok (u', ids) →
      ∃ t : Script, P inner t ∧ t.Ranked false ∧ t.Reads u ls u' ids) :
    Placed (readUnit .builtin readBlock m w) := by
  obtain ⟨v, n, hmake, -⟩ := make_of_recover ht hr
  obtain ⟨-, hnd, fields, -, hgrow⟩ := growing_of_make ht hr hmake
  have hfills := k.fills_of_recover hr
  have hgrowing := hgrow (fun _ => .absent) fun _ => .done
  have hvalues : ∀ i ∈ m.extraction.values.map (·.1),
      i ∈ k.definition.shape.valueInputs m.extraction.mutation := by
    intro i hi
    rwa [hfills.values] at hi
  unfold readUnit
  simp only [hmake]
  apply Placed.bind
  · exact hgrowing.placed_attachAll
      (fun line source _ _ hu => placed_readExpressionUpTo _ line source hu)
      (fun _ _ _ _ _ _ hu hok => Expr.of_read Registry.selected_builtin hu hok) hnd hvalues
  · intro u hattached
    refine Placed.bind ?_ fun u' _ => placed_ok (u', w.nextId)
    obtain ⟨value, -, -, hfilled⟩ := hgrowing.of_attachAll
      (fun _ _ _ _ _ _ hu hok => Expr.of_read Registry.selected_builtin hu hok) hnd hvalues
      hattached
    replace hnd := (List.nodup_append'.mp hnd).2.1
    rw [← List.append_nil m.extraction.bodies] at hfilled hnd
    apply hfilled.placed_attachBodies hplaced hread hnd
    intro i hi
    rwa [hfills.bodies] at hi

/-! ### Levels -/

theorem placed_readUnits {top : Bool} {bound : Nat} {items : List Item}
    {readBlock : List Item → Workspace → Except Failure (Workspace × List NodeId)}
    {P : List Item → Script → Prop} (hclean : ∀ l ∈ Item.linesAll items, '\n' ∉ l)
    (hplaced : ∀ inner ∈ blocks items, ∀ u ls, Tidy .builtin u ls → Placed (readBlock inner u))
    (hread : ∀ inner ∈ blocks items, ∀ u ls u' ids, Tidy .builtin u ls →
      readBlock inner u = .ok (u', ids) →
      ∃ t : Script, P inner t ∧ t.Ranked false ∧ t.Reads u ls u' ids)
    (ht : Tidy .builtin w loose) : Placed (readUnits .builtin top readBlock bound items w) := by
  induction bound generalizing items w loose with
  | zero =>
    cases items with
    | nil => exact placed_ok _
    | cons item items => exact placed_unmatched item
  | succ bound ih =>
    cases items with
    | nil => exact placed_ok _
    | cons item items =>
      rw [readUnits]
      split
      · exact placed_unmatched item
      · next m hmatch =>
        obtain ⟨k, hrole, hrecover, hlength, rest, hitems⟩ :=
          matchUnit_some Registry.selected_builtin hclean hmatch
        rw [← hitems] at hclean hread hplaced hrecover ⊢
        rw [Item.linesAll_append, List.forall_mem_append] at hclean
        rw [blocks_append, List.forall_mem_append] at hread hplaced
        apply (placed_readUnit ht hrecover hplaced.1 hread.1).bind
        rintro ⟨u, x⟩ hunit
        obtain ⟨-, _, _, _, _, -, -, -, hgrowing⟩ :=
          Growing.of_readUnit Registry.selected_builtin ht hrecover hlength hread.1 hunit
        simp only [List.drop_left]
        refine Placed.bind ?_ fun p _ => placed_ok _
        exact ih hclean.2 hplaced.2 hread.2 hgrowing.tidy

theorem placed_readLevel {o : Options} {top : Bool} {depth : Nat} {items : List Item}
    (hclean : ∀ l ∈ Item.linesAll items, '\n' ∉ l) (hdepth : Item.heightAll items ≤ depth)
    (ht : Tidy .builtin w loose) : Placed (readLevel .builtin o depth top items w) := by
  have hlevel : ∀ l ∈ Item.linesAll (level o items), '\n' ∉ l := by
    intro l hl
    exact hclean l (Item.mem_lines_of_mem_level hl)
  have hle := heightAll_level_le o items
  induction depth generalizing top items w loose with
  | zero =>
    rw [readLevel_eq]
    apply placed_readUnits (P := fun _ _ => True) hlevel _ _ ht
    -- nothing is nested here
    all_goals
      intro inner hinner
      have hlt := heightAll_lt_of_mem_blocks hinner
      omega
  | succ depth ih =>
    rw [readLevel_eq]
    have hinside : ∀ inner ∈ blocks (level o items), (∀ l ∈ Item.linesAll inner, '\n' ∉ l) ∧
        Item.heightAll inner ≤ depth := by
      intro inner hinner
      refine ⟨fun l hl => hlevel l (Item.mem_lines_of_mem_blocks hinner hl), ?_⟩
      have hlt := heightAll_lt_of_mem_blocks hinner
      omega
    apply placed_readUnits (P := fun inner t => t.SpelledBy o false (level o inner)) hlevel _ _ ht
    · intro inner hinner u ls hu
      obtain ⟨hlines, hheight⟩ := hinside inner hinner
      exact ih hlines hheight hu (fun l hl => hlines l (Item.mem_lines_of_mem_level hl))
        (heightAll_level_le o inner)
    · intro inner hinner u ls u' ids hu hok
      obtain ⟨hlines, hheight⟩ := hinside inner hinner
      obtain ⟨t, hspelled, hreads⟩ :=
        Script.of_readLevel Registry.selected_builtin hlines hheight hu hok
      exact ⟨t, hspelled, hspelled.ranked, hreads⟩

/-! ## Programs -/

/-- With the built-in registry no program is refused because of a place, whatever the rules and the
layout options are. For what an idiom recovers from any text has a place: in every tidy workspace
the block is made with the fields and the mutation that were extracted, and with an empty input for
each of the parts. -/
theorem read_never_misplaced (rules : Rules) (options : Options) :
    (∀ source f cause, read ⟨.builtin, rules, options⟩ source = .error f →
      f.reason ≠ .misplaced cause) ∧
    ∀ (k : Kind) cs e b matched w loose, k.definition.recover cs = some (e, b, matched) →
      Tidy .builtin w loose →
      ∃ v n, w.make .builtin b = (v, .ok w.nextId) ∧ v.get? w.nextId = some n ∧ n.kind = k ∧
        n.mutation = e.mutation ∧ (∀ f ∈ e.fields, n.field? f.1 = some f.2) ∧
        (∀ s ∈ e.values, ∃ default, n.slot? s.1 = some (.value none default)) ∧
        ∀ i ∈ e.bodies, n.slot? i = some (.statements []) := by
  refine ⟨fun source => ?_, fun k cs e b matched w loose hr ht => make_of_recover ht hr⟩
  show Placed (readChars ⟨.builtin, rules, options⟩ source.toList)
  apply (Outline.placed_ofSource source.toList).bind
  intro items hitems
  have hclean := (Outline.linesAll_ofSource hitems).2
  refine Placed.bind ?_ fun w _ => placed_ok _
  have hlevel : Placed (readLevel .builtin options (Item.heightAll items) true items {}) :=
    placed_readLevel hclean (Nat.le_refl _) Tidy.empty
  unfold build
  dsimp only
  split
  · exact placed_ok _
  · next f hf =>
    intro f' cause he
    cases he
    exact hlevel f cause hf

/-- An operand that is missing is refused as an expression, and the longest option of an idiom is
one of the choices of its field. -/
theorem read_never_misplaced_operand :
    (∃ f, read {} "basic.pause((1 + ))\n" = .error f ∧ ∀ cause, f.reason ≠ .misplaced cause) ∧
    ∃ e b matched v n, Kind.acceleration.definition.recover
        "input.acceleration(Dimension.STRENGTH)".toList = some (e, b, matched) ∧
      Workspace.make {} .builtin b = (v, .ok 0) ∧ v.get? 0 = some n ∧
      n.field? "DIMENSION" = some (.choice "STRENGTH") := by
  obtain ⟨hread, hmake⟩ := read_never_misplaced .standard {}
  constructor
  · cases hr : read {} "basic.pause((1 + ))\n" with
    | ok reading =>
      have hok : (read {} "basic.pause((1 + ))\n").isOk = false := by decide +kernel
      rw [hr] at hok
      cases hok
    | error f => exact ⟨f, rfl, fun cause => hread _ f cause hr⟩
  · have hr : (Kind.acceleration.definition.recover
        "input.acceleration(Dimension.STRENGTH)".toList).map (·.1.fields) =
          some [("DIMENSION", .choice "STRENGTH")] := by decide +kernel
    obtain ⟨⟨e, b, matched⟩, hrecover, hfields⟩ := Option.map_eq_some_iff.mp hr
    obtain ⟨v, n, hv, hn, -, -, hput, -, -⟩ := hmake _ _ e b matched {} [] hrecover Tidy.empty
    refine ⟨e, b, matched, v, n, hrecover, hv, hn, hput ("DIMENSION", .choice "STRENGTH") ?_⟩
    rw [show e.fields = _ from hfields]
    exact List.mem_singleton.mpr rfl

end Program

end BlockText

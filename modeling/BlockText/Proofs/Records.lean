import BlockText.Document
import BlockText.Proofs.JsonText
import BlockText.Proofs.Numeral
import Mathlib.Data.List.Nodup

/-!
# Documents as JSON

A document is written as a value that can be printed, and the value is read as the document. Each
part of a document brings both facts with it, from the ids and the field values up to the whole. They
need what the reader asks for: ids of 32 bits, counts that fit into a word, and numbers that the
reader takes for what they are.
-/

namespace BlockText

open Json (Printable)

/-! ## Numerals -/

theorem Decimal.head_digits {n : Nat} (h : 0 < n) : (digits n).head? ≠ some '0' := by
  induction n using Nat.strongRecOn with
  | ind n ih =>
    by_cases hlt : n < 10
    · have hone : ∀ k < 10, 0 < k → [Nat.digitChar k].head? ≠ some '0' := by decide
      rw [digits, Nat.toDigits_of_lt_base hlt]
      exact hone n hlt h
    · have hle : 10 ≤ n := Nat.le_of_not_lt hlt
      rw [digits, Nat.toDigits_of_base_le (by decide) hle,
        List.head?_append_of_ne_nil _ Nat.toDigits_ne_nil]
      exact ih (n / 10) (by omega) (by omega)

theorem Numeral.digits?_of_all {ds : List Char} (hne : ds ≠ [])
    (h : ∀ c ∈ ds, c.isDigit = true) : digits? ds = some (ds, []) := by
  have htake := Text.takeWhile_run h Text.stops_nil
  have hdrop := Text.dropWhile_run h Text.stops_nil
  rw [List.append_nil] at htake hdrop
  obtain ⟨d, ds, rfl⟩ := List.exists_cons_of_ne_nil hne
  rw [digits?, htake, hdrop]

theorem Numeral.whole?_of_all {ds : List Char} (hne : ds ≠ []) (h : ∀ c ∈ ds, c.isDigit = true)
    (hzero : ds.head? ≠ some '0') : whole? ds = some (ds, []) := by
  rw [whole?, digits?_of_all hne h]
  rcases ds with - | ⟨d, - | ⟨e, ds⟩⟩
  · rfl
  · rfl
  · exact if_neg fun hd => hzero (congrArg some hd)

/-- The digits of a natural number are a numeral. -/
theorem Numeral.ofLiteral?_digits (n : Nat) :
    ofLiteral? (Decimal.digits n) = some ⟨false, Decimal.digits n, [], none⟩ := by
  have hdigit : ∀ c ∈ Decimal.digits n, c.isDigit = true := fun c hc => Decimal.isDigit_digits hc
  have hsign : (Decimal.digits n).head? ≠ some '-' := by
    intro hhead
    exact absurd (hdigit '-' (List.mem_of_mem_head? hhead)) (by decide)
  have hwhole : whole? (Decimal.digits n) = some (Decimal.digits n, []) := by
    rcases Nat.eq_zero_or_pos n with rfl | hn
    · rfl
    · exact whole?_of_all Nat.toDigits_ne_nil hdigit (Decimal.head_digits hn)
  rw [ofLiteral?_eq_some, scan]
  simp [hsign, hwhole, fraction?, exponent?]

/-! ## Values that are printed and read -/

/-- A value that can be printed and read, and that is read as something. -/
structure Json.Denotes {α : Type} (read : Json → Option α) (j : Json) (a : α) : Prop where
  printable : Printable j
  reads : read j = some a

namespace Json

variable {α : Type} {read : Json → Option α} {write : α → Json}

theorem denotes_text (s : String) : Denotes string? (.text s) s := ⟨.text s, rfl⟩

theorem denotes_bool (b : Bool) : Denotes bool? (.bool b) b := ⟨.bool b, rfl⟩

theorem mapM_map {β : Type} {read : β → Option α} {write : α → β} {as : List α}
    (h : ∀ a ∈ as, read (write a) = some a) : (as.map write).mapM read = some as := by
  induction as with
  | nil => rfl
  | cons a as ih =>
    rw [List.forall_mem_cons] at h
    simp [h.1, ih h.2]

theorem denotes_list (as : List α) (h : ∀ a ∈ as, Denotes read (write a) a) :
    Denotes (list? read) (.list (as.map write)) as where
  printable := by
    refine .list fun j hj => ?_
    obtain ⟨a, ha, rfl⟩ := List.mem_map.mp hj
    exact (h a ha).printable
  reads := mapM_map fun a ha => (h a ha).reads

theorem member?_of_mem {members : List (String × Json)} (h : (members.map (·.1)).Nodup)
    {m : String × Json} (hm : m ∈ members) :
    member? (members.map fun m => (some m.1, m.2)) m.1 = some m.2 := by
  induction members with
  | nil => cases hm
  | cons k members ih =>
    rw [List.map_cons, List.nodup_cons] at h
    rcases List.mem_cons.mp hm with rfl | hm
    · simp [member?]
    · have hne : k.1 ≠ m.1 := fun he => h.1 (he ▸ List.mem_map_of_mem hm)
      have hrest := ih h.2 hm
      simpa [member?, hne] using hrest

theorem printable_record {members : List (String × Json)}
    (h : members.Forall fun m => Printable m.2) : Printable (.record members) :=
  .record (List.forall_iff_forall_mem.mp h)

/-- A record has the fields that it was made of. -/
theorem fields?_record (members : List (String × Json)) (h : (members.map (·.1)).Nodup)
    (least : Nat) :
    fields? (members.map (·.1)) least (.record members) = some (members.map fun m => some m.2) := by
  have hkeys : (members.map fun m => (some m.1, m.2)).map (·.1) = (members.map (·.1)).map some := by
    simp
  have hsome : ((members.map (·.1)).map some).all Option.isSome = true := by simp
  have honce : ((members.map (·.1)).all fun n => ((members.map (·.1)).map some).count (some n) ≤ 1) =
      true := by
    rw [List.all_eq_true]
    intro n _
    rw [decide_eq_true_iff]
    exact List.nodup_iff_count_le_one.mp (h.map (Option.some_injective _)) _
  rw [record, fields?, hkeys, hsome, honce, List.map_map]
  refine congrArg some (List.map_congr_left fun m hm => ?_)
  exact member?_of_mem h hm

end Json

open Json (Denotes)

/-! ## What can be written -/

/-- A number that is finite and whose numeral is read as the number. The reader rounds the digits
and the power of ten each on its own, so there are finite numbers that it takes for another one.
Other values are read back in any case. -/
def FieldValue.Legible : FieldValue → Prop
  | .number a => a.isFinite = true ∧ Document.double? (.number a.documentText) = some a
  | _ => True

instance : DecidablePred FieldValue.Legible
  | .number _ => inferInstanceAs (Decidable (_ ∧ _))
  | .text _ => isTrue trivial
  | .choice _ => isTrue trivial
  | .bool _ => isTrue trivial
  | .bitmap _ => isTrue trivial
  | .var _ => isTrue trivial

example : (FieldValue.number (.ofRatio false 1 10)).Legible := by decide +kernel

example : ¬ (FieldValue.number (.ofRatio false 1 (Nat.pow 10 23))).Legible := by decide +kernel

/-- What is written of a node can be read: its ids fit into 32 bits, its numbers are legible and the
count of its mutation fits into a word. -/
structure Node.Portable (n : Node) : Prop where
  id : n.id < NodeId.limit
  parent : ∀ p ∈ n.parent, p < NodeId.limit
  owned : ∀ x ∈ n.owned, x < NodeId.limit
  fields : ∀ name value, n.fields.get? name = some value → value.Legible
  mutation : ∀ m ∈ n.mutation, m.elseIfs < Numeral.limit

namespace Document

/-! ## Values of fields -/

/-- A value that is written, or null. -/
theorem denotes_option {α : Type} {read : Json → Option α} {write : α → Json} {o : Option α}
    (h : ∀ a ∈ o, Denotes read (write a) a) (hnull : ∀ a, write a ≠ .null) :
    Denotes (fun j => Json.optional? read (some j)) (optionJson write o) o := by
  cases o with
  | none => exact ⟨.null, rfl⟩
  | some a =>
    obtain ⟨hp, hr⟩ := h a rfl
    refine ⟨hp, ?_⟩
    show Json.optional? read (some (write a)) = _
    unfold Json.optional?
    split
    · next he => cases he
    · next he => exact absurd (Option.some.inj he) (hnull a)
    · next he =>
      cases he
      rw [hr]
      rfl

theorem denotes_nat {n : Nat} (h : n < Numeral.limit) :
    Denotes nat? (.number (Decimal.digits n)) n where
  printable := .number (Numeral.ofLiteral?_digits n)
  reads := by
    rw [nat?, Numeral.ofLiteral?_digits, Option.bind_some]
    simp [Numeral.nat?, Decimal.ofDigits_digits, h]

theorem denotes_id {x : NodeId} (h : x < NodeId.limit) : Denotes id? (idJson x) x where
  printable := .number (Numeral.ofLiteral?_digits x)
  reads := by
    have hlimit : x < Numeral.limit := Nat.lt_trans h (by decide)
    rw [id?, idJson, (denotes_nat hlimit).reads]
    simpa using h

theorem denotes_double {a : Double} (h : (FieldValue.number a).Legible) :
    Denotes double? (doubleJson a) a := by
  have hjson : doubleJson a = .number a.documentText := if_pos h.1
  rw [hjson]
  obtain ⟨m, hm, -⟩ := Option.bind_eq_some_iff.mp h.2
  exact ⟨.number hm, h.2⟩

theorem denotes_bitmap (b : Bitmap) :
    Denotes bitmap? (.list (b.val.map fun row => .list (row.map .bool))) b := by
  have hrows := Json.denotes_list b.val fun row _ =>
    Json.denotes_list row fun cell _ => Json.denotes_bool cell
  refine ⟨hrows.printable, ?_⟩
  rw [bitmap?, hrows.reads, Option.bind_some, Bitmap.ofRows?, dif_pos b.property]

theorem fields?_tagged (type : String) (content : Json) :
    (Json.record [("type", .text type), ("value", content)]).fields? ["type", "value"] 2 =
      some [some (.text type), some content] :=
  Json.fields?_record [("type", .text type), ("value", content)] (by simp) 2

theorem printable_tagged {type : String} {content : Json} (h : Printable content) :
    Printable (.record [("type", .text type), ("value", content)]) :=
  Json.printable_record ⟨.text type, h⟩

theorem denotes_field {value : FieldValue} (h : value.Legible) :
    Denotes field? (fieldJson value) value := by
  cases value with
  | number a =>
    obtain ⟨hp, hr⟩ := denotes_double h
    refine ⟨printable_tagged hp, ?_⟩
    rw [fieldJson, field?, fields?_tagged]
    show (double? (doubleJson a)).map FieldValue.number = _
    rw [hr, Option.map_some]
  | text s =>
    refine ⟨printable_tagged (.text s), ?_⟩
    rw [fieldJson, field?, fields?_tagged]
    rfl
  | choice s =>
    refine ⟨printable_tagged (.text s), ?_⟩
    rw [fieldJson, field?, fields?_tagged]
    rfl
  | bool b =>
    refine ⟨printable_tagged (.bool b), ?_⟩
    rw [fieldJson, field?, fields?_tagged]
    rfl
  | bitmap b =>
    obtain ⟨hp, hr⟩ := denotes_bitmap b
    refine ⟨printable_tagged hp, ?_⟩
    rw [fieldJson, field?, fields?_tagged]
    show (bitmap? _).map FieldValue.bitmap = _
    rw [hr, Option.map_some]
  | var s =>
    refine ⟨printable_tagged (.text s), ?_⟩
    rw [fieldJson, field?, fields?_tagged]
    rfl

/-! ## Nodes and documents -/

theorem denotes_optional_id {o : Option NodeId} (h : ∀ x ∈ o, x < NodeId.limit) :
    Denotes (fun j => Json.optional? id? (some j)) (optionJson idJson o) o :=
  denotes_option (fun x hx => denotes_id (h x hx)) fun _ => by simp [idJson]

theorem denotes_slot {slot : Slot} (h : ∀ x ∈ slot.owned, x < NodeId.limit) :
    Denotes slot? (slotJson slot) slot := by
  cases slot with
  | value child shadow =>
    rw [Slot.owned, List.forall_mem_append] at h
    obtain ⟨hpc, hrc⟩ := denotes_optional_id fun x hx => h.1 x (Option.mem_toList.mpr hx)
    obtain ⟨hps, hrs⟩ := denotes_optional_id fun x hx => h.2 x (Option.mem_toList.mpr hx)
    have hfields : (Json.record _).fields? ["child", "shadow"] 2 = _ := Json.fields?_record
      [("child", optionJson idJson child), ("shadow", optionJson idJson shadow)] (by simp) 2
    refine ⟨Json.printable_record (Json.printable_record ⟨hpc, hps⟩), ?_⟩
    simp only [slotJson, Json.record, List.map_cons, List.map_nil, slot?] at hfields ⊢
    simp only [hfields, hrc, hrs]
    rfl
  | statements children =>
    obtain ⟨hp, hr⟩ := Json.denotes_list children fun x hx => denotes_id (h x hx)
    refine ⟨Json.printable_record hp, ?_⟩
    show (Json.list? id? (.list (children.map idJson))).map Slot.statements = _
    rw [hr, Option.map_some]

theorem denotes_input {i : Input} (h : ∀ x ∈ i.slot.owned, x < NodeId.limit) :
    Denotes input? (inputJson i) i := by
  obtain ⟨hp, hr⟩ := denotes_slot h
  have hfields : (inputJson i).fields? ["name", "slot"] 2 = _ :=
    Json.fields?_record [("name", .text i.name), ("slot", slotJson i.slot)] (by simp) 2
  refine ⟨Json.printable_record ⟨.text i.name, hp⟩, ?_⟩
  rw [input?, hfields]
  simp only [List.map_cons, List.map_nil, (Json.denotes_text i.name).reads, hr]
  rfl

theorem denotes_mutation {m : Mutation} (h : m.elseIfs < Numeral.limit) :
    Denotes mutation? (mutationJson m) m := by
  obtain ⟨hp, hr⟩ := denotes_nat h
  have hfields : (mutationJson m).fields? ["elseif_count", "has_else"] 2 = _ :=
    Json.fields?_record [("elseif_count", .number (Decimal.digits m.elseIfs)),
      ("has_else", .bool m.hasElse)] (by simp) 2
  refine ⟨Json.printable_record ⟨hp, .bool m.hasElse⟩, ?_⟩
  rw [mutation?, hfields]
  simp only [List.map_cons, List.map_nil, (Json.denotes_bool m.hasElse).reads, hr]
  rfl

theorem denotes_disabled (d : Disabled) : Denotes disabled? (.text d.name) d := by
  refine ⟨.text d.name, ?_⟩
  cases d <;> rfl

theorem denotes_fields {fields : SortedMap String FieldValue}
    (h : ∀ name value, fields.get? name = some value → value.Legible) :
    Denotes fieldsOf? (.record (fields.entries.map fun f => (f.1, fieldJson f.2))) fields := by
  have hfield : ∀ f ∈ fields.entries, Denotes field? (fieldJson f.2) f.2 := by
    intro f hf
    exact denotes_field (h f.1 f.2 (SortedMap.mem_entries.mp hf))
  constructor
  · refine .record fun m hm => ?_
    obtain ⟨f, hf, rfl⟩ := List.mem_map.mp hm
    exact (hfield f hf).printable
  · have hmembers : ((fields.entries.map fun f => (f.1, fieldJson f.2)).map
        fun m => (some m.1, m.2)).mapM member? = some fields.entries := by
      rw [List.map_map]
      refine Json.mapM_map fun f hf => ?_
      show (field? (fieldJson f.2)).map (fun value => (f.1, value)) = _
      rw [(hfield f hf).reads]
      rfl
    rw [Json.record, fieldsOf?, hmembers, Option.map_some, SortedMap.ofList_entries]

theorem denotes_kind (k : Kind) :
    Denotes (fun j => j.name?.bind Kind.ofName?) (.text k.name) k := by
  refine ⟨.text k.name, ?_⟩
  cases k <;> rfl

theorem denotes_node {n : Node} (h : n.Portable) : Denotes node? (nodeJson n) n := by
  have hid := denotes_id h.id
  have hkind := denotes_kind n.kind
  have hfields := denotes_fields h.fields
  have hinputs := Json.denotes_list n.inputs fun i hi =>
    denotes_input fun x hx => h.owned x (List.mem_flatMap.mpr ⟨i, hi, hx⟩)
  have hparent := denotes_optional_id h.parent
  have hshadow := Json.denotes_bool n.shadow
  have hdisabled : Denotes (fun j => Json.optional? disabled? (some j))
      (optionJson (fun d => .text d.name) n.disabled) n.disabled :=
    denotes_option (fun d _ => denotes_disabled d) fun _ => by simp [Json.text]
  have hmutation : Denotes (fun j => Json.optional? mutation? (some j))
      (optionJson mutationJson n.mutation) n.mutation :=
    denotes_option (fun m hm => denotes_mutation (h.mutation m hm)) fun _ => by
      simp [mutationJson, Json.record]
  constructor
  · exact Json.printable_record ⟨hid.printable, hkind.printable, hfields.printable,
      hinputs.printable, hparent.printable, hshadow.printable, hdisabled.printable,
      hmutation.printable⟩
  · have hrecord : (nodeJson n).fields?
        ["id", "kind", "fields", "inputs", "parent", "shadow", "disabled", "mutation"] 5 = _ :=
      Json.fields?_record [
        ("id", idJson n.id),
        ("kind", .text n.kind.name),
        ("fields", .record (n.fields.entries.map fun (f : String × FieldValue) => (f.1, fieldJson f.2))),
        ("inputs", .list (n.inputs.map inputJson)),
        ("parent", optionJson idJson n.parent),
        ("shadow", .bool n.shadow),
        ("disabled", optionJson (fun (d : Disabled) => .text d.name) n.disabled),
        ("mutation", optionJson mutationJson n.mutation)] (by simp) 5
    rw [node?, hrecord]
    simp only [List.map_cons, List.map_nil, hid.reads, hkind.reads, hfields.reads, hinputs.reads,
      hparent.reads, hdisabled.reads, hmutation.reads, Option.elim_some, hshadow.reads]
    rfl

theorem denotes_document {d : Document} (hroots : ∀ x ∈ d.roots, x < NodeId.limit)
    (hnodes : ∀ n ∈ d.nodes, n.Portable) : Denotes ofJson? d.toJson d := by
  have hr := Json.denotes_list d.roots fun x hx => denotes_id (hroots x hx)
  have hn := Json.denotes_list d.nodes fun n hn => denotes_node (hnodes n hn)
  have hfields : d.toJson.fields? ["roots", "nodes"] 2 = _ :=
    Json.fields?_record [("roots", .list (d.roots.map idJson)),
      ("nodes", .list (d.nodes.map nodeJson))] (by simp) 2
  refine ⟨Json.printable_record ⟨hr.printable, hn.printable⟩, ?_⟩
  rw [ofJson?, hfields]
  simp only [List.map_cons, List.map_nil, hr.reads, hn.reads]
  rfl

end Document

end BlockText

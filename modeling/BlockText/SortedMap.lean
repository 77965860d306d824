/-!
# Maps in key order

A map is a list of entries whose keys strictly ascend, so a map has one representation: two maps
that answer every lookup alike are equal (`SortedMap.ext`). Workspaces keep their nodes in such a
map (by id, which is the order of creation) and nodes keep their fields in one (by name).
-/

namespace BlockText

/-- A finite map whose entries are listed in ascending key order. -/
structure SortedMap (κ : Type) (α : Type) [Ord κ] where
  entries : List (κ × α)
  ascending : entries.Pairwise fun a b => compare a.1 b.1 = .lt

namespace SortedMap

variable {κ α : Type} [Ord κ]

instance [DecidableEq κ] [DecidableEq α] : DecidableEq (SortedMap κ α) := fun a b =>
  match decEq a.entries b.entries with
  | isTrue h => isTrue (by cases a; cases b; cases h; rfl)
  | isFalse h => isFalse fun e => h (congrArg entries e)

/-- The map without entries. -/
def empty : SortedMap κ α := ⟨[], .nil⟩

instance : Inhabited (SortedMap κ α) := ⟨empty⟩

/-! ## The operations on entry lists -/

/-- The value that an entry list gives to a key. -/
def lookup (k : κ) : List (κ × α) → Option α
  | [] => none
  | e :: es => if compare k e.1 = .eq then some e.2 else lookup k es

/-- Puts an entry in its place, over an entry with the same key. -/
def put (k : κ) (a : α) : List (κ × α) → List (κ × α)
  | [] => [(k, a)]
  | e :: es =>
    match compare k e.1 with
    | .lt => (k, a) :: e :: es
    | .eq => (k, a) :: es
    | .gt => e :: put k a es

theorem mem_put {k : κ} {a : α} {x : κ × α} :
    ∀ {es : List (κ × α)}, x ∈ put k a es → x = (k, a) ∨ x ∈ es
  | [], h => by simp [put] at h; exact .inl h
  | e :: es, h => by
    unfold put at h
    split at h
    · simpa using h
    · rcases List.mem_cons.mp h with h | h
      · exact .inl h
      · exact .inr (List.mem_cons_of_mem _ h)
    · rcases List.mem_cons.mp h with h | h
      · exact .inr (h ▸ List.mem_cons_self)
      · exact (mem_put h).imp_right (List.mem_cons_of_mem _)

variable [Std.TransOrd κ]

theorem ascending_put (k : κ) (a : α) : ∀ {es : List (κ × α)},
    es.Pairwise (fun a b => compare a.1 b.1 = .lt) →
      (put k a es).Pairwise (fun a b => compare a.1 b.1 = .lt)
  | [], _ => by simp [put]
  | e :: es, h => by
    obtain ⟨he, hes⟩ := List.pairwise_cons.mp h
    unfold put
    split
    · next hlt =>
      refine List.pairwise_cons.mpr ⟨fun x hx => ?_, h⟩
      rcases List.mem_cons.mp hx with rfl | hx
      · exact hlt
      · exact Std.TransCmp.lt_trans hlt (he x hx)
    · next heq =>
      exact List.pairwise_cons.mpr ⟨fun x hx => Std.TransCmp.lt_of_eq_of_lt heq (he x hx), hes⟩
    · next hgt =>
      refine List.pairwise_cons.mpr ⟨fun x hx => ?_, ascending_put k a hes⟩
      rcases mem_put hx with rfl | hx
      · exact Std.OrientedCmp.lt_of_gt hgt
      · exact he x hx

/-! ## The operations on maps -/

omit [Std.TransOrd κ] in
/-- The value of a key, if it has one. -/
def get? (m : SortedMap κ α) (k : κ) : Option α := lookup k m.entries

omit [Std.TransOrd κ] in
/-- Whether a key has a value. -/
def contains (m : SortedMap κ α) (k : κ) : Bool := (m.get? k).isSome

/-- The map with a value put at a key. -/
def insert (m : SortedMap κ α) (k : κ) (a : α) : SortedMap κ α :=
  ⟨put k a m.entries, ascending_put k a m.ascending⟩

omit [Std.TransOrd κ] in
/-- The map without a key. -/
def erase (m : SortedMap κ α) (k : κ) : SortedMap κ α :=
  ⟨m.entries.filter fun e => compare k e.1 != .eq, m.ascending.filter _⟩

omit [Std.TransOrd κ] in
/-- The map with every value replaced by a function of its key and itself. -/
def map (m : SortedMap κ α) (f : κ → α → α) : SortedMap κ α :=
  ⟨m.entries.map fun e => (e.1, f e.1 e.2), by
    rw [List.pairwise_map]; exact m.ascending⟩

omit [Std.TransOrd κ] in
/-- The map with the value of one key changed, if it has one. -/
def adjust (m : SortedMap κ α) (k : κ) (f : α → α) : SortedMap κ α :=
  m.map fun k' a => if compare k k' = .eq then f a else a

/-- The map of a list of entries; of two entries with one key the later stays. -/
def ofList (es : List (κ × α)) : SortedMap κ α :=
  es.foldl (fun m e => m.insert e.1 e.2) empty

omit [Std.TransOrd κ] in
/-- The keys in order. -/
def keys (m : SortedMap κ α) : List κ := m.entries.map (·.1)

omit [Std.TransOrd κ] in
/-- The values in key order. -/
def values (m : SortedMap κ α) : List α := m.entries.map (·.2)

omit [Std.TransOrd κ] in
/-- The number of entries. -/
def size (m : SortedMap κ α) : Nat := m.entries.length

/-! ## Lookups after each operation -/

omit [Std.TransOrd κ] in
@[simp] theorem get?_empty (k : κ) : (empty : SortedMap κ α).get? k = none := rfl

variable [Std.LawfulEqOrd κ] [DecidableEq κ]

omit [Std.TransOrd κ] in
theorem lookup_put (k k' : κ) (a : α) (es : List (κ × α)) :
    lookup k' (put k a es) = if k' = k then some a else lookup k' es := by
  induction es with
  | nil => simp [put, lookup]
  | cons e es ih =>
    unfold put
    split
    · simp [lookup]
    · next heq =>
      have : k = e.1 := Std.compare_eq_iff_eq.mp heq
      subst this
      by_cases h : k' = e.1 <;> simp [lookup, h]
    · next hgt =>
      by_cases h : k' = e.1
      · have hne : k' ≠ k := fun h' => by
          rw [← h', h, Std.compare_eq_iff_eq.mpr rfl] at hgt
          cases hgt
        subst h
        simp [lookup, hne]
      · simp [lookup, h, ih]

/-- Insertion changes one key. -/
theorem get?_insert (m : SortedMap κ α) (k k' : κ) (a : α) :
    (m.insert k a).get? k' = if k' = k then some a else m.get? k' :=
  lookup_put k k' a m.entries

omit [Std.TransOrd κ] in
theorem lookup_filter_ne (k k' : κ) (es : List (κ × α)) :
    lookup k' (es.filter fun e => compare k e.1 != .eq) =
      if k' = k then none else lookup k' es := by
  induction es with
  | nil => simp [lookup]
  | cons e es ih =>
    by_cases h : k = e.1
    · subst h
      by_cases hk : k' = e.1
      · rw [if_pos hk] at ih ⊢
        simpa using ih
      · simpa [hk, lookup] using ih
    · have hc : (compare k e.1 != .eq) = true := by simpa using h
      rw [List.filter_cons_of_pos (by exact hc)]
      by_cases hk : k' = e.1
      · have : k' ≠ k := fun h' => h (h' ▸ hk)
        simp [lookup, hk, show e.1 ≠ k from hk ▸ this]
      · simp [lookup, hk, ih]

omit [Std.TransOrd κ] in
/-- Erasure forgets one key. -/
theorem get?_erase (m : SortedMap κ α) (k k' : κ) :
    (m.erase k).get? k' = if k' = k then none else m.get? k' :=
  lookup_filter_ne k k' m.entries

omit [Std.TransOrd κ] [DecidableEq κ] in
theorem lookup_map (f : κ → α → α) (k : κ) (es : List (κ × α)) :
    lookup k (es.map fun e => (e.1, f e.1 e.2)) = (lookup k es).map (f k) := by
  induction es with
  | nil => rfl
  | cons e es ih =>
    by_cases h : k = e.1
    · subst h
      simp [lookup]
    · simp [lookup, h, ih]

omit [Std.TransOrd κ] [DecidableEq κ] in
theorem get?_map (m : SortedMap κ α) (f : κ → α → α) (k : κ) :
    (m.map f).get? k = (m.get? k).map (f k) :=
  lookup_map f k m.entries

omit [Std.TransOrd κ] in
/-- An adjustment changes one key, and only if it has a value. -/
theorem get?_adjust (m : SortedMap κ α) (k k' : κ) (f : α → α) :
    (m.adjust k f).get? k' = if k' = k then (m.get? k).map f else m.get? k' := by
  rw [adjust, get?_map]
  by_cases h : k' = k
  · subst h
    simp
  · have : compare k k' ≠ .eq := fun e => h (Std.compare_eq_iff_eq.mp e).symm
    simp [h, this]

omit [Std.TransOrd κ] [DecidableEq κ] in
theorem lookup_isSome {k : κ} {es : List (κ × α)} :
    (lookup k es).isSome ↔ k ∈ es.map (·.1) := by
  induction es with
  | nil => simp [lookup]
  | cons e es ih =>
    by_cases h : k = e.1
    · simp [lookup, h]
    · simp [lookup, h, ih]

omit [Std.TransOrd κ] [DecidableEq κ] in
/-- The keys are what has a value. -/
theorem mem_keys {m : SortedMap κ α} {k : κ} : k ∈ m.keys ↔ (m.get? k).isSome :=
  lookup_isSome.symm

omit [Std.TransOrd κ] in
/-- Several erasures forget several keys. -/
theorem get?_foldl_erase (ks : List κ) (m : SortedMap κ α) (k : κ) :
    (ks.foldl (fun m k => m.erase k) m).get? k = if k ∈ ks then none else m.get? k := by
  induction ks generalizing m with
  | nil => simp
  | cons k' ks ih =>
    rw [List.foldl_cons, ih, get?_erase]
    by_cases h : k = k' <;> by_cases h' : k ∈ ks <;> simp [h, h']

omit [DecidableEq κ] [Std.TransOrd κ] in
theorem lookup_eq_some {k : κ} {a : α} : ∀ {es : List (κ × α)},
    es.Pairwise (fun a b => compare a.1 b.1 = .lt) → (lookup k es = some a ↔ (k, a) ∈ es)
  | [], _ => by simp [lookup]
  | e :: es, h => by
    obtain ⟨he, hes⟩ := List.pairwise_cons.mp h
    by_cases hk : k = e.1
    · subst hk
      have hnot : (e.1, a) ∉ es := fun hm => by
        have := he _ hm
        rw [Std.compare_eq_iff_eq.mpr rfl] at this
        cases this
      simp [lookup, hnot, Prod.ext_iff, eq_comm]
    · have hne : (k, a) ≠ e := fun h' => hk (congrArg Prod.fst h')
      simp [lookup, hk, hne, lookup_eq_some hes]

omit [DecidableEq κ] [Std.TransOrd κ] in
/-- The entries are the keys with their values. -/
theorem mem_entries {m : SortedMap κ α} {k : κ} {a : α} :
    (k, a) ∈ m.entries ↔ m.get? k = some a :=
  (lookup_eq_some m.ascending).symm

omit [DecidableEq κ] [Std.TransOrd κ] in
/-- The values are what some key has. -/
theorem mem_values {m : SortedMap κ α} {a : α} : a ∈ m.values ↔ ∃ k, m.get? k = some a := by
  simp only [values, List.mem_map, Prod.exists, exists_eq_right, mem_entries]

/-! ## One representation -/

omit [Std.LawfulEqOrd κ] [DecidableEq κ] [Std.TransOrd κ] in
theorem lookup_eq_none_of_lt {k : κ} : ∀ {es : List (κ × α)},
    (∀ e ∈ es, compare k e.1 = .lt) → lookup k es = none
  | [], _ => rfl
  | e :: es, h => by
    have he := h e List.mem_cons_self
    simp [lookup, he, lookup_eq_none_of_lt fun x hx => h x (List.mem_cons_of_mem _ hx)]

omit [DecidableEq κ] in
theorem entries_eq_of_lookup : ∀ {es fs : List (κ × α)},
    es.Pairwise (fun a b => compare a.1 b.1 = .lt) →
      fs.Pairwise (fun a b => compare a.1 b.1 = .lt) →
      (∀ k, lookup k es = lookup k fs) → es = fs
  | [], [], _, _, _ => rfl
  | [], f :: fs, _, _, h => by
    have := h f.1
    simp [lookup] at this
  | e :: es, [], _, _, h => by
    have := h e.1
    simp [lookup] at this
  | e :: es, f :: fs, he, hf, h => by
    obtain ⟨he, hes⟩ := List.pairwise_cons.mp he
    obtain ⟨hf, hfs⟩ := List.pairwise_cons.mp hf
    have below {x : κ × α} {xs : List (κ × α)} {k : κ} (hx : ∀ y ∈ xs, compare x.1 y.1 = .lt)
        (hk : compare k x.1 = .lt) : lookup k xs = none :=
      lookup_eq_none_of_lt fun y hy => Std.TransCmp.lt_trans hk (hx y hy)
    have hkey : e.1 = f.1 := by
      cases hc : compare e.1 f.1 with
      | eq => exact Std.compare_eq_iff_eq.mp hc
      | lt =>
        have := h e.1
        simp [lookup, hc, below hf hc] at this
      | gt =>
        have hc' := Std.OrientedCmp.lt_of_gt hc
        have := h f.1
        simp [lookup, hc', below he hc'] at this
    have hval : e.2 = f.2 := by
      have := h e.1
      simpa [lookup, hkey] using this
    have htail : es = fs := by
      refine entries_eq_of_lookup hes hfs fun k => ?_
      by_cases hk : k = e.1
      · subst hk
        rw [lookup_eq_none_of_lt he, lookup_eq_none_of_lt (hkey ▸ hf)]
      · have := h k
        simpa [lookup, hk, hkey ▸ hk] using this
    rw [htail, show e = f from Prod.ext hkey hval]

omit [DecidableEq κ] in
/-- Maps that answer every lookup alike are equal. -/
theorem ext {m n : SortedMap κ α} (h : ∀ k, m.get? k = n.get? k) : m = n := by
  cases m with | mk es he =>
  cases n with | mk fs hf =>
  have : es = fs := entries_eq_of_lookup he hf h
  subst this
  rfl

theorem get?_foldl_insert {es : List (κ × α)} (h : es.Pairwise fun a b => compare a.1 b.1 = .lt)
    (m : SortedMap κ α) (k : κ) :
    (es.foldl (fun m e => m.insert e.1 e.2) m).get? k = (lookup k es).or (m.get? k) := by
  induction es generalizing m with
  | nil => rfl
  | cons e es ih =>
    obtain ⟨he, hes⟩ := List.pairwise_cons.mp h
    rw [List.foldl_cons, ih hes, get?_insert, lookup]
    by_cases hk : k = e.1
    · subst hk
      rw [lookup_eq_none_of_lt he]
      simp
    · simp [hk]

/-- A map is the map of its entries. -/
theorem ofList_entries (m : SortedMap κ α) : ofList m.entries = m := by
  refine ext fun k => ?_
  rw [ofList, get?_foldl_insert m.ascending, get?_empty, Option.or_none]
  rfl

end SortedMap

end BlockText

/-
  Name maps seen through lookup.

  What each operation does to `get?`, and that `get?` decides the map: two maps that bind
  the same names to the same values are equal (`ext_get?`), since the entries stand in
  increasing order. A map can be given other names for its values, and other values for its names;
  lookup follows, for the names as long as they stay different (`get?_renameKeys_eq_some_iff`,
  `get?_mapValues`).
-/
import Mathlib.Data.Set.Function
import PropCalc.NameMap

namespace PropCalc.NameMap

variable {α β : Type}

@[simp] theorem get?_empty (x : String) : (∅ : NameMap α).get? x = none := rfl

/-- Lookup in a list of bindings asks whether the name is the first one. -/
theorem lookup_binding (x : String) (value : α) (l : List (String × α)) (y : String) :
    ((x, value) :: l).lookup y = if y = x then some value else l.lookup y := by
  rw [List.lookup_cons]
  by_cases hy : y = x
  · simp [hy]
  · rw [beq_eq_false_iff_ne.mpr hy, if_neg hy]

/-! ## Inserting -/

theorem lookup_insertEntry (x : String) (value : α) (l : List (String × α)) (y : String) :
    (insertEntry x value l).lookup y = if y = x then some value else l.lookup y := by
  induction l with
  | nil => exact lookup_binding x value [] y
  | cons entry rest ih =>
    obtain ⟨k, v⟩ := entry
    simp only [insertEntry]
    split
    · exact lookup_binding x value ((k, v) :: rest) y
    · split
      · next hxk =>
        subst hxk
        by_cases hy : y = x <;> simp [lookup_binding, hy]
      · next hxk =>
        rw [lookup_binding, lookup_binding, ih]
        by_cases hk : y = k
        · have hyx : y ≠ x := fun h => hxk (h.symm.trans hk)
          rw [if_pos hk, if_neg hyx, if_pos hk]
        · simp [hk]

@[simp] theorem get?_insert (m : NameMap α) (x : String) (value : α) (y : String) :
    (m.insert x value).get? y = if y = x then some value else m.get? y :=
  lookup_insertEntry x value m.entries y

theorem insertAll_cons (m : NameMap α) (x : String) (value : α) (l : List (String × α)) :
    m.insertAll ((x, value) :: l) = (m.insert x value).insertAll l := rfl

/-- Whatever is put in, the last binding of a name holds, and else the one from before. -/
theorem get?_insertAll_eq (m : NameMap α) (l : List (String × α)) (y : String) :
    (m.insertAll l).get? y = (l.reverse.lookup y).or (m.get? y) := by
  induction l generalizing m with
  | nil => rfl
  | cons entry rest ih =>
    obtain ⟨k, v⟩ := entry
    rw [insertAll_cons, ih, get?_insert, List.reverse_cons, List.lookup_append, lookup_binding,
      Option.or_assoc]
    split <;> rfl

/-! ## Lists that bind no name twice -/

/-- No name is bound twice. -/
def Distinct (l : List (String × α)) : Prop := l.Pairwise fun a b => a.1 ≠ b.1

theorem distinct_entries (m : NameMap α) : Distinct m.entries := by
  apply m.sorted.imp
  intro a b hlt heq
  exact String.lt_irrefl b.1 (heq ▸ hlt)

/-- The rest of the list does not bind the first name. -/
theorem Distinct.lookup_tail {x : String} {value : α} {l : List (String × α)}
    (h : Distinct ((x, value) :: l)) : l.lookup x = none := by
  rw [List.lookup_eq_none_iff]
  intro e he
  have hne : x ≠ e.1 := (List.pairwise_cons.mp h).1 e he
  simpa using hne

/-- Lookup finds exactly the bindings of the list. -/
theorem Distinct.lookup_eq_some_iff {l : List (String × α)} (h : Distinct l) (x : String)
    (value : α) : l.lookup x = some value ↔ (x, value) ∈ l := by
  induction l with
  | nil => simp
  | cons entry rest ih =>
    obtain ⟨k, v⟩ := entry
    have hrest := ih (List.pairwise_cons.mp h).2
    rw [lookup_binding, List.mem_cons]
    by_cases hx : x = k
    · subst hx
      have hnone := h.lookup_tail
      have hnot : (x, value) ∉ rest := fun hmem => by
        rw [hrest.mpr hmem] at hnone
        exact absurd hnone (by simp)
      simp [hnot, eq_comm]
    · simp [hx, hrest]

theorem get?_insertAll (m : NameMap α) {l : List (String × α)} (h : Distinct l) (y : String) :
    (m.insertAll l).get? y = (l.lookup y).or (m.get? y) := by
  induction l generalizing m with
  | nil => rfl
  | cons entry rest ih =>
    obtain ⟨k, v⟩ := entry
    have hk := h.lookup_tail
    rw [insertAll_cons, ih _ (List.pairwise_cons.mp h).2, get?_insert, lookup_binding]
    by_cases hy : y = k
    · subst hy
      simp [hk]
    · simp [hy]

theorem get?_ofList_eq_some_iff {l : List (String × α)} (h : Distinct l) {x : String} {value : α} :
    (ofList l).get? x = some value ↔ (x, value) ∈ l := by
  rw [ofList, get?_insertAll ∅ h, get?_empty, Option.or_none, h.lookup_eq_some_iff]

/-! ## Bound names -/

/-- Whatever is put in, the names that it binds are bound, whether it binds them once or more. -/
theorem isSome_get?_insertAll (m : NameMap α) (l : List (String × α)) (y : String) :
    ((m.insertAll l).get? y).isSome ↔ (m.get? y).isSome ∨ ∃ value, (y, value) ∈ l := by
  induction l generalizing m with
  | nil => simp [insertAll]
  | cons entry rest ih =>
    obtain ⟨k, v⟩ := entry
    rw [insertAll_cons, ih, get?_insert]
    by_cases hy : y = k
    · subst hy
      simp
    · simp [hy]

theorem isSome_get?_ofList_iff (l : List (String × α)) (y : String) :
    ((ofList l).get? y).isSome ↔ ∃ value, (y, value) ∈ l := by
  rw [ofList, isSome_get?_insertAll]
  simp

/-! ## Merging -/

/-- Where both maps bind a name the second one decides. -/
@[simp] theorem get?_merge (m overrides : NameMap α) (x : String) :
    (m.merge overrides).get? x = (overrides.get? x).or (m.get? x) :=
  get?_insertAll m overrides.distinct_entries x

@[simp] theorem merge_empty (m : NameMap α) : m.merge ∅ = m := rfl

/-! ## Lookup decides the map -/

theorem get?_eq_some_iff (m : NameMap α) (x : String) (value : α) :
    m.get? x = some value ↔ (x, value) ∈ m.entries :=
  m.distinct_entries.lookup_eq_some_iff x value

theorem mem_keys_iff (m : NameMap α) (x : String) : x ∈ m.keys ↔ (m.get? x).isSome := by
  simp only [keys, List.mem_map, Option.isSome_iff_exists, get?_eq_some_iff, Prod.exists,
    exists_and_right, exists_eq_right]

theorem nodup_keys (m : NameMap α) : m.keys.Nodup :=
  List.pairwise_map.mpr m.distinct_entries

/-- The bindings that pass a test are found as before, and no others. -/
theorem get?_filter_eq_some_iff (m : NameMap α) (keep : String → α → Bool) (x : String)
    (value : α) : (m.filter keep).get? x = some value ↔ m.get? x = some value ∧ keep x value := by
  rw [get?_eq_some_iff, get?_eq_some_iff, filter, List.mem_filter]

theorem nodup_entries (m : NameMap α) : m.entries.Nodup := by
  apply m.distinct_entries.imp
  intro a b hne heq
  exact hne (congrArg Prod.fst heq)

/-- Two maps with the same lookups are the same map. -/
theorem ext_get? {m n : NameMap α} (h : ∀ x, m.get? x = n.get? x) : m = n := by
  have hmem : ∀ e, e ∈ m.entries ↔ e ∈ n.entries := by
    intro e
    rw [← get?_eq_some_iff, ← get?_eq_some_iff, h]
  have hperm : m.entries.Perm n.entries :=
    (List.perm_ext_iff_of_nodup m.nodup_entries n.nodup_entries).mpr hmem
  have hentries : m.entries = n.entries := by
    refine hperm.eq_of_pairwise (fun a b _ _ hab hba => ?_) m.sorted n.sorted
    exact absurd (String.lt_trans hab hba) (String.lt_irrefl _)
  cases m
  cases n
  simpa using hentries

/-- A map is made of its entries. -/
theorem ofList_entries (m : NameMap α) : ofList m.entries = m := by
  refine ext_get? fun x => Option.ext fun value => ?_
  rw [get?_ofList_eq_some_iff m.distinct_entries, get?_eq_some_iff]

theorem merge_assoc (m n k : NameMap α) : (m.merge n).merge k = m.merge (n.merge k) := by
  refine ext_get? fun x => ?_
  rw [get?_merge, get?_merge, get?_merge, get?_merge, Option.or_assoc]

/-! ## Other names -/

/-- The map with every name changed as `ρ` says. -/
def renameKeys (ρ : String → String) (m : NameMap α) : NameMap α :=
  ofList (m.entries.map fun (x, value) => (ρ x, value))

variable {ρ : String → String} {m : NameMap α}

/-- Names that stay different are not bound twice. -/
theorem distinct_renamed (hρ : Set.InjOn ρ {x | (m.get? x).isSome}) :
    Distinct (m.entries.map fun (x, value) => (ρ x, value)) := by
  have hbound : ∀ e ∈ m.entries, (m.get? e.1).isSome := fun e he =>
    Option.isSome_of_eq_some ((get?_eq_some_iff m e.1 e.2).mpr he)
  refine List.pairwise_map.mpr (m.distinct_entries.imp_of_mem fun {a b} ha hb hne heq => ?_)
  exact hne (hρ (hbound a ha) (hbound b hb) heq)

theorem get?_renameKeys_eq_some_iff (hρ : Set.InjOn ρ {x | (m.get? x).isSome}) {y : String}
    {value : α} :
    (m.renameKeys ρ).get? y = some value ↔ ∃ x, m.get? x = some value ∧ ρ x = y := by
  rw [renameKeys, get?_ofList_eq_some_iff (distinct_renamed hρ)]
  simp only [List.mem_map, get?_eq_some_iff, Prod.exists, Prod.mk.injEq]
  constructor
  · rintro ⟨x, v, hmem, rfl, rfl⟩
    exact ⟨x, hmem, rfl⟩
  · rintro ⟨x, hmem, rfl⟩
    exact ⟨x, value, hmem, rfl, rfl⟩

theorem isSome_get?_renameKeys_iff (hρ : Set.InjOn ρ {x | (m.get? x).isSome}) {y : String} :
    ((m.renameKeys ρ).get? y).isSome ↔ ∃ x, (m.get? x).isSome ∧ ρ x = y := by
  simp only [Option.isSome_iff_exists, get?_renameKeys_eq_some_iff hρ]
  constructor
  · rintro ⟨value, x, hx, rfl⟩
    exact ⟨x, ⟨value, hx⟩, rfl⟩
  · rintro ⟨x, ⟨value, hx⟩, rfl⟩
    exact ⟨value, x, hx, rfl⟩

/-! ## Other values -/

/-- The map with `f` used on every value. -/
def mapValues (f : α → β) (m : NameMap α) : NameMap β where
  entries := m.entries.map fun (x, value) => (x, f value)
  sorted := List.pairwise_map.mpr m.sorted

theorem lookup_map_values (f : α → β) (l : List (String × α)) (y : String) :
    (l.map fun (x, value) => (x, f value)).lookup y = (l.lookup y).map f := by
  induction l with
  | nil => rfl
  | cons entry rest ih =>
    obtain ⟨x, value⟩ := entry
    rw [List.map_cons, lookup_binding, lookup_binding, ih]
    split <;> rfl

@[simp] theorem get?_mapValues (f : α → β) (m : NameMap α) (y : String) :
    (m.mapValues f).get? y = (m.get? y).map f :=
  lookup_map_values f m.entries y

end PropCalc.NameMap

/-
  Finite maps from names to values. The entries are kept in strictly increasing order of
  their names (by code points), so two maps with the same bindings are equal.
-/

namespace PropCalc

/-- A finite map from names, listed in increasing order. -/
structure NameMap (α : Type) where
  entries : List (String × α)
  sorted : entries.Pairwise fun a b => a.1 < b.1
  deriving Repr

namespace NameMap

variable {α β : Type}

instance [DecidableEq α] : DecidableEq (NameMap α) := fun m n =>
  if h : m.entries = n.entries then
    isTrue (by cases m; cases n; simp only at h; subst h; rfl)
  else isFalse fun e => h (e ▸ rfl)

def empty : NameMap α := ⟨[], .nil⟩

instance : EmptyCollection (NameMap α) := ⟨empty⟩

/-- The value bound to a name. -/
def get? (m : NameMap α) (name : String) : Option α := m.entries.lookup name

def size (m : NameMap α) : Nat := m.entries.length

def isEmpty (m : NameMap α) : Bool := m.entries.isEmpty

/-- The bound names in increasing order. -/
def keys (m : NameMap α) : List String := m.entries.map (·.1)

/-- Puts a binding at its place in an increasing list, over an earlier one of the name. -/
def insertEntry (name : String) (value : α) : List (String × α) → List (String × α)
  | [] => [(name, value)]
  | (k, v) :: rest =>
    if name < k then (name, value) :: (k, v) :: rest
    else if name = k then (name, value) :: rest
    else (k, v) :: insertEntry name value rest

theorem mem_insertEntry {name : String} {value : α} {l : List (String × α)} {e : String × α}
    (h : e ∈ insertEntry name value l) : e = (name, value) ∨ e ∈ l := by
  induction l with
  | nil => simpa [insertEntry] using h
  | cons kv rest ih =>
    simp only [insertEntry] at h
    split at h
    · simpa using h
    · split at h
      · rcases List.mem_cons.mp h with h | h
        · exact .inl h
        · exact .inr (List.mem_cons_of_mem _ h)
      · rcases List.mem_cons.mp h with h | h
        · exact .inr (h ▸ List.mem_cons_self)
        · rcases ih h with h | h
          · exact .inl h
          · exact .inr (List.mem_cons_of_mem _ h)

theorem sorted_insertEntry {name : String} {value : α} {l : List (String × α)}
    (h : l.Pairwise fun a b => a.1 < b.1) :
    (insertEntry name value l).Pairwise fun a b => a.1 < b.1 := by
  induction l with
  | nil => simp [insertEntry]
  | cons kv rest ih =>
    rw [List.pairwise_cons] at h
    simp only [insertEntry]
    split
    · next hlt =>
      refine List.pairwise_cons.mpr ⟨fun e he => ?_, List.pairwise_cons.mpr h⟩
      rcases List.mem_cons.mp he with rfl | he
      · exact hlt
      · exact String.lt_trans hlt (h.1 e he)
    · split
      · next heq => exact List.pairwise_cons.mpr ⟨fun e he => heq ▸ h.1 e he, h.2⟩
      · next hnlt hne =>
        refine List.pairwise_cons.mpr ⟨fun e he => ?_, ih h.2⟩
        rcases mem_insertEntry he with rfl | he
        · exact Decidable.byContradiction fun hk =>
            hne (String.le_antisymm (String.not_lt.mp hk) (String.not_lt.mp hnlt))
        · exact h.1 e he

/-- The map with `name` bound to `value`, whatever it was bound to before. -/
def insert (m : NameMap α) (name : String) (value : α) : NameMap α :=
  ⟨insertEntry name value m.entries, sorted_insertEntry m.sorted⟩

/-- The bindings of `m` and, over them, those of the list from left to right. -/
def insertAll (m : NameMap α) (bindings : List (String × α)) : NameMap α :=
  bindings.foldl (fun m (name, value) => m.insert name value) m

/-- The map of a list of bindings; of two for one name the later one holds. -/
def ofList (bindings : List (String × α)) : NameMap α := insertAll ∅ bindings

/-- The bindings of both maps; where both bind a name, `overrides` decides. -/
def merge (m overrides : NameMap α) : NameMap α := m.insertAll overrides.entries

/-- The bindings that satisfy a test on name and value. -/
def filter (m : NameMap α) (keep : String → α → Bool) : NameMap α :=
  ⟨m.entries.filter fun (name, value) => keep name value, m.sorted.filter _⟩

end NameMap

end PropCalc

/-
  Where the names of a formula come from.

  The names of an instantiated formula are those of the images of its names
  (`mem_names_instantiate`): the ones that nothing is bound to, and those of the bindings
  (`mem_names_instantiate_iff`). What stands at a path has no other names than the whole
  (`mem_names_of_subformula`), each name stands at some path as a variable
  (`mem_names_iff_subformula`), and a replacement brings in those of the new formula at most
  (`mem_names_of_replaceAt`).
-/
import PropCalc.Proofs.Formula.Places

namespace PropCalc.Formula

variable {e new : Formula} {y : String}

/-- Instantiating puts the names of the images in the place of the names. -/
theorem mem_names_instantiate {σ : Substitution} :
    y ∈ (e.instantiate σ).names ↔ ∃ x ∈ e.names, y ∈ (σ.image x).names := by
  induction e with
  | var x => simp [names]
  | const b => simp [names]
  | neg e ih => rw [instantiate_neg, names, names, ih]
  | bin op l r ihl ihr =>
    simp only [instantiate_bin, names, List.mem_append, ihl, ihr, or_and_right, exists_or]

/-- The names without a binding stay, and the others give way to those of their bindings. -/
theorem mem_names_instantiate_iff {σ : Substitution} :
    y ∈ (e.instantiate σ).names ↔
      (y ∈ e.names ∧ σ.get? y = none) ∨ ∃ x ∈ e.names, ∃ f, σ.get? x = some f ∧ y ∈ f.names := by
  rw [mem_names_instantiate]
  constructor
  · rintro ⟨x, hx, hy⟩
    cases hbound : σ.get? x with
    | none =>
      rw [Substitution.image_of_unbound hbound, names, List.mem_singleton] at hy
      rw [hy]
      exact .inl ⟨hx, hbound⟩
    | some f =>
      rw [Substitution.image_of_bound hbound] at hy
      exact .inr ⟨x, hx, f, hbound, hy⟩
  · rintro (⟨hy, hbound⟩ | ⟨x, hx, f, hbound, hy⟩)
    · refine ⟨y, hy, ?_⟩
      rw [Substitution.image_of_unbound hbound]
      exact List.mem_singleton_self y
    · refine ⟨x, hx, ?_⟩
      rwa [Substitution.image_of_bound hbound]

/-! ## Operands -/

theorem mem_names_of_child {child : Formula} {i : Nat} (h : e.children[i]? = some child)
    (hy : y ∈ child.names) : y ∈ e.names := by
  have hmem : child ∈ e.children := List.mem_of_getElem? h
  cases e with
  | var x => exact absurd hmem List.not_mem_nil
  | const b => exact absurd hmem List.not_mem_nil
  | neg e =>
    rw [children, List.mem_singleton] at hmem
    rw [names, ← hmem]
    exact hy
  | bin op l r =>
    rw [names, List.mem_append]
    rcases List.mem_cons.mp hmem with rfl | hmem
    · exact .inl hy
    · rw [List.mem_singleton.mp hmem] at hy
      exact .inr hy

theorem mem_names_of_setChild {i : Nat} (hy : y ∈ (e.setChild i new).names) :
    y ∈ e.names ∨ y ∈ new.names := by
  match e, i with
  | var _, _ => exact .inl hy
  | const _, _ => exact .inl hy
  | neg _, 0 => exact .inr hy
  | neg _, _ + 1 => exact .inl hy
  | bin op l r, 0 =>
    rcases List.mem_append.mp hy with hy | hy
    · exact .inr hy
    · exact .inl (List.mem_append_right _ hy)
  | bin op l r, 1 =>
    rcases List.mem_append.mp hy with hy | hy
    · exact .inl (List.mem_append_left _ hy)
    · exact .inr hy
  | bin _ _ _, _ + 2 => exact .inl hy

/-! ## Paths -/

theorem mem_names_of_subformula {f : Formula} {p : Path} (h : e.subformula p = some f)
    (hy : y ∈ f.names) : y ∈ e.names := by
  induction p generalizing e with
  | nil =>
    rw [subformula_root] at h
    rw [Option.some.inj h]
    exact hy
  | cons i p ih =>
    rw [subformula_cons] at h
    obtain ⟨child, hchild, hf⟩ := Option.bind_eq_some_iff.mp h
    exact mem_names_of_child hchild (ih hf)

/-- The names are those of the variables that stand somewhere in the formula. -/
theorem mem_names_iff_subformula : y ∈ e.names ↔ ∃ p, e.subformula p = some (var y) := by
  constructor
  · intro hy
    induction e with
    | var x =>
      rw [names, List.mem_singleton] at hy
      exact ⟨[], by rw [subformula_root, hy]⟩
    | const b => exact absurd hy List.not_mem_nil
    | neg e ih =>
      obtain ⟨p, hp⟩ := ih hy
      exact ⟨0 :: p, hp⟩
    | bin op l r ihl ihr =>
      rcases List.mem_append.mp hy with hy | hy
      · obtain ⟨p, hp⟩ := ihl hy
        exact ⟨0 :: p, hp⟩
      · obtain ⟨p, hp⟩ := ihr hy
        exact ⟨1 :: p, hp⟩
  · rintro ⟨p, hp⟩
    exact mem_names_of_subformula hp List.mem_cons_self

theorem mem_names_of_replaceAt {e' : Formula} {p : Path} (h : e.replaceAt p new = some e')
    (hy : y ∈ e'.names) : y ∈ e.names ∨ y ∈ new.names := by
  induction p generalizing e e' with
  | nil =>
    rw [replaceAt_root] at h
    rw [← Option.some.inj h] at hy
    exact .inr hy
  | cons i p ih =>
    obtain ⟨child, child', hchild, hbelow, rfl⟩ := replaceAt_cons_eq_some_iff.mp h
    rcases mem_names_of_setChild hy with hy | hy
    · exact .inl hy
    · rcases ih hbelow hy with hy | hy
      · exact .inl (mem_names_of_child hchild hy)
      · exact .inr hy

end PropCalc.Formula

/-
  The places of an instance.

  What stands in a formula stands, instantiated, at the same path in its instance, and a
  replacement can be made before instantiating as well as after (`subformula_instantiate`,
  `replaceAt_instantiate`). The instance has more paths than the formula: they go on inside what
  has been put in for a name, and there they meet its parts as they are
  (`subformula_instantiate_eq_some_iff`). For a name that occurs only once, a replacement there is
  another binding of the name (`replaceAt_instantiate_insert`).
-/
import PropCalc.Proofs.Formula.Names

namespace PropCalc.Formula

variable {e new e' : Formula} {σ : Substitution} {p : Path}

/-! ## The paths of the formula -/

theorem child_instantiate {child : Formula} {i : Nat} (h : e.children[i]? = some child)
    (σ : Substitution) : (e.instantiate σ).children[i]? = some (child.instantiate σ) := by
  match e, i with
  | neg _, 0 => cases h; rfl
  | bin _ _ _, 0 => cases h; rfl
  | bin _ _ _, 1 => cases h; rfl
  | neg _, _ + 1 => cases h
  | bin _ _ _, _ + 2 => cases h

theorem setChild_instantiate {child : Formula} {i : Nat} (h : e.children[i]? = some child)
    (new : Formula) (σ : Substitution) :
    (e.setChild i new).instantiate σ = (e.instantiate σ).setChild i (new.instantiate σ) := by
  match e, i with
  | neg _, 0 => rfl
  | bin _ _ _, 0 => rfl
  | bin _ _ _, 1 => rfl
  | neg _, _ + 1 => cases h
  | bin _ _ _, _ + 2 => cases h

/-- What stands at a path of the formula stands there instantiated in the instance. -/
theorem subformula_instantiate {f : Formula} (h : e.subformula p = some f) (σ : Substitution) :
    (e.instantiate σ).subformula p = some (f.instantiate σ) := by
  induction p generalizing e with
  | nil =>
    rw [subformula_root] at h
    rw [subformula_root, Option.some.inj h]
  | cons i p ih =>
    rw [subformula_cons] at h
    obtain ⟨child, hchild, hf⟩ := Option.bind_eq_some_iff.mp h
    rw [subformula_cons, child_instantiate hchild, Option.bind_some, ih hf]

/-- A replacement in the formula becomes the instantiated one in the instance. -/
theorem replaceAt_instantiate (h : e.replaceAt p new = some e') (σ : Substitution) :
    (e.instantiate σ).replaceAt p (new.instantiate σ) = some (e'.instantiate σ) := by
  induction p generalizing e e' with
  | nil =>
    rw [replaceAt_root] at h
    rw [replaceAt_root, Option.some.inj h]
  | cons i p ih =>
    obtain ⟨child, child', hchild, hbelow, rfl⟩ := replaceAt_cons_eq_some_iff.mp h
    exact replaceAt_cons_eq_some_iff.mpr ⟨_, _, child_instantiate hchild σ, ih hbelow,
      (setChild_instantiate hchild child' σ).symm⟩

/-! ## The paths inside what has been put in -/

/-- Only at a variable something else takes the place of the operands. -/
theorem children_instantiate (he : ∀ x, e ≠ var x) (σ : Substitution) :
    (e.instantiate σ).children = e.children.map (instantiate σ) := by
  cases e with
  | var x => exact absurd rfl (he x)
  | const b => rfl
  | neg e => rfl
  | bin op l r => rfl

/-- What stands in an instance either stands, before instantiating, at the same path in the
    formula, or it is a part of a binding, at the rest of a path that goes through the variable. -/
theorem subformula_instantiate_eq_some_iff {q : Path} {g : Formula} :
    (e.instantiate σ).subformula q = some g ↔
      (∃ f, e.subformula q = some f ∧ f.instantiate σ = g) ∨
        ∃ u w x f, u ++ w = q ∧ e.subformula u = some (var x) ∧ σ.get? x = some f ∧
          f.subformula w = some g := by
  constructor
  · intro h
    induction q generalizing e with
    | nil =>
      rw [subformula_root] at h
      exact .inl ⟨e, e.subformula_root, Option.some.inj h⟩
    | cons i q ih =>
      by_cases hvar : ∃ x, e = var x
      · -- the path leaves the variable, so it is bound, and the path goes on in its binding
        obtain ⟨x, rfl⟩ := hvar
        cases hx : σ.get? x with
        | none =>
          rw [instantiate_var, Substitution.image_of_unbound hx] at h
          simp [subformula_cons, children] at h
        | some f =>
          rw [instantiate_var, Substitution.image_of_bound hx] at h
          exact .inr ⟨[], i :: q, x, f, rfl, subformula_root _, hx, h⟩
      · rw [subformula_cons, children_instantiate (not_exists.mp hvar), List.getElem?_map] at h
        obtain ⟨_, hmap, hg⟩ := Option.bind_eq_some_iff.mp h
        obtain ⟨child, hchild, rfl⟩ := Option.map_eq_some_iff.mp hmap
        have hbelow : ∀ u, e.subformula (i :: u) = child.subformula u := fun u => by
          rw [subformula_cons, hchild, Option.bind_some]
        rcases ih hg with ⟨f, hf, hfg⟩ | ⟨u, w, x, f, rfl, hu, hx, hw⟩
        · exact .inl ⟨f, by rw [hbelow, hf], hfg⟩
        · exact .inr ⟨i :: u, w, x, f, rfl, by rw [hbelow, hu], hx, hw⟩
  · rintro (⟨f, hf, rfl⟩ | ⟨u, w, x, f, rfl, hu, hx, hw⟩)
    · exact subformula_instantiate hf σ
    · rw [subformula_append, subformula_instantiate hu, Option.bind_some, instantiate_var,
        Substitution.image_of_bound hx, hw]

/-! ## A name that occurs once -/

/-- The name occurs once, and it is what stands at the path. -/
def OccursOnceAt (e : Formula) (v : String) (u : Path) : Prop :=
  e.names.count v = 1 ∧ e.subformula u = some (var v)

instance (e : Formula) (v : String) (u : Path) : Decidable (e.OccursOnceAt v u) :=
  inferInstanceAs (Decidable (_ ∧ _))

namespace OccursOnceAt

variable {v x : String} {u : Path} {op : Connective} {l r : Formula}

theorem mem_names (h : e.OccursOnceAt v u) : v ∈ e.names := by
  rw [← List.count_pos_iff, h.1]
  exact Nat.one_pos

theorem eq_of_var (h : (var x).OccursOnceAt v u) : u = [] ∧ x = v := by
  obtain ⟨-, hu⟩ := h
  cases u with
  | nil => exact ⟨rfl, by simpa using hu⟩
  | cons i u => simp [subformula_cons, children] at hu

theorem of_neg (h : (neg e).OccursOnceAt v u) : ∃ u', u = 0 :: u' ∧ e.OccursOnceAt v u' := by
  obtain ⟨hcount, hu⟩ := h
  cases u with
  | nil => simp at hu
  | cons i u =>
    cases i with
    | zero => exact ⟨u, rfl, hcount, hu⟩
    | succ i => simp [subformula_cons, children] at hu

/-- A name that two formulas have once between them and that stands in the first of them is not in
    the second one. -/
theorem of_count_add (hcount : l.names.count v + r.names.count v = 1)
    (hu : l.subformula u = some (var v)) : l.OccursOnceAt v u ∧ v ∉ r.names := by
  have hmem : v ∈ l.names := mem_names_of_subformula hu List.mem_cons_self
  have hpos : 0 < l.names.count v := List.count_pos_iff.mpr hmem
  exact ⟨⟨by omega, hu⟩, List.count_eq_zero.mp (by omega)⟩

/-- The name occurs in one of the operands, and so not in the other one. -/
theorem of_bin (h : (bin op l r).OccursOnceAt v u) :
    (∃ u', u = 0 :: u' ∧ l.OccursOnceAt v u' ∧ v ∉ r.names) ∨
      ∃ u', u = 1 :: u' ∧ r.OccursOnceAt v u' ∧ v ∉ l.names := by
  obtain ⟨hcount, hu⟩ := h
  rw [names, List.count_append] at hcount
  cases u with
  | nil => simp at hu
  | cons i u =>
    rcases i with _ | _ | i
    · exact .inl ⟨u, rfl, of_count_add hcount hu⟩
    · exact .inr ⟨u, rfl, of_count_add ((Nat.add_comm _ _).trans hcount) hu⟩
    · simp [subformula_cons, children] at hu

end OccursOnceAt

/-- Replacing what has been put in for a name that occurs once is binding the name to what takes
    its place. -/
theorem replaceAt_instantiate_insert {v : String} {u : Path} (h : e.OccursOnceAt v u)
    (σ : Substitution) (new : Formula) :
    (e.instantiate σ).replaceAt u new = some (e.instantiate (σ.insert v new)) := by
  induction e generalizing u with
  | var x =>
    obtain ⟨rfl, rfl⟩ := h.eq_of_var
    rw [replaceAt_root, instantiate_var, Substitution.image_insert, if_pos rfl]
  | const b => exact absurd h.mem_names List.not_mem_nil
  | neg e ih =>
    obtain ⟨u', rfl, he⟩ := h.of_neg
    rw [instantiate_neg, replaceAt, ih he, Option.map_some, instantiate_neg]
  | bin op l r ihl ihr =>
    -- the binding does not reach the operand without the name
    rcases h.of_bin with ⟨u', rfl, hl, hr⟩ | ⟨u', rfl, hr, hl⟩
    · rw [instantiate_bin, replaceAt, ihl hl, Option.map_some, instantiate_bin,
        instantiate_insert_of_not_mem hr]
    · rw [instantiate_bin, replaceAt, ihr hr, Option.map_some, instantiate_bin,
        instantiate_insert_of_not_mem hl]

end PropCalc.Formula

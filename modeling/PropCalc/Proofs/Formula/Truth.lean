/-
  Truth of formulas, and equivalence.

  `eval v e` reads the connectives classically under an assignment `v` of booleans to names.
  Two formulas are equivalent if they have the same value under every assignment. There are
  infinitely many of those, but only the names that occur matter (`eval_congr`), so a truth
  table decides equivalence (`equivalent_iff_table`).
-/
import PropCalc.Proofs.Substitution.Image

namespace PropCalc

/-- The truth function of a connective. -/
def Connective.eval : Connective → Bool → Bool → Bool
  | and, a, b => a && b
  | or, a, b => a || b
  | implies, a, b => !a || b

namespace Formula

/-- The truth value under an assignment of booleans to names. -/
def eval (v : String → Bool) : Formula → Bool
  | var x => v x
  | const b => b
  | neg e => !e.eval v
  | bin op l r => op.eval (l.eval v) (r.eval v)

/-- The same truth value under every assignment. -/
def Equivalent (e f : Formula) : Prop := ∀ v, e.eval v = f.eval v

namespace Equivalent

variable {e f g : Formula}

theorem refl (e : Formula) : Equivalent e e := fun _ => rfl

theorem symm (h : Equivalent e f) : Equivalent f e := fun v => (h v).symm

theorem trans (h₁ : Equivalent e f) (h₂ : Equivalent f g) : Equivalent e g :=
  fun v => (h₁ v).trans (h₂ v)

theorem neg (h : Equivalent e f) : Equivalent e.neg f.neg := fun v => by
  simp only [eval, h v]

theorem bin_left (op : Connective) (h : Equivalent e f) (r : Formula) :
    Equivalent (bin op e r) (bin op f r) := fun v => by
  simp only [eval, h v]

theorem bin_right (op : Connective) (l : Formula) (h : Equivalent e f) :
    Equivalent (bin op l e) (bin op l f) := fun v => by
  simp only [eval, h v]

end Equivalent

/-! ## Instantiation -/

/-- Instantiating is assigning to each name the value of its image. -/
theorem eval_instantiate (σ : Substitution) (v : String → Bool) (e : Formula) :
    (e.instantiate σ).eval v = e.eval fun x => (σ.image x).eval v := by
  induction e with
  | var x => rfl
  | const b => rfl
  | neg e ih => simp only [instantiate_neg, eval, ih]
  | bin op l r ihl ihr => simp only [instantiate_bin, eval, ihl, ihr]

/-- Equivalent patterns become equivalent formulas, also where names stay as they are. -/
theorem Equivalent.instantiate {p q : Formula} (h : Equivalent p q) (σ : Substitution) :
    Equivalent (p.instantiate σ) (q.instantiate σ) := fun v => by
  rw [eval_instantiate, eval_instantiate]
  exact h _

/-! ## Truth tables -/

theorem eval_congr {v w : String → Bool} {e : Formula} (h : ∀ x ∈ e.names, v x = w x) :
    e.eval v = e.eval w := by
  induction e with
  | var x => exact h x (by simp [names])
  | const b => rfl
  | neg e ih => simp only [eval, ih h]
  | bin op l r ihl ihr =>
    have hl := ihl fun x hx => h x (by simp [names, hx])
    have hr := ihr fun x hx => h x (by simp [names, hx])
    simp only [eval, hl, hr]

/-- The assignments that are false outside a list of names. -/
def assignments : List String → List (String → Bool)
  | [] => [fun _ => false]
  | x :: xs => (assignments xs).flatMap fun v => [v, fun y => y = x || v y]

/-- Every assignment agrees on the names of the list with one of the table. -/
theorem exists_assignment (v : String → Bool) (xs : List String) :
    ∃ w ∈ assignments xs, ∀ x, w x = (decide (x ∈ xs) && v x) := by
  induction xs with
  | nil => exact ⟨fun _ => false, by simp [assignments], by simp⟩
  | cons x xs ih =>
    obtain ⟨w, hw, hagree⟩ := ih
    cases hx : v x with
    | false =>
      refine ⟨w, List.mem_flatMap.mpr ⟨w, hw, by simp⟩, fun y => ?_⟩
      rw [hagree]
      by_cases hy : y = x
      · simp [hy, hx]
      · simp [hy]
    | true =>
      refine ⟨_, List.mem_flatMap.mpr ⟨w, hw, List.mem_cons_of_mem _ List.mem_cons_self⟩,
        fun y => ?_⟩
      rw [hagree]
      by_cases hy : y = x
      · simp [hy, hx]
      · simp [hy]

/-- The names of two formulas, each once: the head of their common truth table. -/
def tableNames (e f : Formula) : List String := (e.names ++ f.names).eraseDups

theorem equivalent_iff_table (e f : Formula) :
    Equivalent e f ↔ ∀ v ∈ assignments (tableNames e f), e.eval v = f.eval v := by
  constructor
  · exact fun h v _ => h v
  · intro h v
    obtain ⟨w, hw, hagree⟩ := exists_assignment v (tableNames e f)
    have hsame : ∀ x ∈ e.names ++ f.names, v x = w x := by
      intro x hx
      have hx' : x ∈ tableNames e f := List.mem_eraseDups.mpr hx
      simp [hagree, hx']
    have he : e.eval v = e.eval w :=
      eval_congr fun x hx => hsame x (List.mem_append_left _ hx)
    have hf : f.eval v = f.eval w :=
      eval_congr fun x hx => hsame x (List.mem_append_right _ hx)
    rw [he, hf, h w hw]

instance (e f : Formula) : Decidable (Equivalent e f) :=
  decidable_of_iff _ (equivalent_iff_table e f).symm

end Formula

end PropCalc

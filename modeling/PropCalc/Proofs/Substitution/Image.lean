/-
  Substitutions seen as functions from names to formulas.

  `image σ x` is what `σ` puts in for `x`; a name that `σ` does not bind goes to itself.
  What instantiation gives depends on the images of the names that occur, and on nothing else.
-/
import PropCalc.Proofs.NameMap.Lookup
import PropCalc.Substitution

namespace PropCalc

/-- What takes the place of a variable. -/
def Substitution.image (σ : Substitution) (x : String) : Formula := (σ.get? x).getD (.var x)

namespace Substitution

variable {σ τ : Substitution} {x : String} {e : Formula}

theorem image_of_bound (h : σ.get? x = some e) : σ.image x = e := by
  unfold image
  rw [h, Option.getD_some]

theorem image_of_unbound (h : σ.get? x = none) : σ.image x = .var x := by
  unfold image
  rw [h, Option.getD_none]

/-- A layer of bindings leaves the images of the names that it does not bind. -/
theorem image_merge_of_unbound (h : τ.get? x = none) : image (σ.merge τ) x = σ.image x := by
  unfold image
  rw [NameMap.get?_merge, h, Option.none_or]

/-- A layer of bindings decides the images of the names that it binds. -/
theorem image_merge_of_bound (h : (τ.get? x).isSome) : image (σ.merge τ) x = τ.image x := by
  obtain ⟨e, he⟩ := Option.isSome_iff_exists.mp h
  unfold image
  rw [NameMap.get?_merge, he, Option.some_or]

/-- A layer of bindings comes first, then those below it, and then the name itself. -/
theorem image_merge (σ τ : Substitution) :
    image (σ.merge τ) = fun x => ((τ.get? x).or (σ.get? x)).getD (.var x) := by
  funext x
  unfold image
  rw [NameMap.get?_merge]

theorem image_insert (σ : Substitution) (x : String) (e : Formula) (y : String) :
    image (σ.insert x e) y = if y = x then e else σ.image y := by
  unfold image
  rw [NameMap.get?_insert]
  split <;> rfl

/-- Under its new name a name has the image it had. -/
theorem image_renameKeys {ρ : String → String} (hρ : Set.InjOn ρ {y | (σ.get? y).isSome})
    (h : (σ.get? x).isSome) : image (σ.renameKeys ρ) (ρ x) = σ.image x := by
  obtain ⟨e, he⟩ := Option.isSome_iff_exists.mp h
  have hrenamed : (σ.renameKeys ρ).get? (ρ x) = some e :=
    (NameMap.get?_renameKeys_eq_some_iff hρ).mpr ⟨x, he, rfl⟩
  rw [image_of_bound he, image_of_bound hrenamed]

/-- `τ` has all the bindings of `σ`. -/
def Extends (τ σ : Substitution) : Prop := ∀ x e, σ.get? x = some e → τ.get? x = some e

theorem Extends.refl (σ : Substitution) : Extends σ σ := fun _ _ h => h

theorem Extends.trans {ρ : Substitution} (h₁ : Extends τ ρ) (h₂ : Extends ρ σ) :
    Extends τ σ :=
  fun x e h => h₁ x e (h₂ x e h)

theorem Extends.image_eq (h : Extends τ σ) (hx : (σ.get? x).isSome) :
    τ.image x = σ.image x := by
  obtain ⟨e, he⟩ := Option.isSome_iff_exists.mp hx
  rw [image_of_bound he, image_of_bound (h x e he)]

theorem extends_insert (h : σ.get? x = none) : Extends (σ.insert x e) σ := by
  intro y f hy
  have hyx : y ≠ x := by
    intro heq
    rw [heq, h] at hy
    exact absurd hy (by simp)
  rw [NameMap.get?_insert, if_neg hyx]
  exact hy

/-- The total function `f` sends every bound name where the substitution does. -/
def Follows (f : String → Formula) (σ : Substitution) : Prop :=
  ∀ x e, σ.get? x = some e → f x = e

theorem follows_empty (f : String → Formula) : Follows f ∅ := by
  intro x e h
  exact absurd h (by simp)

theorem Follows.image_eq {f : String → Formula} (h : Follows f σ) (hx : (σ.get? x).isSome) :
    σ.image x = f x := by
  obtain ⟨e, he⟩ := Option.isSome_iff_exists.mp hx
  rw [image_of_bound he, h x e he]

theorem Follows.insert {f : String → Formula} (h : Follows f σ) : Follows f (σ.insert x (f x)) := by
  intro y e hy
  rw [NameMap.get?_insert] at hy
  by_cases hyx : y = x
  · rw [if_pos hyx] at hy
    rw [hyx]
    exact Option.some.inj hy
  · rw [if_neg hyx] at hy
    exact h y e hy

end Substitution

namespace Formula

variable {σ τ : Substitution}

@[simp] theorem instantiate_var (σ : Substitution) (x : String) :
    (var x).instantiate σ = σ.image x := rfl

@[simp] theorem instantiate_const (σ : Substitution) (b : Bool) :
    (const b).instantiate σ = const b := rfl

@[simp] theorem instantiate_neg (σ : Substitution) (e : Formula) :
    (neg e).instantiate σ = neg (e.instantiate σ) := rfl

@[simp] theorem instantiate_bin (σ : Substitution) (op : Connective) (l r : Formula) :
    (bin op l r).instantiate σ = bin op (l.instantiate σ) (r.instantiate σ) := rfl

/-- The formula with every name replaced as `f` says, all at once. -/
def replaceNames (f : String → Formula) : Formula → Formula
  | var x => f x
  | const b => const b
  | neg e => neg (e.replaceNames f)
  | bin op l r => bin op (l.replaceNames f) (r.replaceNames f)

theorem instantiate_eq_replaceNames (σ : Substitution) (e : Formula) :
    e.instantiate σ = e.replaceNames σ.image := by
  induction e with
  | var x => rfl
  | const b => rfl
  | neg e ih => rw [instantiate_neg, ih, replaceNames]
  | bin op l r ihl ihr => rw [instantiate_bin, ihl, ihr, replaceNames]

/-- Replacing gives the same formula exactly if every name that occurs goes to the same one. -/
theorem replaceNames_eq_replaceNames_iff (e : Formula) {f g : String → Formula} :
    e.replaceNames f = e.replaceNames g ↔ ∀ x ∈ e.names, f x = g x := by
  induction e with
  | var x => simp [replaceNames, names]
  | const b => simp [replaceNames, names]
  | neg e ih => simpa [replaceNames, names] using ih
  | bin op l r ihl ihr =>
    simp only [replaceNames, bin.injEq, true_and, ihl, ihr, names, List.mem_append]
    constructor
    · rintro ⟨hl, hr⟩ x (hx | hx)
      · exact hl x hx
      · exact hr x hx
    · intro h
      exact ⟨fun x hx => h x (.inl hx), fun x hx => h x (.inr hx)⟩

/-- Two substitutions give the same formula exactly if they send every name that occurs to
    the same formula. -/
theorem instantiate_eq_instantiate_iff (e : Formula) :
    e.instantiate σ = e.instantiate τ ↔ ∀ x ∈ e.names, σ.image x = τ.image x := by
  rw [instantiate_eq_replaceNames, instantiate_eq_replaceNames, replaceNames_eq_replaceNames_iff]

theorem instantiate_congr {e : Formula} (h : ∀ x ∈ e.names, σ.image x = τ.image x) :
    e.instantiate σ = e.instantiate τ :=
  e.instantiate_eq_instantiate_iff.mpr h

/-- Replacing once more replaces in what has been put in. -/
theorem replaceNames_replaceNames (f g : String → Formula) (e : Formula) :
    (e.replaceNames f).replaceNames g = e.replaceNames fun x => (f x).replaceNames g := by
  induction e with
  | var x => rfl
  | const b => rfl
  | neg e ih => simp only [replaceNames, ih]
  | bin op l r ihl ihr => simp only [replaceNames, ihl, ihr]

@[simp] theorem replaceNames_var (e : Formula) : e.replaceNames var = e := by
  induction e with
  | var x => rfl
  | const b => rfl
  | neg e ih => rw [replaceNames, ih]
  | bin op l r ihl ihr => rw [replaceNames, ihl, ihr]

/-- Instantiating after replacing instantiates what has been put in. -/
theorem instantiate_replaceNames (σ : Substitution) (f : String → Formula) (e : Formula) :
    (e.replaceNames f).instantiate σ = e.replaceNames fun x => (f x).instantiate σ := by
  simp only [instantiate_eq_replaceNames, replaceNames_replaceNames]

/-- A binding for a name that does not occur changes nothing. -/
theorem instantiate_insert_of_not_mem {e : Formula} {x : String} (hx : x ∉ e.names)
    (σ : Substitution) (f : Formula) : e.instantiate (σ.insert x f) = e.instantiate σ := by
  apply instantiate_congr
  intro y hy
  have hyx : y ≠ x := fun heq => hx (heq ▸ hy)
  rw [Substitution.image_insert, if_neg hyx]

/-- A substitution that sends every name to itself changes nothing. -/
theorem instantiate_eq_self (h : ∀ x, σ.image x = var x) (e : Formula) : e.instantiate σ = e := by
  rw [instantiate_eq_replaceNames, funext h, replaceNames_var]

end Formula

end PropCalc

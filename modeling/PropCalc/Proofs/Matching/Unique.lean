/-
  Matching finds the one substitution that turns the pattern into the subject.

  `extendMatch` threads bindings from left to right. Soundness (`extendMatch_sound`) is said
  for any bindings to start from: the result extends them, binds the names of the pattern
  besides, and instantiates the pattern to the subject. Completeness
  (`extendMatch_complete`) is said for any total function on names that follows the bindings
  to start from. From the empty bindings the two meet in `unify_eq_some_iff`.
-/
import PropCalc.Matching
import PropCalc.Proofs.Substitution.Image

namespace PropCalc.Formula

open Substitution (Extends Follows)

/-! ## One step at a variable -/

theorem extendMatch_var_unbound {x : String} {e : Formula} {σ : Substitution}
    (h : σ.get? x = none) : extendMatch (var x) e σ = some (σ.insert x e) := by
  unfold extendMatch
  rw [h]

theorem extendMatch_var_bound {x : String} {e b : Formula} {σ : Substitution}
    (h : σ.get? x = some b) : extendMatch (var x) e σ = if b = e then some σ else none := by
  unfold extendMatch
  rw [h]

/-! ## Soundness -/

/-- What a match that started from `σ` and ended in `τ` has achieved. -/
structure Matched (p e : Formula) (σ τ : Substitution) : Prop where
  keeps : Extends τ σ
  binds : ∀ x, (τ.get? x).isSome ↔ (σ.get? x).isSome ∨ x ∈ p.names
  gives : p.instantiate τ = e

theorem matched_var_bound {x : String} {e : Formula} {σ : Substitution}
    (h : σ.get? x = some e) : Matched (var x) e σ σ where
  keeps := Extends.refl σ
  binds y := by
    simp only [names, List.mem_singleton]
    constructor
    · exact .inl
    · rintro (hy | hy)
      · exact hy
      · rw [hy, h]
        rfl
  gives := Substitution.image_of_bound h

theorem matched_var_unbound {x : String} {e : Formula} {σ : Substitution}
    (h : σ.get? x = none) : Matched (var x) e σ (σ.insert x e) where
  keeps := Substitution.extends_insert h
  binds y := by
    rw [NameMap.get?_insert, names, List.mem_singleton]
    by_cases hy : y = x <;> simp [hy]
  gives := Substitution.image_of_bound (by simp)

theorem matched_const (b : Bool) (σ : Substitution) : Matched (const b) (const b) σ σ where
  keeps := Extends.refl σ
  binds x := by simp [names]
  gives := rfl

theorem Matched.neg {p e : Formula} {σ τ : Substitution} (h : Matched p e σ τ) :
    Matched p.neg e.neg σ τ where
  keeps := h.keeps
  binds := h.binds
  gives := by rw [instantiate_neg, h.gives]

/-- The bindings that the right side adds do not change what the left side became. -/
theorem Matched.bin {op : Connective} {p q l r : Formula} {σ ρ τ : Substitution}
    (hl : Matched p l σ ρ) (hr : Matched q r ρ τ) :
    Matched (.bin op p q) (.bin op l r) σ τ where
  keeps := hr.keeps.trans hl.keeps
  binds x := by
    rw [hr.binds, hl.binds, names, List.mem_append, or_assoc]
  gives := by
    have hp : p.instantiate τ = p.instantiate ρ := by
      apply instantiate_congr
      intro x hx
      exact hr.keeps.image_eq ((hl.binds x).mpr (.inr hx))
    rw [instantiate_bin, hp, hl.gives, hr.gives]

theorem extendMatch_sound {p e : Formula} {σ τ : Substitution}
    (h : extendMatch p e σ = some τ) : Matched p e σ τ := by
  induction p generalizing e σ τ with
  | var x =>
    cases hx : σ.get? x with
    | none =>
      rw [extendMatch_var_unbound hx] at h
      have hτ : σ.insert x e = τ := Option.some.inj h
      rw [← hτ]
      exact matched_var_unbound hx
    | some b =>
      rw [extendMatch_var_bound hx] at h
      split at h
      · next hb =>
        have hτ : σ = τ := Option.some.inj h
        rw [hb] at hx
        rw [← hτ]
        exact matched_var_bound hx
      · exact absurd h (by simp)
  | const a =>
    cases e with
    | const b =>
      unfold extendMatch at h
      split at h
      · next hab =>
        have hτ : σ = τ := Option.some.inj h
        rw [← hτ, hab]
        exact matched_const b σ
      · exact absurd h (by simp)
    | _ => simp [extendMatch] at h
  | neg p ih =>
    cases e with
    | neg e =>
      have hm : Matched p e σ τ := ih h
      exact hm.neg
    | _ => simp [extendMatch] at h
  | bin op p q ihp ihq =>
    cases e with
    | bin op' l r =>
      unfold extendMatch at h
      split at h
      · next hop =>
        obtain ⟨ρ, hρ, hτ⟩ := Option.bind_eq_some_iff.mp h
        rw [← hop]
        exact (ihp hρ).bin (ihq hτ)
      · exact absurd h (by simp)
    | _ => simp [extendMatch] at h

/-! ## Completeness -/

/-- If a total function on names turns the pattern into the subject and follows the bindings
    to start from, then matching goes through and the function follows its result. -/
theorem extendMatch_complete {p e : Formula} {σ κ : Substitution}
    (hp : p.instantiate κ = e) (hσ : Follows κ.image σ) :
    ∃ τ, extendMatch p e σ = some τ ∧ Follows κ.image τ := by
  induction p generalizing e σ with
  | var x =>
    rw [instantiate_var] at hp
    cases hx : σ.get? x with
    | none =>
      refine ⟨σ.insert x e, extendMatch_var_unbound hx, ?_⟩
      rw [← hp]
      exact hσ.insert
    | some b =>
      have hb : b = e := by
        rw [← hσ x b hx]
        exact hp
      refine ⟨σ, ?_, hσ⟩
      rw [extendMatch_var_bound hx, if_pos hb]
  | const a =>
    subst hp
    refine ⟨σ, ?_, hσ⟩
    simp [extendMatch]
  | neg p ih =>
    subst hp
    exact ih rfl hσ
  | bin op p q ihp ihq =>
    subst hp
    obtain ⟨ρ, hρ, hfρ⟩ := ihp rfl hσ
    obtain ⟨τ, hτ, hfτ⟩ := ihq rfl hfρ
    refine ⟨τ, ?_, hfτ⟩
    simp [extendMatch, hρ, hτ]

/-! ## The whole pattern -/

/-- A match binds exactly the names of the pattern and turns the pattern into the subject. -/
theorem unify_sound {e p : Formula} {σ : Substitution} (h : e.unify p = some σ) :
    (∀ x, (σ.get? x).isSome ↔ x ∈ p.names) ∧ p.instantiate σ = e := by
  have hm := extendMatch_sound h
  refine ⟨fun x => ?_, hm.gives⟩
  rw [hm.binds]
  simp

theorem unify_complete {e p : Formula} {κ : Substitution} (h : p.instantiate κ = e) :
    ∃ τ, e.unify p = some τ ∧ Follows κ.image τ :=
  extendMatch_complete h (Substitution.follows_empty _)

theorem unify_eq_some_iff (e p : Formula) (σ : Substitution) :
    e.unify p = some σ ↔ (∀ x, (σ.get? x).isSome ↔ x ∈ p.names) ∧ p.instantiate σ = e := by
  refine ⟨unify_sound, fun ⟨hbound, hgives⟩ => ?_⟩
  obtain ⟨τ, hτ, hfollows⟩ := unify_complete hgives
  have hsame : τ = σ := by
    apply NameMap.ext_get?
    intro x
    cases hx : τ.get? x with
    | none =>
      have hnot : ¬ (σ.get? x).isSome := by
        rw [hbound, ← (unify_sound hτ).1 x, hx]
        simp
      rw [Option.not_isSome_iff_eq_none.mp hnot]
    | some f =>
      have hnames : x ∈ p.names := ((unify_sound hτ).1 x).mp (by rw [hx]; rfl)
      obtain ⟨g, hg⟩ := Option.isSome_iff_exists.mp ((hbound x).mpr hnames)
      have hgf : g = f := by
        rw [← Substitution.image_of_bound hg]
        exact hfollows x f hx
      rw [hg, hgf]
  rw [hτ, hsame]

theorem unify_eq_none_iff (e p : Formula) :
    e.unify p = none ↔ ∀ σ : Substitution, p.instantiate σ ≠ e := by
  constructor
  · intro hnone σ hσ
    obtain ⟨τ, hτ, -⟩ := unify_complete hσ
    rw [hnone] at hτ
    exact absurd hτ (by simp)
  · intro h
    cases hσ : e.unify p with
    | none => rfl
    | some σ => exact absurd (unify_sound hσ).2 (h σ)

/-- A formula matches itself, and its names go to themselves. -/
theorem unify_self (p : Formula) : ∃ σ, p.unify p = some σ ∧ ∀ x, σ.image x = var x := by
  have hempty : p.instantiate ∅ = p := instantiate_eq_self (fun _ => rfl) p
  obtain ⟨σ, hσ, hfollows⟩ := unify_complete hempty
  refine ⟨σ, hσ, fun x => ?_⟩
  cases hx : σ.get? x with
  | none => exact Substitution.image_of_unbound hx
  | some e => exact hfollows.image_eq (Option.isSome_of_eq_some hx)

/-- Matching is exact: it gives the one substitution that binds the names of the pattern and
    no others and turns the pattern into the subject, and it fails only where no substitution
    at all, whatever it binds, turns the pattern into the subject. -/
theorem unify_exact (e p : Formula) :
    (∀ σ : Substitution, e.unify p = some σ ↔
      (∀ x, (σ.get? x).isSome ↔ x ∈ p.names) ∧ p.instantiate σ = e) ∧
    (e.unify p = none ↔ ∀ σ : Substitution, p.instantiate σ ≠ e) :=
  ⟨unify_eq_some_iff e p, unify_eq_none_iff e p⟩

/-- A name that occurs twice must meet the same formula twice. -/
example : (bin .or (var "x") (var "y")).unify (bin .or (var "p") (var "p")) = none := by decide

end PropCalc.Formula

/-
  A rule sees only what stands where it is used.

  At a position a rule does to what stands there what it does to a whole formula
  (`apply_at_eq_some_iff`), and a whole formula it turns from an instance of the one side into the
  same instance of the other (`apply_root_eq_some_iff`). So two uses at places beside each other can
  be made in either order (`apply_commutes_beside`). They can also where the second place lies
  inside what the first rule has matched with a name that both of its sides have once: there the
  second use only changes what the name is bound to, and after the first use its place has moved to
  where the other side has the name (`apply_commutes_inside`).
-/
import PropCalc.Formula.Canonical
import PropCalc.Proofs.Formula.Instances
import PropCalc.Proofs.Rule.Soundness

namespace PropCalc.Rule

variable {r : Rule} {d : Direction} {o : Oriented} {given : Substitution} {e e' : Formula}

/-! ## What a rule does at a place -/

theorem apply_at_eq_bind (r : Rule) (d : Direction) (p : Path) (given : Substitution)
    (e : Formula) :
    r.apply d (some p) given e =
      (e.subformula p).bind fun f => (r.apply d (some []) given f).bind (e.replaceAt p) := by
  cases ho : r.oriented d with
  | error reason =>
    rw [apply_of_error ho]
    cases e.subformula p with
    | none => rfl
    | some f => rw [Option.bind_some, apply_of_error ho, Option.bind_none]
  | ok o =>
    rw [apply_at ho, Formula.matchAt]
    cases e.subformula p with
    | none => rfl
    | some f =>
      rw [Option.bind_some, Option.bind_some, apply_at ho, Formula.matchAt,
        Formula.subformula_root, Option.bind_some]
      cases f.unify o.pattern with
      | none => rfl
      | some σ =>
        simp only [Option.map_some, Option.bind_some, Oriented.putAt, Formula.replaceAt_root]

/-- At a position a rule does to what stands there what it does to a whole formula. -/
theorem apply_at_eq_some_iff {p : Path} :
    r.apply d (some p) given e = some e' ↔ ∃ f f', e.subformula p = some f ∧
      r.apply d (some []) given f = some f' ∧ e.replaceAt p f' = some e' := by
  simp only [apply_at_eq_bind r d p, Option.bind_eq_some_iff]
  constructor
  · rintro ⟨f, hf, f', hf', he'⟩
    exact ⟨f, f', hf, hf', he'⟩
  · rintro ⟨f, f', hf, hf', he'⟩
    exact ⟨f, hf, f', hf', he'⟩

/-- Below a position a rule does to what stands there what it does further down in it. -/
theorem apply_append_eq_some_iff {p q : Path} :
    r.apply d (some (p ++ q)) given e = some e' ↔ ∃ f f', e.subformula p = some f ∧
      r.apply d (some q) given f = some f' ∧ e.replaceAt p f' = some e' := by
  constructor
  · intro h
    obtain ⟨g, g', hg, hroot, hput⟩ := apply_at_eq_some_iff.mp h
    rw [Formula.subformula_append] at hg
    obtain ⟨f, hf, hg⟩ := Option.bind_eq_some_iff.mp hg
    obtain ⟨_, f', hf₁, hput', he'⟩ := Formula.replaceAt_append_eq_some_iff.mp hput
    obtain rfl := Option.some.inj (hf.symm.trans hf₁)
    exact ⟨f, f', hf, apply_at_eq_some_iff.mpr ⟨g, g', hg, hroot, hput'⟩, he'⟩
  · rintro ⟨f, f', hf, h, he'⟩
    obtain ⟨g, g', hg, hroot, hput⟩ := apply_at_eq_some_iff.mp h
    refine apply_at_eq_some_iff.mpr ⟨g, g', ?_, hroot, ?_⟩
    · rw [Formula.subformula_append, hf, Option.bind_some, hg]
    · exact Formula.replaceAt_append_eq_some_iff.mpr ⟨f, f', hf, hput, he'⟩

/-- Without given bindings a rule turns what its one side matches into the same instance of the
    other side. -/
theorem apply_root_eq_some_iff (ho : r.oriented d = .ok o) :
    r.apply d (some []) ∅ e = some e' ↔
      ∃ σ, e.unify o.pattern = some σ ∧ o.replacement.instantiate σ = e' := by
  rw [apply_at ho, Formula.matchAt, Formula.subformula_root, Option.bind_some]
  cases e.unify o.pattern with
  | none => simp
  | some σ => simp [Oriented.putAt]

/-! ## Two uses beside each other -/

/-- Two uses of rules at places beside each other can be made in either order, and come to the
    same. -/
theorem apply_commutes_beside {r₁ r₂ : Rule} {d₁ d₂ : Direction} {given₁ given₂ : Substitution}
    {p q : Path} (hpq : ¬ p <+: q) (hqp : ¬ q <+: p) {e₁ e₂ : Formula}
    (h₁ : r₁.apply d₁ (some p) given₁ e = some e₁)
    (h₂ : r₂.apply d₂ (some q) given₂ e = some e₂) :
    ∃ result, r₂.apply d₂ (some q) given₂ e₁ = some result ∧
      r₁.apply d₁ (some p) given₁ e₂ = some result := by
  obtain ⟨f, f', hf, hrewrite₁, hput₁⟩ := apply_at_eq_some_iff.mp h₁
  obtain ⟨g, g', hg, hrewrite₂, hput₂⟩ := apply_at_eq_some_iff.mp h₂
  have hg' : e₁.subformula q = some g := by
    rw [Formula.subformula_of_replaceAt_beside hput₁ hpq hqp, hg]
  have hf' : e₂.subformula p = some f := by
    rw [Formula.subformula_of_replaceAt_beside hput₂ hqp hpq, hf]
  have hsome : (e₁.replaceAt q g').isSome := by
    rw [Formula.isSome_replaceAt, hg']
    rfl
  obtain ⟨result, hresult⟩ := Option.isSome_iff_exists.mp hsome
  have hresult' : e₂.replaceAt p f' = some result := by
    rw [← Formula.replaceAt_comm hput₁ hput₂ hpq hqp, hresult]
  exact ⟨result, apply_at_eq_some_iff.mpr ⟨g, g', hg', hrewrite₂, hresult⟩,
    apply_at_eq_some_iff.mpr ⟨f, f', hf', hrewrite₁, hresult'⟩⟩

/-- A double negation beside an implication. -/
def doubleNegationBeside : Formula :=
  .bin .and (.neg (.neg (.var "a"))) (.neg (.bin .implies (.var "b") (.var "c")))

/-- The double negation goes, and the implication is blown up with `d` for the new name. -/
theorem apply_commutes_beside_doubleNegation :
    ¬ [0] <+: [1, 0] ∧ ¬ [1, 0] <+: [0] ∧
    ∃ e₁ e₂ result,
      standard[30].apply .leftToRight (some [0]) ∅ doubleNegationBeside = some e₁ ∧
      standard[17].apply .rightToLeft (some [1, 0]) (.ofList [("B", .var "d")])
        doubleNegationBeside = some e₂ ∧
      standard[17].apply .rightToLeft (some [1, 0]) (.ofList [("B", .var "d")]) e₁ = some result ∧
      standard[30].apply .leftToRight (some [0]) ∅ e₂ = some result ∧
      e₁.text = "a ∧ ¬(b → c)" ∧ e₂.text = "¬¬a ∧ ¬((b → c) ∧ ((b → c) ∨ d))" := by
  have hpq : ¬ [0] <+: [1, 0] := by decide
  have hqp : ¬ [1, 0] <+: [0] := by decide
  have h₁ : standard[30].apply .leftToRight (some [0]) ∅ doubleNegationBeside =
      some (.bin .and (.var "a") (.neg (.bin .implies (.var "b") (.var "c")))) := by
    decide +kernel
  have h₂ : standard[17].apply .rightToLeft (some [1, 0]) (.ofList [("B", .var "d")])
      doubleNegationBeside =
        some (.bin .and (.neg (.neg (.var "a"))) (.neg (.bin .and
          (.bin .implies (.var "b") (.var "c"))
          (.bin .or (.bin .implies (.var "b") (.var "c")) (.var "d"))))) := by
    decide +kernel
  obtain ⟨result, hresult₁, hresult₂⟩ := apply_commutes_beside hpq hqp h₁ h₂
  exact ⟨hpq, hqp, _, _, result, h₁, h₂, hresult₁, hresult₂, by decide +kernel, by decide +kernel⟩

/-! ## One use inside the other -/

/-- Inside what has been put in for a name that occurs once, using a rule changes what the name is
    bound to. -/
theorem apply_inside_eq_some_iff {side : Formula} {v : String} {u p q : Path}
    (hu : side.OccursOnceAt v u) {σ : Substitution}
    (hf : e.subformula p = some (side.instantiate σ)) :
    r.apply d (some (p ++ u ++ q)) given e = some e' ↔ ∃ b,
      r.apply d (some q) given (σ.image v) = some b ∧
        e.replaceAt p (side.instantiate (σ.insert v b)) = some e' := by
  have hv : (side.instantiate σ).subformula u = some (σ.image v) :=
    Formula.subformula_instantiate hu.2 σ
  rw [List.append_assoc]
  constructor
  · intro h
    obtain ⟨_, f', hf₁, hbelow, he'⟩ := apply_append_eq_some_iff.mp h
    obtain rfl := Option.some.inj (hf.symm.trans hf₁)
    obtain ⟨_, b, hv₁, hb, hput⟩ := apply_append_eq_some_iff.mp hbelow
    obtain rfl := Option.some.inj (hv.symm.trans hv₁)
    rw [Formula.replaceAt_instantiate_insert hu] at hput
    obtain rfl := Option.some.inj hput
    exact ⟨b, hb, he'⟩
  · rintro ⟨b, hb, he'⟩
    have hput := Formula.replaceAt_instantiate_insert hu σ b
    exact apply_append_eq_some_iff.mpr
      ⟨_, _, hf, apply_append_eq_some_iff.mpr ⟨_, b, hv, hb, hput⟩, he'⟩

/-- A use of a rule inside what another rule has matched with a name that both of its sides have
    once can be made before the other use or after it, at the place to which the other use takes
    it, and comes to the same. -/
theorem apply_commutes_inside (ho : r.oriented d = .ok o) {v : String} {u w : Path}
    (hu : o.pattern.OccursOnceAt v u) (hw : o.replacement.OccursOnceAt v w)
    {inner : Rule} {d' : Direction} {p q : Path} {e₁ : Formula}
    (houter : r.apply d (some p) ∅ e = some e')
    (hinner : inner.apply d' (some (p ++ u ++ q)) given e = some e₁) :
    ∃ result, r.apply d (some p) ∅ e₁ = some result ∧
      inner.apply d' (some (p ++ w ++ q)) given e' = some result := by
  -- the outer rule turns the instances of one substitution into each other
  obtain ⟨f, _, hf, hroot, hput⟩ := apply_at_eq_some_iff.mp houter
  obtain ⟨σ, hσ, rfl⟩ := (apply_root_eq_some_iff ho).mp hroot
  obtain ⟨hbound, rfl⟩ := (Formula.unify_eq_some_iff f o.pattern σ).mp hσ
  -- the inner rule makes another substitution of it, with `b` for `v`
  obtain ⟨b, hb, hput₁⟩ := (apply_inside_eq_some_iff hu hf).mp hinner
  have hbound₁ : ∀ x, ((σ.insert v b).get? x).isSome ↔ x ∈ o.pattern.names := fun x => by
    rw [NameMap.get?_insert]
    by_cases hx : x = v
    · simp [hx, hu.mem_names]
    · rw [if_neg hx, hbound]
  have hroot₁ : r.apply d (some []) ∅ (o.pattern.instantiate (σ.insert v b)) =
      some (o.replacement.instantiate (σ.insert v b)) :=
    (apply_root_eq_some_iff ho).mpr
      ⟨_, (Formula.unify_eq_some_iff _ _ _).mpr ⟨hbound₁, rfl⟩, rfl⟩
  obtain ⟨result, hresult⟩ :
      ∃ result, e.replaceAt p (o.replacement.instantiate (σ.insert v b)) = some result := by
    rw [← Option.isSome_iff_exists, Formula.isSome_replaceAt, hf]
    rfl
  refine ⟨result, ?_, ?_⟩
  · refine apply_at_eq_some_iff.mpr ⟨_, _, Formula.subformula_of_replaceAt hput₁, hroot₁, ?_⟩
    rw [Formula.replaceAt_of_replaceAt hput₁, hresult]
  · refine (apply_inside_eq_some_iff hw (Formula.subformula_of_replaceAt hput)).mpr ⟨b, hb, ?_⟩
    rw [Formula.replaceAt_of_replaceAt hput, hresult]

/-- A formula to be distributed, with a double negation inside the part that is matched with `B`.
    It has names of the rule itself. -/
def doubleNegationInside : Formula :=
  .neg (.bin .and (.var "C")
    (.bin .or (.bin .implies (.neg (.neg (.var "B"))) (.var "c")) (.var "A")))

/-- The double negation moves from the right to the left of the new disjunction. -/
theorem apply_commutes_inside_doubleNegation :
    standard[4].oriented .leftToRight = .ok
      ⟨.bin .and (.var "A") (.bin .or (.var "B") (.var "C")),
        .bin .or (.bin .and (.var "A") (.var "B")) (.bin .and (.var "A") (.var "C"))⟩ ∧
    ∃ e' e₁ result,
      standard[4].apply .leftToRight (some [0]) ∅ doubleNegationInside = some e' ∧
      standard[30].apply .leftToRight (some [0, 1, 0, 0]) ∅ doubleNegationInside = some e₁ ∧
      standard[4].apply .leftToRight (some [0]) ∅ e₁ = some result ∧
      standard[30].apply .leftToRight (some [0, 0, 1, 0]) ∅ e' = some result ∧
      e'.text = "¬((C ∧ (¬¬B → c)) ∨ (C ∧ A))" ∧ e₁.text = "¬(C ∧ ((B → c) ∨ A))" := by
  have ho : standard[4].oriented .leftToRight = .ok
      ⟨.bin .and (.var "A") (.bin .or (.var "B") (.var "C")),
        .bin .or (.bin .and (.var "A") (.var "B")) (.bin .and (.var "A") (.var "C"))⟩ := by
    decide +kernel
  have houter : standard[4].apply .leftToRight (some [0]) ∅ doubleNegationInside =
      some (.neg (.bin .or
        (.bin .and (.var "C") (.bin .implies (.neg (.neg (.var "B"))) (.var "c")))
        (.bin .and (.var "C") (.var "A")))) := by
    decide +kernel
  have hinner : standard[30].apply .leftToRight (some [0, 1, 0, 0]) ∅ doubleNegationInside =
      some (.neg (.bin .and (.var "C")
        (.bin .or (.bin .implies (.var "B") (.var "c")) (.var "A")))) := by
    decide +kernel
  have hu : (Formula.bin .and (.var "A") (.bin .or (.var "B") (.var "C"))).OccursOnceAt "B"
      [1, 0] := by decide
  have hw : (Formula.bin .or (.bin .and (.var "A") (.var "B"))
      (.bin .and (.var "A") (.var "C"))).OccursOnceAt "B" [0, 1] := by decide
  obtain ⟨result, hresult₁, hresult₂⟩ := apply_commutes_inside ho hu hw houter hinner
  exact ⟨ho, _, _, result, houter, hinner, hresult₁, hresult₂, by decide +kernel,
    by decide +kernel⟩

end PropCalc.Rule

/-
  The standard equivalences of propositional logic, in the order in which they are listed
  and tried.
-/
import PropCalc.Rule.Basic

namespace PropCalc.Rule

/-- The standard equivalences. -/
def standard : List Rule := [
  ⟨"commutativity-and", "Commutativity of AND",
    "𝜑 ∧ 𝜓 ≡ 𝜓 ∧ 𝜑", .commutativity,
    "A ∧ B", "B ∧ A", ["A", "B"]⟩,
  ⟨"commutativity-or", "Commutativity of OR",
    "𝜑 ∨ 𝜓 ≡ 𝜓 ∨ 𝜑", .commutativity,
    "A ∨ B", "B ∨ A", ["A", "B"]⟩,
  ⟨"associativity-and", "Associativity of AND",
    "𝜑 ∧ (𝜓 ∧ 𝜒) ≡ (𝜑 ∧ 𝜓) ∧ 𝜒", .associativity,
    "A ∧ (B ∧ C)", "(A ∧ B) ∧ C", ["A", "B", "C"]⟩,
  ⟨"associativity-or", "Associativity of OR",
    "𝜑 ∨ (𝜓 ∨ 𝜒) ≡ (𝜑 ∨ 𝜓) ∨ 𝜒", .associativity,
    "A ∨ (B ∨ C)", "(A ∨ B) ∨ C", ["A", "B", "C"]⟩,
  ⟨"distributivity-and-over-or", "Distributivity of AND over OR",
    "𝜑 ∧ (𝜓 ∨ 𝜒) ≡ (𝜑 ∧ 𝜓) ∨ (𝜑 ∧ 𝜒)", .distributivity,
    "A ∧ (B ∨ C)", "(A ∧ B) ∨ (A ∧ C)", ["A", "B", "C"]⟩,
  ⟨"distributivity-or-over-and", "Distributivity of OR over AND",
    "𝜑 ∨ (𝜓 ∧ 𝜒) ≡ (𝜑 ∨ 𝜓) ∧ (𝜑 ∨ 𝜒)", .distributivity,
    "A ∨ (B ∧ C)", "(A ∨ B) ∧ (A ∨ C)", ["A", "B", "C"]⟩,
  ⟨"distributivity-and-over-or-right", "Distributivity of AND over OR (Right)",
    "(𝜑 ∨ 𝜓) ∧ 𝜒 ≡ (𝜑 ∧ 𝜒) ∨ (𝜓 ∧ 𝜒)", .distributivity,
    "(A ∨ B) ∧ C", "(A ∧ C) ∨ (B ∧ C)", ["A", "B", "C"]⟩,
  ⟨"distributivity-or-over-and-right", "Distributivity of OR over AND (Right)",
    "(𝜑 ∧ 𝜓) ∨ 𝜒 ≡ (𝜑 ∨ 𝜒) ∧ (𝜓 ∨ 𝜒)", .distributivity,
    "(A ∧ B) ∨ C", "(A ∨ C) ∧ (B ∨ C)", ["A", "B", "C"]⟩,
  ⟨"factoring-and-over-or", "Factoring AND over OR",
    "(𝜑 ∧ 𝜓) ∨ (𝜑 ∧ 𝜒) ≡ 𝜑 ∧ (𝜓 ∨ 𝜒)", .distributivity,
    "(A ∧ B) ∨ (A ∧ C)", "A ∧ (B ∨ C)", ["A", "B", "C"]⟩,
  ⟨"factoring-or-over-and", "Factoring OR over AND",
    "(𝜑 ∨ 𝜓) ∧ (𝜑 ∨ 𝜒) ≡ 𝜑 ∨ (𝜓 ∧ 𝜒)", .distributivity,
    "(A ∨ B) ∧ (A ∨ C)", "A ∨ (B ∧ C)", ["A", "B", "C"]⟩,
  ⟨"de-morgan-and", "De Morgan's Law for AND",
    "¬(𝜑 ∧ 𝜓) ≡ ¬𝜑 ∨ ¬𝜓", .deMorgan,
    "¬(A ∧ B)", "¬A ∨ ¬B", ["A", "B"]⟩,
  ⟨"de-morgan-or", "De Morgan's Law for OR",
    "¬(𝜑 ∨ 𝜓) ≡ ¬𝜑 ∧ ¬𝜓", .deMorgan,
    "¬(A ∨ B)", "¬A ∧ ¬B", ["A", "B"]⟩,
  ⟨"de-morgan-top", "De Morgan for Top",
    "¬⊤ ≡ ⊥", .deMorgan,
    "¬true", "false", []⟩,
  ⟨"de-morgan-bottom", "De Morgan for Bottom",
    "¬⊥ ≡ ⊤", .deMorgan,
    "¬false", "true", []⟩,
  ⟨"implication-definition", "Implication Definition",
    "𝜑 → 𝜓 ≡ ¬𝜑 ∨ 𝜓", .definability,
    "A → B", "¬A ∨ B", ["A", "B"]⟩,
  ⟨"negation-definition", "Negation Definition",
    "¬𝜑 ≡ 𝜑 → ⊥", .definability,
    "¬A", "A → false", ["A"]⟩,
  ⟨"contraposition", "Contraposition",
    "𝜑 → 𝜓 ≡ ¬𝜓 → ¬𝜑", .contraposition,
    "A → B", "¬B → ¬A", ["A", "B"]⟩,
  ⟨"absorption-and", "Absorption for AND",
    "𝜑 ∧ (𝜑 ∨ 𝜓) ≡ 𝜑", .absorption,
    "A ∧ (A ∨ B)", "A", ["A", "B"]⟩,
  ⟨"absorption-or", "Absorption for OR",
    "𝜑 ∨ (𝜑 ∧ 𝜓) ≡ 𝜑", .absorption,
    "A ∨ (A ∧ B)", "A", ["A", "B"]⟩,
  ⟨"idempotence-and", "Idempotence of AND",
    "𝜑 ∧ 𝜑 ≡ 𝜑", .idempotence,
    "A ∧ A", "A", ["A"]⟩,
  ⟨"idempotence-or", "Idempotence of OR",
    "𝜑 ∨ 𝜑 ≡ 𝜑", .idempotence,
    "A ∨ A", "A", ["A"]⟩,
  ⟨"identity-and-top", "Identity for AND with Top",
    "𝜑 ∧ ⊤ ≡ 𝜑 ≡ ⊤ ∧ 𝜑", .identity,
    "A ∧ true", "A", ["A"]⟩,
  ⟨"identity-or-bottom", "Identity for OR with Bottom",
    "𝜑 ∨ ⊥ ≡ 𝜑 ≡ ⊥ ∨ 𝜑", .identity,
    "A ∨ false", "A", ["A"]⟩,
  ⟨"identity-top-implies", "Top Implies Identity",
    "⊤ → 𝜑 ≡ 𝜑", .identity,
    "true → A", "A", ["A"]⟩,
  ⟨"domination-and-bottom", "Domination for AND with Bottom",
    "𝜑 ∧ ⊥ ≡ ⊥ ≡ ⊥ ∧ 𝜑", .domination,
    "A ∧ false", "false", ["A"]⟩,
  ⟨"domination-or-top", "Domination for OR with Top",
    "𝜑 ∨ ⊤ ≡ ⊤ ≡ ⊤ ∨ 𝜑", .domination,
    "A ∨ true", "true", ["A"]⟩,
  ⟨"domination-implies-top", "Domination for Implies with Top",
    "𝜑 → ⊤ ≡ ⊤", .domination,
    "A → true", "true", ["A"]⟩,
  ⟨"domination-bottom-implies", "Domination for Bottom Implies",
    "⊥ → 𝜑 ≡ ⊤", .domination,
    "false → A", "true", ["A"]⟩,
  ⟨"complement-or", "Complement for OR",
    "𝜑 ∨ ¬𝜑 ≡ ⊤", .complement,
    "A ∨ ¬A", "true", ["A"]⟩,
  ⟨"complement-and", "Complement for AND",
    "𝜑 ∧ ¬𝜑 ≡ ⊥", .complement,
    "A ∧ ¬A", "false", ["A"]⟩,
  ⟨"double-negation", "Double Negation",
    "¬¬𝜑 ≡ 𝜑", .doubleNegation,
    "¬¬A", "A", ["A"]⟩]

end PropCalc.Rule

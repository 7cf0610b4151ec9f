/-
  The JSON form of substitutions is read back up to the nesting limit.

  A substitution is one object, so its formulas have one bracket fewer than the text
  (`ofJson_toJson`, `decode_written`). Its entries come in the order of the map, which is that of
  the names' bytes in UTF-8 (`written_entries`).
-/
import PropCalc.Proofs.Json.Derivation
import PropCalc.Proofs.NameMap.Lookup
import PropCalc.Proofs.Text.ByteOrder

namespace PropCalc.Substitution

/-- No binding is higher than this. -/
def WithinHeight (n : Nat) (σ : Substitution) : Prop := ∀ b ∈ σ.entries, b.2.height ≤ n

instance (n : Nat) (σ : Substitution) : Decidable (σ.WithinHeight n) :=
  inferInstanceAs (Decidable (∀ b ∈ σ.entries, b.2.height ≤ n))

theorem withinHeight_iff {n : Nat} {σ : Substitution} :
    σ.WithinHeight n ↔ ∀ x e, σ.get? x = some e → e.height ≤ n := by
  simp only [WithinHeight, Prod.forall, NameMap.get?_eq_some_iff]

/-- A substitution is read back exactly if there is room for the brackets of its formulas. -/
theorem ofJson_toJson (σ : Substitution) (room : Nat) :
    ofJson (room + 2) σ.toJson = if σ.WithinHeight (room / 2) then some σ else none := by
  have hvalues : ∀ x e, (x, e) ∈ σ.entries →
      Formula.ofJson (room + 1) e.toJson = if e.height ≤ room / 2 then some e else none :=
    fun _ e _ => e.ofJson_toJson_of_height room
  have hentries : Json.entriesOf Formula.ofJson (room + 2) σ.toJson =
      if σ.WithinHeight (room / 2) then some σ.entries else none :=
    Json.entriesOf_record hvalues
  unfold ofJson
  rw [hentries]
  split
  · rw [Option.map_some, NameMap.ofList_entries]
  · rfl

theorem decode_written {σ : Substitution} {text : String} (h : text ∈ σ.toJson.written) :
    Json.decodeText ofJson text = if σ.WithinHeight 62 then some σ else none := by
  rw [Json.decodeText_of_mem_written ofJson h]
  exact ofJson_toJson σ 125

/-- A written substitution has one entry for each name that it binds, in the order of the names'
    bytes. -/
theorem written_entries {σ : Substitution} {text : String} (h : text ∈ σ.toJson.written) :
    ∃ entries, Json.parse text = some (.record entries) ∧
      (entries.map (·.1)).Pairwise (fun x y => Text.utf8Bytes x < Text.utf8Bytes y) ∧
      ∀ x v, (x, v) ∈ entries ↔ ∃ e, σ.get? x = some e ∧ e.toJson = v := by
  refine ⟨_, Json.parse_of_mem_written h, ?_, fun x v => ?_⟩
  · rw [List.pairwise_map, List.pairwise_map]
    exact σ.sorted.imp Text.utf8Bytes_lt
  · simp only [List.mem_map, Prod.mk.injEq, Prod.exists, NameMap.get?_eq_some_iff]
    constructor
    · rintro ⟨_, e, he, rfl, rfl⟩
      exact ⟨e, he, rfl⟩
    · rintro ⟨e, he, rfl⟩
      exact ⟨x, e, he, rfl, rfl⟩

end PropCalc.Substitution

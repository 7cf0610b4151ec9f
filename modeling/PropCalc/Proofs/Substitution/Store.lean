/-
  Bindings as a store: what has been bound last holds.

  Bindings are set one at a time, laid over those there are, and loaded from a text in place of
  all others. A change gives each name one binding at most, since of several in a text the last
  one counts, and a load that succeeds takes the bindings of all other names away. So much is said
  of one change in `get?_changed`; along a run it means that a name has the binding that it was
  given last, unless a load has come after it (`get?_changedAll_eq_some_iff`).
  `store_follows_history` adds how many names are bound, what is written and when it can be loaded
  again, and what layers of bindings do to a formula.
-/
import Mathlib.Data.Set.Card
import PropCalc.Proofs.Json.Substitution
import PropCalc.Proofs.Substitution.Image

namespace PropCalc.Substitution

/-- One operation on a store of bindings. -/
inductive Change
  | set (x : String) (e : Formula)
  | merge (overrides : Substitution)
  | load (text : String)

/-- The bindings after a change. A text that cannot be read leaves them as they are. -/
def changed (σ : Substitution) : Change → Substitution
  | .set x e => σ.insert x e
  | .merge overrides => σ.merge overrides
  | .load text => (Json.decodeText ofJson text).getD σ

/-- The bindings after changes, made in turn from none. -/
def changedAll (changes : List Change) : Substitution := changes.foldl changed ∅

/-! ## What the history says -/

/-- The bindings that a text lists, in their order and with repeats, if it can be read. -/
def listed? (text : String) : Option (List (String × Formula)) :=
  Json.decodeText (Json.entriesOf Formula.ofJson) text

namespace Change

/-- What the change binds a name to, if it does. Of several bindings in a text it is the last. -/
def binding? (x : String) : Change → Option Formula
  | .set y e => if x = y then some e else none
  | .merge overrides => overrides.get? x
  | .load text => (listed? text).bind fun bindings => bindings.reverse.lookup x

/-- The change takes the bindings from before away: it loads a text, and the text can be read. -/
def replaces : Change → Bool
  | .load text => (listed? text).isSome
  | _ => false

end Change

/-- The change that has bound the name last has bound it to this formula, and no text has been
    loaded since. -/
def LastBound (changes : List Change) (x : String) (e : Formula) : Prop :=
  ∃ before c after, changes = before ++ c :: after ∧ c.binding? x = some e ∧
    ∀ d ∈ after, d.binding? x = none ∧ d.replaces = false

variable {changes : List Change} {c : Change} {x : String} {e : Formula} {text : String}

theorem not_lastBound_nil : ¬ LastBound [] x e := by
  rintro ⟨before, c, after, h, -⟩
  exact absurd h.symm (by simp)

/-- The latest change decides, unless it leaves the name alone. -/
theorem lastBound_snoc :
    LastBound (changes ++ [c]) x e ↔
      c.binding? x = some e ∨
        c.binding? x = none ∧ c.replaces = false ∧ LastBound changes x e := by
  constructor
  · rintro ⟨before, d, after, h, hd, hafter⟩
    rcases List.eq_nil_or_concat after with rfl | ⟨after, last, rfl⟩
    · obtain ⟨-, rfl⟩ := List.append_singleton_inj.mp h
      exact .inl hd
    · rw [List.concat_eq_append, ← List.cons_append, ← List.append_assoc] at h
      obtain ⟨rfl, rfl⟩ := List.append_singleton_inj.mp h
      obtain ⟨hnone, hkeeps⟩ := hafter c (by simp)
      have hrest : ∀ d ∈ after, d.binding? x = none ∧ d.replaces = false :=
        fun d hd => hafter d (by simp [hd])
      exact .inr ⟨hnone, hkeeps, before, d, after, rfl, hd, hrest⟩
  · rintro (hc | ⟨hnone, hkeeps, before, d, after, rfl, hd, hafter⟩)
    · exact ⟨changes, c, [], rfl, hc, by simp⟩
    · refine ⟨before, d, after ++ [c], by simp, hd, fun d' hd' => ?_⟩
      rcases List.mem_append.mp hd' with hd' | hd'
      · exact hafter d' hd'
      · rw [List.mem_singleton.mp hd']
        exact ⟨hnone, hkeeps⟩

/-! ## One change -/

theorem decode_eq_map_listed? (text : String) :
    Json.decodeText ofJson text = (listed? text).map NameMap.ofList := by
  unfold listed? Json.decodeText ofJson
  cases Json.parse text <;> rfl

theorem changed_of_unreadable (σ : Substitution) (h : Json.decodeText ofJson text = none) :
    σ.changed (.load text) = σ := by
  show (Json.decodeText ofJson text).getD σ = σ
  rw [h, Option.getD_none]

/-- After a change a name has the binding that the change gives it, or else the one it had before,
    if the change keeps that. -/
theorem get?_changed (σ : Substitution) (c : Change) (x : String) :
    (σ.changed c).get? x = (c.binding? x).or (if c.replaces then none else σ.get? x) := by
  cases c with
  | set y e =>
    show (σ.insert y e).get? x = (if x = y then some e else none).or (σ.get? x)
    rw [NameMap.get?_insert]
    split <;> rfl
  | merge overrides => exact NameMap.get?_merge σ overrides x
  | load text =>
    show ((Json.decodeText ofJson text).getD σ).get? x = _
    rw [decode_eq_map_listed?, Change.binding?, Change.replaces]
    cases listed? text with
    | none => rfl
    | some bindings =>
      show (NameMap.ofList bindings).get? x = _
      rw [NameMap.ofList, NameMap.get?_insertAll_eq]
      rfl

/-! ## A run -/

theorem changedAll_snoc (changes : List Change) (c : Change) :
    changedAll (changes ++ [c]) = (changedAll changes).changed c := by
  unfold changedAll
  rw [List.foldl_append]
  rfl

/-- A name has the binding that the history says it was given last. -/
theorem get?_changedAll_eq_some_iff :
    (changedAll changes).get? x = some e ↔ LastBound changes x e := by
  induction changes using List.reverseRecOn with
  | nil => simp [changedAll, not_lastBound_nil]
  | append_singleton changes c ih =>
    rw [changedAll_snoc, get?_changed, lastBound_snoc, ← ih]
    cases c.binding? x with
    | some e' => simp
    | none => cases c.replaces <;> simp

theorem size_eq_ncard (σ : Substitution) : σ.size = {x | ∃ e, σ.get? x = some e}.ncard := by
  have hset : {x | ∃ e, σ.get? x = some e} = ↑σ.keys.toFinset := by
    ext x
    rw [Set.mem_ofPred_eq, List.coe_toFinset, Set.mem_ofPred_eq, NameMap.mem_keys_iff,
      Option.isSome_iff_exists]
  rw [hset, Set.ncard_coe_finset, List.toFinset_card_of_nodup σ.nodup_keys, NameMap.keys,
    List.length_map]
  rfl

/-- However bindings are set, merged and loaded in turn, starting from none: a name has the formula
    that it was bound to last since the last load that succeeded, this load included, and it has
    none if there is no such formula. The size counts the names that have one. A load that fails
    changes nothing. The written text lists each bound name once, in the order of bytes, and loading
    it gives the same bindings if their formulas have heights of at most 62, and fails otherwise.
    Merging is associative, and in a formula merged bindings put in what the upper ones have for a
    name, or else what the lower ones have. -/
theorem store_follows_history :
    (∀ changes : List Change,
      (∀ x e, (changedAll changes).get? x = some e ↔ LastBound changes x e) ∧
      (∀ x, (changedAll changes).get? x = none ↔ ∀ e, ¬ LastBound changes x e) ∧
      (changedAll changes).size = {x | ∃ e, LastBound changes x e}.ncard ∧
      (∀ text, Json.decodeText ofJson text = none →
        changedAll (changes ++ [.load text]) = changedAll changes) ∧
      ∀ text ∈ (changedAll changes).toJson.written,
        (∃ entries, Json.parse text = some (.record entries) ∧
          (entries.map (·.1)).Pairwise (fun x y => Text.utf8Bytes x < Text.utf8Bytes y) ∧
          ∀ x v, (x, v) ∈ entries ↔ ∃ e, LastBound changes x e ∧ e.toJson = v) ∧
        ((∀ x e, LastBound changes x e → e.height ≤ 62) →
          Json.decodeText ofJson text = some (changedAll changes)) ∧
        ((∃ x e, LastBound changes x e ∧ 62 < e.height) →
          Json.decodeText ofJson text = none)) ∧
    (∀ σ τ ρ : Substitution, (σ.merge τ).merge ρ = σ.merge (τ.merge ρ)) ∧
    ∀ (σ τ : Substitution) (e : Formula),
      e.instantiate (σ.merge τ) =
        e.replaceNames fun x => ((τ.get? x).or (σ.get? x)).getD (.var x) := by
  refine ⟨fun changes => ⟨fun x e => get?_changedAll_eq_some_iff, fun x => ?_, ?_,
    fun text htext => ?_, fun text htext => ⟨?_, fun hlow => ?_, fun hhigh => ?_⟩⟩,
    NameMap.merge_assoc, fun σ τ e => ?_⟩
  · simp only [← get?_changedAll_eq_some_iff, Option.eq_none_iff_forall_ne_some, ne_eq]
  · rw [size_eq_ncard]
    simp only [get?_changedAll_eq_some_iff]
  · rw [changedAll_snoc, changed_of_unreadable _ htext]
  · obtain ⟨entries, hparse, hsorted, hentries⟩ := written_entries htext
    simp only [get?_changedAll_eq_some_iff] at hentries
    exact ⟨entries, hparse, hsorted, hentries⟩
  · simp only [← get?_changedAll_eq_some_iff] at hlow
    rw [decode_written htext, if_pos (withinHeight_iff.mpr hlow)]
  · obtain ⟨x, e, hbound, hheight⟩ := hhigh
    rw [← get?_changedAll_eq_some_iff] at hbound
    rw [decode_written htext, if_neg]
    intro hlow
    exact absurd (withinHeight_iff.mp hlow x e hbound) (Nat.not_le.mpr hheight)
  · rw [Formula.instantiate_eq_replaceNames, image_merge]

/-- Of two bindings in a text the later one holds, and what was bound before the load is gone. -/
example : (changedAll [.set "b" (.var "c"),
    .load "\x7b\"a\":\x7b\"Constant\":true\x7d,\"a\":\x7b\"Variable\":\"b\"\x7d\x7d",
    .load "\x7b\"a\":1\x7d"]).entries = [("a", .var "b")] := by
  decide +kernel

end PropCalc.Substitution

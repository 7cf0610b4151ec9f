/-
  The variables of a formula by the family that their names tell.

  `NameKind.Covers` says what the names of each family look like, and a name is classified exactly
  if it looks like that (`ofName?_eq_some_iff`). So `classified` holds the variables that occur and
  look like their family, and `introduced` those of them that a pattern does not have
  (`get?_introduced_eq_some_iff`).
-/
import PropCalc.Formula.Variables
import PropCalc.Proofs.NameMap.Lookup
import PropCalc.Proofs.Parsing.Spelling

namespace PropCalc

namespace NameKind

/-- What the names of a family look like. -/
def Covers : NameKind → List Char → Prop
  | greek, cs => ∃ c rest, cs = c :: rest ∧ Name.isGreek c = true
  | ascii, cs => Name.IsMark cs
  | pattern, cs => ∃ c, cs = [c] ∧ c.isUpper = true

/-- No capital ASCII letter is Greek. -/
theorem isGreek_of_isUpper {c : Char} (h : c.isUpper = true) : Name.isGreek c = false := by
  have hbounds : 65 ≤ c.toNat ∧ c.toNat ≤ 90 := of_decide_eq_true h
  simp only [Name.isGreek, Bool.or_eq_false_iff, Bool.and_eq_false_iff, decide_eq_false_iff_not]
  omega

theorem ofChars_of_covers {cs : List Char} {kind : NameKind} (h : kind.Covers cs) :
    ofChars cs = some kind := by
  cases kind with
  | greek =>
    obtain ⟨c, rest, rfl, hc⟩ := h
    simp [ofChars, hc]
  | ascii =>
    obtain ⟨c, rfl, hc⟩ := h
    have hquestion : Name.isGreek '?' = false := by decide
    simp [ofChars, hquestion, hc]
  | pattern =>
    obtain ⟨c, rfl, hc⟩ := h
    simp [ofChars, isGreek_of_isUpper hc, hc]

theorem covers_of_ofChars {cs : List Char} {kind : NameKind} :
    ofChars cs = some kind → kind.Covers cs := by
  fun_cases ofChars cs with
  | case2 c rest hgreek =>
    intro h
    rw [← Option.some.inj h]
    exact ⟨c, rest, rfl, hgreek⟩
  | case3 c _ hupper =>
    intro h
    rw [← Option.some.inj h]
    exact ⟨c, rfl, hupper⟩
  | case5 c _ d hmark =>
    intro h
    rw [Bool.and_eq_true, decide_eq_true_eq] at hmark
    rw [← Option.some.inj h, hmark.1]
    exact ⟨d, rfl, hmark.2⟩
  | case1 | case4 | case6 | case7 => exact nofun

theorem ofName?_eq_some_iff {name : String} {kind : NameKind} :
    ofName? name = some kind ↔ kind.Covers name.toList :=
  ⟨covers_of_ofChars, ofChars_of_covers⟩

end NameKind

namespace Formula

variable {x : String} {kind : NameKind}

theorem mem_varNames_iff {e : Formula} : x ∈ e.varNames ↔ x ∈ e.names := by
  rw [varNames, NameMap.mem_keys_iff, NameMap.isSome_get?_ofList_iff]
  simp

theorem distinct_classified (e : Formula) :
    NameMap.Distinct
      (e.varNames.filterMap fun x => (NameKind.ofName? x).map fun kind => (x, kind)) := by
  unfold NameMap.Distinct
  rw [List.pairwise_filterMap]
  apply (NameMap.nodup_keys _).imp
  intro x y hne a ha b hb
  obtain ⟨_, -, rfl⟩ := Option.map_eq_some_iff.mp ha
  obtain ⟨_, -, rfl⟩ := Option.map_eq_some_iff.mp hb
  exact hne

/-- The classified variables are those that occur and look like their family. -/
theorem get?_classified_eq_some_iff {e : Formula} :
    e.classified.get? x = some kind ↔ x ∈ e.names ∧ kind.Covers x.toList := by
  rw [classified, NameMap.get?_ofList_eq_some_iff e.distinct_classified, List.mem_filterMap,
    ← NameKind.ofName?_eq_some_iff]
  constructor
  · intro ⟨y, hy, hkind⟩
    obtain ⟨_, hfamily, heq⟩ := Option.map_eq_some_iff.mp hkind
    obtain ⟨rfl, rfl⟩ := Prod.mk.inj heq
    exact ⟨mem_varNames_iff.mp hy, hfamily⟩
  · intro ⟨hx, hfamily⟩
    refine ⟨x, mem_varNames_iff.mpr hx, ?_⟩
    rw [hfamily, Option.map_some]

theorem get?_introduced_eq_some_iff {pattern replacement : Formula} :
    (introduced pattern replacement).get? x = some kind ↔
      x ∈ replacement.names ∧ x ∉ pattern.names ∧ kind.Covers x.toList := by
  rw [introduced, NameMap.get?_filter_eq_some_iff, get?_classified_eq_some_iff]
  simp only [Bool.not_eq_true', List.contains_eq_mem, decide_eq_false_iff_not]
  constructor
  · intro ⟨⟨hx, hfamily⟩, hnew⟩
    exact ⟨hx, hnew, hfamily⟩
  · intro ⟨hx, hnew, hfamily⟩
    exact ⟨⟨hx, hfamily⟩, hnew⟩

end Formula

end PropCalc

/-
  A catalog is valid if its ids differ and all its rules are well formed.

  The check goes through the rules with the ids that it has seen. It passes exactly if no rule has
  a seen id, no two rules have the same one and both sides of each rule are formulas
  (`checkRules_eq_ok_iff`, `validate_eq_ok_iff`). Else it stops at the first rule that is refused,
  and reports what is wrong with that one: its id before its left side, and that before its right
  side (`checkRules_eq_error_iff`). So it is known of any list of rules whether it makes a catalog
  and what is reported if not; in a catalog that validates, each rule is found by its id and can be
  oriented (`validation_exact`).
-/
import Mathlib.Order.Bounds.Defs
import PropCalc.Proofs.Rule.WellFormed
import PropCalc.Rule.Catalog

namespace PropCalc.Catalog

/-! ## Catalogs that pass -/

variable {c : Catalog} {r : Rule}

theorem checkRules_cons (seen : List String) (r : Rule) (rs : List Rule) :
    checkRules seen (r :: rs) = .ok () ↔
      r.id ∉ seen ∧ r.check = .ok () ∧ checkRules (r.id :: seen) rs = .ok () := by
  rw [checkRules]
  by_cases hid : r.id ∈ seen
  · simp [hid]
  · cases hr : r.check <;> simp [hid]

theorem checkRules_eq_ok_iff {seen : List String} {rs : List Rule} :
    checkRules seen rs = .ok () ↔
      (∀ r ∈ rs, r.id ∉ seen) ∧ (rs.map (·.id)).Nodup ∧ ∀ r ∈ rs, r.check = .ok () := by
  induction rs generalizing seen with
  | nil => simp [checkRules]
  | cons r rs ih =>
    rw [checkRules_cons, ih, List.map_cons, List.nodup_cons, List.forall_mem_cons,
      List.forall_mem_cons]
    -- a later rule must not have the id of this one: asked of each of them, or of the list of ids
    have hlater : r.id ∉ rs.map (·.id) ↔ ∀ s ∈ rs, s.id ≠ r.id := by
      simp [List.mem_map]
    rw [hlater]
    simp only [List.mem_cons, not_or]
    constructor
    · rintro ⟨hid, hr, hrest, hnodup, hall⟩
      exact ⟨⟨hid, fun s hs => (hrest s hs).2⟩, ⟨fun s hs => (hrest s hs).1, hnodup⟩, hr, hall⟩
    · rintro ⟨⟨hid, hseen⟩, ⟨hne, hnodup⟩, hr, hall⟩
      exact ⟨hid, hr, fun s hs => ⟨hne s hs, hseen s hs⟩, hnodup, hall⟩

theorem validate_eq_ok_iff :
    c.validate = .ok () ↔ (c.rules.map (·.id)).Nodup ∧ ∀ r ∈ c.rules, r.check = .ok () := by
  unfold validate
  rw [checkRules_eq_ok_iff]
  simp

/-- Where ids differ, a rule is found by its id. -/
theorem get?_of_mem (hids : (c.rules.map (·.id)).Nodup) (hr : r ∈ c.rules) :
    c.get? r.id = some r := by
  obtain ⟨rules⟩ := c
  unfold get?
  induction rules with
  | nil => cases hr
  | cons s rs ih =>
    rw [List.map_cons, List.nodup_cons] at hids
    rcases List.mem_cons.mp hr with rfl | hr
    · rw [List.find?_cons_of_pos (by simp)]
    · have hne : s.id ≠ r.id := by
        intro heq
        exact hids.1 (heq ▸ List.mem_map_of_mem hr)
      rw [List.find?_cons_of_neg (by simpa using hne), ih hids.2 hr]

/-! ## What is reported -/

variable {ids : List String} {rs : List Rule} {fault : CatalogFault}

/-- What is wrong with a rule that follows rules with these ids: one of them is its own, else its
    left side is no formula, else its right side is none. -/
inductive FaultAfter (ids : List String) (r : Rule) : CatalogFault → Prop
  | duplicate (hid : r.id ∈ ids) : FaultAfter ids r (.duplicateId r.id)
  | left {reason : ParseError} (hid : r.id ∉ ids)
      (hleft : Formula.parse r.left = .error reason) :
      FaultAfter ids r (.malformedPattern r.id reason)
  | right {left : Formula} {reason : ParseError} (hid : r.id ∉ ids)
      (hleft : Formula.parse r.left = .ok left) (hright : Formula.parse r.right = .error reason) :
      FaultAfter ids r (.malformedPattern r.id reason)

/-- The rule cannot follow rules with these ids. -/
def Refused (ids : List String) (r : Rule) : Prop := r.id ∈ ids ∨ ¬ r.WellFormed

theorem faultAfter_of_mem (hid : r.id ∈ ids) :
    FaultAfter ids r fault ↔ fault = .duplicateId r.id := by
  constructor
  · intro h
    cases h with
    | duplicate => rfl
    | left hnew => exact absurd hid hnew
    | right hnew => exact absurd hid hnew
  · rintro rfl
    exact .duplicate hid

theorem faultAfter_of_not_mem (hid : r.id ∉ ids) :
    FaultAfter ids r fault ↔
      ∃ reason, r.check = .error reason ∧ fault = .malformedPattern r.id reason := by
  simp only [Rule.check_eq_error_iff]
  constructor
  · intro h
    cases h with
    | duplicate hold => exact absurd hold hid
    | left _ hleft => exact ⟨_, .inl hleft, rfl⟩
    | right _ hleft hright => exact ⟨_, .inr ⟨_, hleft, hright⟩, rfl⟩
  · rintro ⟨reason, hleft | ⟨left, hleft, hright⟩, rfl⟩
    · exact .left hid hleft
    · exact .right hid hleft hright

/-- A rule is refused exactly if something is wrong with it. -/
theorem exists_faultAfter_iff : (∃ fault, FaultAfter ids r fault) ↔ Refused ids r := by
  unfold Refused
  by_cases hid : r.id ∈ ids
  · simp [faultAfter_of_mem hid, hid]
  · rw [← Rule.check_eq_ok_iff]
    cases hr : r.check <;> simp [faultAfter_of_not_mem hid, hid, hr]

/-- The check stops at the first rule, or passes it and stops at one of the others. -/
theorem checkRules_cons_eq_error_iff :
    checkRules ids (r :: rs) = .error fault ↔
      FaultAfter ids r fault ∨ ¬ Refused ids r ∧ checkRules (r.id :: ids) rs = .error fault := by
  rw [checkRules]
  by_cases hid : r.id ∈ ids
  · simp [faultAfter_of_mem hid, hid, Refused, eq_comm]
  · unfold Refused
    rw [← Rule.check_eq_ok_iff]
    cases hr : r.check <;> simp [faultAfter_of_not_mem hid, hid, hr, eq_comm]

theorem FaultAfter.congr {ids' : List String} (hids : r.id ∈ ids ↔ r.id ∈ ids') :
    FaultAfter ids r fault ↔ FaultAfter ids' r fault := by
  by_cases hid : r.id ∈ ids
  · rw [faultAfter_of_mem hid, faultAfter_of_mem (hids.mp hid)]
  · rw [faultAfter_of_not_mem hid, faultAfter_of_not_mem (hids.not.mp hid)]

theorem Refused.congr {ids' : List String} (hids : r.id ∈ ids ↔ r.id ∈ ids') :
    Refused ids r ↔ Refused ids' r :=
  or_congr_left hids

/-- The check stops at the first rule that is refused after the ids of those before it. -/
theorem checkRules_eq_error_iff :
    checkRules ids rs = .error fault ↔
      ∃ i r, rs[i]? = some r ∧ FaultAfter (ids ++ (rs.take i).map (·.id)) r fault ∧
        ∀ j < i, ∀ s, rs[j]? = some s → ¬ Refused (ids ++ (rs.take j).map (·.id)) s := by
  induction rs generalizing ids with
  | nil => simp [checkRules]
  | cons r rs ih =>
    -- the check has the id of the first rule in front of the others
    have hswap : ∀ (i : Nat) (x : String),
        x ∈ ids ++ ((r :: rs).take (i + 1)).map (·.id) ↔
          x ∈ r.id :: ids ++ (rs.take i).map (·.id) := by
      intro i x
      simp only [List.take_succ_cons, List.map_cons, List.mem_append, List.mem_cons]
      tauto
    rw [checkRules_cons_eq_error_iff, ih]
    constructor
    · rintro (hfault | ⟨hpassed, i, s, hs, hfault, hbefore⟩)
      · exact ⟨0, r, rfl, by simpa using hfault, by simp⟩
      · refine ⟨i + 1, s, hs, (FaultAfter.congr (hswap i s.id)).mpr hfault, ?_⟩
        intro j hj t ht
        cases j with
        | zero =>
          obtain rfl : r = t := Option.some.inj ht
          simpa using hpassed
        | succ j => exact (Refused.congr (hswap j t.id)).not.mpr (hbefore j (by omega) t ht)
    · rintro ⟨i, s, hs, hfault, hbefore⟩
      cases i with
      | zero =>
        obtain rfl : r = s := Option.some.inj hs
        exact .inl (by simpa using hfault)
      | succ i =>
        right
        refine ⟨by simpa using hbefore 0 (by omega) r rfl, i, s, hs,
          (FaultAfter.congr (hswap i s.id)).mp hfault, ?_⟩
        intro j hj t ht
        exact (Refused.congr (hswap j t.id)).not.mp (hbefore (j + 1) (by omega) t ht)

theorem ofRules_eq_ok_iff {rules : List Rule} {c : Catalog} :
    ofRules rules = .ok c ↔
      c.rules = rules ∧ (rules.map (·.id)).Nodup ∧ ∀ r ∈ rules, r.WellFormed := by
  have hvalid := validate_eq_ok_iff (c := ⟨rules⟩)
  simp only [Rule.check_eq_ok_iff] at hvalid
  rw [← hvalid, and_comm]
  obtain ⟨rules'⟩ := c
  unfold ofRules
  cases validate ⟨rules⟩ <;> simp [Except.map, eq_comm]

theorem ofRules_eq_error_iff {rules : List Rule} :
    ofRules rules = .error fault ↔ ∃ i r,
      IsLeast {j | ∃ s, rules[j]? = some s ∧ Refused ((rules.take j).map (·.id)) s} i ∧
      rules[i]? = some r ∧ FaultAfter ((rules.take i).map (·.id)) r fault := by
  have hvalid : ofRules rules = .error fault ↔ checkRules [] rules = .error fault := by
    unfold ofRules validate
    cases checkRules [] rules <;> simp [Except.map]
  rw [hvalid, checkRules_eq_error_iff]
  simp only [List.nil_append]
  constructor
  · rintro ⟨i, r, hr, hfault, hbefore⟩
    refine ⟨i, r, ⟨⟨r, hr, exists_faultAfter_iff.mp ⟨fault, hfault⟩⟩, ?_⟩, hr, hfault⟩
    rintro j ⟨s, hs, hrefused⟩
    by_contra hj
    exact hbefore j (by omega) s hs hrefused
  · rintro ⟨i, r, ⟨-, hleast⟩, hr, hfault⟩
    refine ⟨i, r, hr, hfault, ?_⟩
    intro j hj s hs hrefused
    have hij : i ≤ j := hleast ⟨s, hs, hrefused⟩
    omega

/-- Validation is exact. Rules make a catalog exactly if their ids are distinct and the two sides
    of each are formulas. If not, the report is about the first rule that has the id of an earlier
    one or a side that is no formula: it is the id if an earlier rule has it, else what is wrong
    with the left side, or, if that is a formula, with the right one. In a catalog that validates
    looking up the id of a rule gives this rule, and each rule can be oriented in both directions. -/
theorem validation_exact :
    (∀ rules,
      (∀ c, ofRules rules = .ok c ↔
        c.rules = rules ∧ (rules.map (·.id)).Nodup ∧ ∀ r ∈ rules, r.WellFormed) ∧
      ∀ fault, ofRules rules = .error fault ↔ ∃ i r,
        IsLeast {j | ∃ s, rules[j]? = some s ∧
          (s.id ∈ (rules.take j).map (·.id) ∨ ¬ s.WellFormed)} i ∧
        rules[i]? = some r ∧ FaultAfter ((rules.take i).map (·.id)) r fault) ∧
    ∀ c : Catalog, c.validate = .ok () → ∀ r ∈ c.rules,
      c.get? r.id = some r ∧
      ∃ left right, r.oriented .leftToRight = .ok ⟨left, right⟩ ∧
        r.oriented .rightToLeft = .ok ⟨right, left⟩ := by
  refine ⟨fun rules => ⟨fun c => ofRules_eq_ok_iff, fun fault => ofRules_eq_error_iff⟩, ?_⟩
  intro c hc r hr
  obtain ⟨hids, hall⟩ := validate_eq_ok_iff.mp hc
  obtain ⟨⟨left, hl⟩, right, hright⟩ := Rule.check_eq_ok_iff.mp (hall r hr)
  exact ⟨get?_of_mem hids hr, left, right,
    Rule.oriented_eq_ok_iff.mpr ⟨left, right, hl, hright, rfl⟩,
    Rule.oriented_eq_ok_iff.mpr ⟨left, right, hl, hright, rfl⟩⟩

/-- The second rule has the id of the first and a bad side, and the third has two bad sides. -/
example :
    ofRules [⟨"a", "", "", .identity, "A", "A", []⟩, ⟨"a", "", "", .identity, "A", "(", []⟩,
      ⟨"b", "", "", .identity, "(", ")", []⟩] = .error (.duplicateId "a") := by
  decide +kernel

end PropCalc.Catalog

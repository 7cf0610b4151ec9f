/-
  The list of applications is what can be done, each thing once.

  Using a rule at a position leads to one application at most (`Rule.applicationAt?`), and the
  applications of a rule are those at the positions of the formula, in pre-order
  (`Rule.applications_eq_filterMap`). Dropping repeats keeps one application for each key
  (`count_key_distinct`) and drops nothing where the rules have distinct ids
  (`Catalog.applications_eq_listed`).
-/
import Mathlib.Data.List.Nodup
import PropCalc.Application
import PropCalc.Proofs.Rule.Soundness

namespace PropCalc

/-! ## Dropping repeats -/

namespace Application

variable {a : Application} {l : List Application}

theorem mem_of_mem_distinct (h : a ∈ distinct l) : a ∈ l := by
  induction l with
  | nil => simp [distinct] at h
  | cons b rest ih =>
    unfold distinct at h
    rcases List.mem_cons.mp h with rfl | h
    · exact List.mem_cons_self
    · exact List.mem_cons_of_mem _ (ih (List.mem_filter.mp h).1)

/-- Of each application that is dropped one with the same key is kept. -/
theorem exists_mem_distinct (h : a ∈ l) : ∃ b ∈ distinct l, b.key = a.key := by
  induction l with
  | nil => cases h
  | cons c rest ih =>
    rw [distinct]
    by_cases hkey : a.key = c.key
    · exact ⟨c, List.mem_cons_self, hkey.symm⟩
    · rcases List.mem_cons.mp h with rfl | h
      · exact absurd rfl hkey
      · obtain ⟨b, hb, hba⟩ := ih h
        have hbc : b.key ≠ c.key := by
          rw [hba]
          exact hkey
        refine ⟨b, List.mem_cons_of_mem _ (List.mem_filter.mpr ⟨hb, ?_⟩), hba⟩
        exact decide_eq_true hbc

theorem pairwise_distinct (l : List Application) :
    (distinct l).Pairwise fun a b => a.key ≠ b.key := by
  induction l with
  | nil => exact .nil
  | cons c rest ih =>
    rw [distinct, List.pairwise_cons]
    refine ⟨fun b hb => ?_, ih.filter _⟩
    have hne : b.key ≠ c.key := of_decide_eq_true (List.mem_filter.mp hb).2
    exact hne.symm

/-- Nothing is dropped where all keys differ. -/
theorem distinct_of_pairwise (h : l.Pairwise fun a b => a.key ≠ b.key) : distinct l = l := by
  induction l with
  | nil => rfl
  | cons c rest ih =>
    obtain ⟨hc, hrest⟩ := List.pairwise_cons.mp h
    rw [distinct, ih hrest, List.filter_eq_self.mpr]
    exact fun b hb => decide_eq_true (hc b hb).symm

/-- Each key that is there is kept exactly once. -/
theorem count_key_distinct (h : a ∈ l) : ((distinct l).map key).count a.key = 1 := by
  apply List.count_eq_one_of_mem
  · rw [List.nodup_iff_pairwise_ne, List.pairwise_map]
    exact pairwise_distinct l
  · obtain ⟨b, hb, hkey⟩ := exists_mem_distinct h
    rw [← hkey]
    exact List.mem_map_of_mem hb

end Application

/-! ## The application at a position -/

namespace Rule

variable {r : Rule} {d : Direction} {e : Formula} {p : Path} {a : Application}

/-- The application that using the rule at a position amounts to: it is described by what stands
    there before and after, and previewed by the whole formula after. -/
def applicationAt? (r : Rule) (d : Direction) (e : Formula) (p : Path) : Option Application :=
  (r.apply d (some p) ∅ e).bind fun result =>
    (e.subformula p).bind fun old =>
      (result.subformula p).map fun new =>
        { rule := r
          direction := d
          position := p
          description := old.text ++ " → " ++ new.text
          preview := result.text }

theorem applicationAt?_eq_some_iff :
    r.applicationAt? d e p = some a ↔
      ∃ result old new, r.apply d (some p) ∅ e = some result ∧ e.subformula p = some old ∧
        result.subformula p = some new ∧
        a = ⟨r, d, p, old.text ++ " → " ++ new.text, result.text⟩ := by
  simp only [applicationAt?, Option.bind_eq_some_iff, Option.map_eq_some_iff]
  constructor
  · rintro ⟨result, hresult, old, hold, new, hnew, rfl⟩
    exact ⟨result, old, new, hresult, hold, hnew, rfl⟩
  · rintro ⟨result, old, new, hresult, hold, hnew, rfl⟩
    exact ⟨result, hresult, old, hold, new, hnew, rfl⟩

theorem fields_of_applicationAt? (h : r.applicationAt? d e p = some a) :
    a.rule = r ∧ a.direction = d ∧ a.position = p := by
  obtain ⟨_, _, _, -, -, -, rfl⟩ := applicationAt?_eq_some_iff.mp h
  exact ⟨rfl, rfl, rfl⟩

/-- The rule's side that the direction looks for matches at the position. -/
def matchesAt (r : Rule) (d : Direction) (e : Formula) (p : Path) : Bool :=
  match r.oriented d with
  | .ok o => (e.matchAt o.pattern p).isSome
  | .error _ => false

/-- Where a rule matches it can be used, and nowhere else. -/
theorem isSome_apply_at (given : Substitution) :
    (r.apply d (some p) given e).isSome = r.matchesAt d e p := by
  unfold matchesAt
  cases ho : r.oriented d with
  | error err => rw [apply_of_error ho]; rfl
  | ok o =>
    show (r.apply d (some p) given e).isSome = (e.matchAt o.pattern p).isSome
    rw [apply_at ho]
    cases hm : e.matchAt o.pattern p with
    | none => rfl
    | some m =>
      obtain ⟨rfl, hholds⟩ := Formula.matchAt_eq_some_iff.mp hm
      rw [Option.bind_some, o.isSome_putAt hholds]
      rfl

/-- What is used at a match is the application at its position. -/
theorem applicationAt?_of_oriented {o : Oriented} (ho : r.oriented d = .ok o) :
    r.applicationAt? d e p = (e.matchAt o.pattern p).bind (Application.ofMatch? r d o e) := by
  unfold applicationAt?
  rw [apply_at ho]
  cases hm : e.matchAt o.pattern p with
  | none => rfl
  | some m =>
    obtain ⟨rfl, hholds⟩ := Formula.matchAt_eq_some_iff.mp hm
    rw [Option.bind_some, Option.bind_some, NameMap.merge_empty, Application.ofMatch?]
    cases hput : o.putAt e m.position m.substitution with
    | none => rfl
    | some result =>
      -- the list describes the two sides of the rule, and these are what stands there
      have hnew := Formula.subformula_of_replaceAt hput
      rw [Option.bind_some, hholds.subformula, Option.bind_some, hnew]
      rfl

/-- The applications of a rule are those at each position, in pre-order. -/
theorem applications_eq_filterMap (r : Rule) (d : Direction) (e : Formula) :
    r.applications d e = e.positions.filterMap (r.applicationAt? d e) := by
  unfold applications
  cases ho : r.oriented d with
  | error err =>
    rw [List.filterMap_eq_nil_iff.mpr]
    intro p _
    rw [applicationAt?, apply_of_error ho]
    rfl
  | ok o =>
    show (e.allMatches o.pattern).filterMap (Application.ofMatch? r d o e) = _
    rw [Formula.allMatches_eq_filterMap, List.filterMap_filterMap]
    apply List.filterMap_congr
    intro p _
    rw [applicationAt?_of_oriented ho]

theorem mem_applications_iff :
    a ∈ r.applications d e ↔ r.applicationAt? d e a.position = some a := by
  rw [applications_eq_filterMap, List.mem_filterMap]
  constructor
  · rintro ⟨p, -, ha⟩
    rw [(fields_of_applicationAt? ha).2.2]
    exact ha
  · intro ha
    obtain ⟨_, old, _, -, hold, -, -⟩ := applicationAt?_eq_some_iff.mp ha
    exact ⟨a.position, Formula.mem_positions_iff.mpr ⟨old, hold⟩, ha⟩

theorem exists_applicationAt? {result : Formula} (h : r.apply d (some p) ∅ e = some result) :
    ∃ a, r.applicationAt? d e p = some a ∧ a.key = (r.id, d, p, result.text) := by
  obtain ⟨o, m, -, hm, hposition, hput⟩ := apply_eq_some h
  obtain rfl := hposition p rfl
  have hnew := Formula.subformula_of_replaceAt hput
  exact ⟨_, applicationAt?_eq_some_iff.mpr ⟨result, _, _, h, hm.subformula, hnew, rfl⟩, rfl⟩

/-- There is one application of a rule for each position where it matches. -/
theorem map_applications (r : Rule) (d : Direction) (e : Formula) :
    (r.applications d e).map (fun a => (a.rule, a.direction, a.position)) =
      (e.positions.filter (r.matchesAt d e)).map fun p => (r, d, p) := by
  rw [applications_eq_filterMap, List.map_filterMap, ← List.filterMap_eq_map,
    List.filterMap_filter]
  apply List.filterMap_congr
  intro p _
  rw [← isSome_apply_at ∅]
  cases happly : r.apply d (some p) ∅ e with
  | none =>
    rw [applicationAt?, happly]
    rfl
  | some result =>
    obtain ⟨a, ha, -⟩ := exists_applicationAt? happly
    obtain ⟨hr, hd, hp⟩ := fields_of_applicationAt? ha
    rw [ha, Option.map_some, hr, hd, hp]
    rfl

theorem pairwise_applications (r : Rule) (d : Direction) (e : Formula) :
    (r.applications d e).Pairwise fun a b => a.key ≠ b.key := by
  rw [applications_eq_filterMap, List.pairwise_filterMap]
  have hpositions := List.nodup_iff_pairwise_ne.mp e.nodup_positions
  refine hpositions.imp fun hne a ha b hb heq => ?_
  simp only [Application.key, Prod.mk.injEq] at heq
  rw [(fields_of_applicationAt? ha).2.2, (fields_of_applicationAt? hb).2.2] at heq
  exact hne heq.2.2.1

theorem of_mem_applications (h : a ∈ r.applications d e) : a.rule = r ∧ a.direction = d := by
  obtain ⟨hr, hd, -⟩ := fields_of_applicationAt? (mem_applications_iff.mp h)
  exact ⟨hr, hd⟩

end Rule

/-! ## The applications of a catalog -/

namespace Catalog

/-- The applications of all rules in order, each from left to right and then from right to left,
    with repeats. -/
def listed (c : Catalog) (e : Formula) : List Application :=
  c.rules.flatMap fun r => Direction.both.flatMap fun d => r.applications d e

variable {c : Catalog} {e : Formula}

theorem mem_listed_iff {a : Application} :
    a ∈ c.listed e ↔ ∃ r ∈ c.rules, ∃ d, a ∈ r.applications d e := by
  simp only [listed, List.mem_flatMap]
  constructor
  · rintro ⟨r, hr, d, -, ha⟩
    exact ⟨r, hr, d, ha⟩
  · rintro ⟨r, hr, d, ha⟩
    exact ⟨r, hr, d, d.mem_both, ha⟩

/-- A catalog lists applications of its own rules. -/
theorem rule_mem_of_mem_applications {a : Application} (h : a ∈ c.applications e) :
    a.rule ∈ c.rules := by
  obtain ⟨r, hr, d, ha⟩ := mem_listed_iff.mp (Application.mem_of_mem_distinct h)
  rw [(Rule.of_mem_applications ha).1]
  exact hr

/-- Rules with distinct ids have no application with the same key, nor have the two directions of
    a rule. -/
theorem pairwise_listed (h : (c.rules.map (·.id)).Nodup) :
    (c.listed e).Pairwise fun a b => a.key ≠ b.key := by
  have hrules := List.pairwise_map.mp (List.nodup_iff_pairwise_ne.mp h)
  have hboth : Direction.both.Pairwise (· ≠ ·) := by decide
  -- keys differ in the id, or else in the direction, or else in the position
  refine List.pairwise_flatMap.mpr ⟨fun r _ => List.pairwise_flatMap.mpr
    ⟨fun d _ => r.pairwise_applications d e, hboth.imp ?_⟩, hrules.imp ?_⟩
  · intro d d' hne a ha b hb heq
    simp only [Application.key, Prod.mk.injEq] at heq
    rw [(Rule.of_mem_applications ha).2, (Rule.of_mem_applications hb).2] at heq
    exact hne heq.2.1
  · intro r r' hne a ha b hb heq
    obtain ⟨_, _, ha⟩ := List.mem_flatMap.mp ha
    obtain ⟨_, _, hb⟩ := List.mem_flatMap.mp hb
    simp only [Application.key, Prod.mk.injEq] at heq
    rw [(Rule.of_mem_applications ha).1, (Rule.of_mem_applications hb).1] at heq
    exact hne heq.1

theorem applications_eq_listed (h : (c.rules.map (·.id)).Nodup) :
    c.applications e = c.listed e :=
  Application.distinct_of_pairwise (pairwise_listed h)

/-- Each listed application can be performed, shows the result, and is described by what stands at
    its position before and after. -/
theorem perform_of_mem_applications {a : Application} (h : a ∈ c.applications e) :
    ∃ result old new, a.perform ∅ e = some result ∧ result.text = a.preview ∧
      e.subformula a.position = some old ∧ result.subformula a.position = some new ∧
      a.description = old.text ++ " → " ++ new.text := by
  obtain ⟨r, -, d, ha⟩ := mem_listed_iff.mp (Application.mem_of_mem_distinct h)
  obtain ⟨result, old, new, happly, hold, hnew, heq⟩ :=
    Rule.applicationAt?_eq_some_iff.mp (Rule.mem_applications_iff.mp ha)
  have hperform : a.perform ∅ e = some result := by
    unfold Application.perform
    rw [(Rule.of_mem_applications ha).1, (Rule.of_mem_applications ha).2, happly]
  exact ⟨result, old, new, hperform, by rw [heq], hold, hnew, by rw [heq]⟩

/-- What a rule of the catalog does at a position is listed once. -/
theorem countP_applications {r : Rule} (hr : r ∈ c.rules) {d : Direction} {p : Path}
    {result : Formula} (h : r.apply d (some p) ∅ e = some result) :
    (c.applications e).countP (fun a =>
      a.rule.id = r.id ∧ a.direction = d ∧ a.position = p ∧ a.preview = result.text) = 1 := by
  obtain ⟨a, ha, hkey⟩ := Rule.exists_applicationAt? h
  have hposition : a.position = p := congrArg (·.2.2.1) hkey
  rw [← hposition] at ha
  have hmem : a ∈ c.listed e := mem_listed_iff.mpr ⟨r, hr, d, Rule.mem_applications_iff.mpr ha⟩
  have hcount := Application.count_key_distinct hmem
  rw [hkey, List.count_eq_countP, List.countP_map] at hcount
  rw [← hcount]
  apply List.countP_congr
  intro b _
  simp [Application.key]

/-- Enumerating and applying agree. Every listed application can be performed and does what it
    shows; whatever a rule does at a position is listed exactly once; and where the ids of the rules
    are distinct the list holds, for each rule in order and each direction, one application for each
    matching position in pre-order, and no repeats have been dropped. -/
theorem applications_exact (c : Catalog) (e : Formula) :
    (∀ a ∈ c.applications e, ∃ result old new,
      a.perform ∅ e = some result ∧ result.text = a.preview ∧
      e.subformula a.position = some old ∧ result.subformula a.position = some new ∧
      a.description = old.text ++ " → " ++ new.text) ∧
    (∀ r ∈ c.rules, ∀ d p result, r.apply d (some p) ∅ e = some result →
      (c.applications e).countP (fun a =>
        a.rule.id = r.id ∧ a.direction = d ∧ a.position = p ∧ a.preview = result.text) = 1) ∧
    ((c.rules.map (·.id)).Nodup →
      c.applications e = c.listed e ∧
      (c.applications e).map (fun a => (a.rule, a.direction, a.position)) =
        c.rules.flatMap fun r => [Direction.leftToRight, .rightToLeft].flatMap fun d =>
          (e.positions.filter (r.matchesAt d e)).map fun p => (r, d, p)) := by
  refine ⟨fun a => perform_of_mem_applications, fun r hr d p result => countP_applications hr,
    fun hids => ⟨applications_eq_listed hids, ?_⟩⟩
  rw [applications_eq_listed hids, listed, List.map_flatMap]
  apply List.flatMap_congr
  intro r _
  rw [List.map_flatMap, Direction.both]
  apply List.flatMap_congr
  intro d _
  exact r.map_applications d e

/-- A rule that stands in a catalog twice is listed once. -/
example :
    ((⟨[Rule.standard[1], Rule.standard[1]]⟩ : Catalog).applications
        (.bin .or (.var "a") (.var "b"))).length = 2 ∧
      ((⟨[Rule.standard[1], Rule.standard[1]]⟩ : Catalog).listed
        (.bin .or (.var "a") (.var "b"))).length = 4 := by
  decide +kernel

end Catalog

end PropCalc

/-
  The names that using a rule brings in.

  `introduced` reports the names that only the replacement has and that tell their family. Those of
  the standard rules all do (`covers_of_standard`), so with a standard rule nothing but names of the
  formula and of what is given is in the result once everything reported has been given something
  (`not_leaves_of_standard`). The command that uses a rule lists what is left open, and all of it is
  in the result (`apply_accounts_for_names`).
-/
import PropCalc.Command.Run
import PropCalc.Proofs.Formula.Families
import PropCalc.Proofs.Rule.Names

namespace PropCalc

/-! ## The names that are reported -/

namespace Rule

variable {r : Rule} {d : Direction} {o : Oriented} {given : Substitution} {y : String}

theorem introduced_of_oriented (ho : r.oriented d = .ok o) :
    r.introduced d = Formula.introduced o.pattern o.replacement := by
  unfold introduced
  rw [ho]

theorem get?_introduced_eq_some_iff (ho : r.oriented d = .ok o) {x : String} {kind : NameKind} :
    (r.introduced d).get? x = some kind ↔
      x ∈ o.replacement.names ∧ x ∉ o.pattern.names ∧ kind.Covers x.toList := by
  rw [introduced_of_oriented ho, Formula.get?_introduced_eq_some_iff]

/-- The names of the standard rules all tell their family. -/
theorem standard_families : ∀ r ∈ standard, ∀ d ∈ Direction.both,
    (r.oriented d).toOption.all fun o =>
      o.replacement.names.all fun x => (NameKind.ofName? x).isSome := by
  decide +kernel

theorem covers_of_standard (hr : r ∈ standard) (ho : r.oriented d = .ok o) {x : String}
    (hx : x ∈ o.replacement.names) : ∃ kind, NameKind.Covers kind x.toList := by
  have hall := standard_families r hr d d.mem_both
  rw [ho] at hall
  have hfamily := List.all_eq_true.mp hall x hx
  obtain ⟨kind, hkind⟩ := Option.isSome_iff_exists.mp hfamily
  exact ⟨kind, NameKind.ofName?_eq_some_iff.mp hkind⟩

/-- With a standard rule no name is left once all names that are reported are bound. -/
theorem not_leaves_of_standard (hr : r ∈ standard) (ho : r.oriented d = .ok o)
    (hgiven : ∀ x kind, (r.introduced d).get? x = some kind → (given.get? x).isSome) :
    ¬ o.Leaves given y := by
  intro ⟨hy, hnew, hunbound⟩
  obtain ⟨kind, hkind⟩ := covers_of_standard hr ho hy
  have hbound := hgiven y kind ((get?_introduced_eq_some_iff ho).mpr ⟨hy, hnew, hkind⟩)
  rw [hunbound] at hbound
  cases hbound

end Rule

/-! ## What the command says -/

namespace Command

variable {r : Rule} {d : Direction} {position : Option Path} {given : Substitution}
  {e result : Formula}

/-- The names that are reported to be left open, each with its family. -/
def openNames (r : Rule) (d : Direction) (given : Substitution) : List (String × NameKind) :=
  (r.introduced d).entries.filter fun (x, _) => (given.get? x).isNone

theorem mem_openNames_iff {x : String} {kind : NameKind} :
    (x, kind) ∈ openNames r d given ↔
      (r.introduced d).get? x = some kind ∧ given.get? x = none := by
  rw [openNames, List.mem_filter, NameMap.get?_eq_some_iff, Option.isNone_iff_eq_none]

theorem leftOpen_eq_map (r : Rule) (d : Direction) (given : Substitution) :
    leftOpen r d given =
      (openNames r d given).map fun (x, kind) => x ++ " (" ++ kind.label ++ ")" := rfl

theorem runApply_of_apply {c : Catalog} {text id : String} (he : Formula.parse text = .ok e)
    (hr : c.get? id = some r) (h : r.apply d position given e = some result) (styled : Bool) :
    runApply styled c text id d position given = .lines (
      ["  " ++ e.text,
        "≡ " ++ Style.boldGreen.paint styled result.text ++ "    [" ++
          Style.cyan.paint styled r.id ++ "]"] ++
      if (leftOpen r d given).isEmpty then []
      else [Style.yellow.paint styled "Introduced variables left as they are:" ++ " " ++
        ", ".intercalate (leftOpen r d given)]) := by
  unfold runApply withFormula withRule
  simp only [he, hr, h]

end Command

namespace Rule

variable {r : Rule} {d : Direction} {o : Oriented}

/-- Where the names of a result come from. With a rule whose sides are formulas, each name of the
    result is one of the formula, or of what is given, or it is left in its place; and all names
    that are left are there. Reported as introduced are the names that only the replacement has and
    that look like those of a family. The command that uses the rule lists those of them for which
    nothing is given, all of them names of its result. With a standard rule, once all that is
    reported is given something, each name of the result is one of the formula or of what is
    given. -/
theorem apply_accounts_for_names (ho : r.oriented d = .ok o) :
    (∀ x kind, (r.introduced d).get? x = some kind ↔
      x ∈ o.replacement.names ∧ x ∉ o.pattern.names ∧ kind.Covers x.toList) ∧
    ∀ e position given result, r.apply d position given e = some result →
      (∀ y ∈ result.names, y ∈ e.names ∨ given.Mentions y ∨
        (y ∈ o.replacement.names ∧ y ∉ o.pattern.names ∧ given.get? y = none)) ∧
      (∀ y ∈ o.replacement.names, y ∉ o.pattern.names → given.get? y = none →
        y ∈ result.names) ∧
      (∀ (c : Catalog) text id styled, Formula.parse text = .ok e → c.get? id = some r →
        ∃ left : List (String × NameKind),
          (∀ x kind, (x, kind) ∈ left ↔
            (r.introduced d).get? x = some kind ∧ given.get? x = none) ∧
          (∀ x kind, (x, kind) ∈ left → x ∈ result.names) ∧
          Command.runApply styled c text id d position given = .lines (
            ["  " ++ e.text,
              "≡ " ++ Style.boldGreen.paint styled result.text ++ "    [" ++
                Style.cyan.paint styled r.id ++ "]"] ++
            if left.isEmpty then []
            else [Style.yellow.paint styled "Introduced variables left as they are:" ++ " " ++
              ", ".intercalate (left.map fun (x, kind) => x ++ " (" ++ kind.label ++ ")")])) ∧
      (r ∈ standard →
        (∀ x kind, (r.introduced d).get? x = some kind → (given.get? x).isSome) →
        ∀ y ∈ result.names, y ∈ e.names ∨ given.Mentions y) := by
  refine ⟨fun x kind => get?_introduced_eq_some_iff ho, fun e position given result h =>
    ⟨fun y => mem_names_of_apply ho h, ?_, ?_, ?_⟩⟩
  · intro y hy hnew hunbound
    exact mem_names_of_left ho h ⟨hy, hnew, hunbound⟩
  · intro c text id styled he hr
    refine ⟨Command.openNames r d given, fun x kind => Command.mem_openNames_iff, ?_, ?_⟩
    · intro x kind hx
      obtain ⟨hintroduced, hunbound⟩ := Command.mem_openNames_iff.mp hx
      obtain ⟨hy, hnew, -⟩ := (get?_introduced_eq_some_iff ho).mp hintroduced
      exact mem_names_of_left ho h ⟨hy, hnew, hunbound⟩
    · rw [Command.runApply_of_apply he hr h, Command.leftOpen_eq_map, List.isEmpty_map]
  · intro hr hgiven y hy
    rcases mem_names_of_apply ho h hy with hy | hy | hy
    · exact .inl hy
    · exact .inr hy
    · exact absurd hy (not_leaves_of_standard hr ho hgiven)

/-- Blows a formula up with names of all families, and with one that tells none. -/
def blowUp : Rule :=
  ⟨"blow-up", "Blow-Up", "𝜑 ≡ 𝜑 ∨ …", .absorption,
    "A", "A ∨ (φ1 ∧ (?x ∧ (rest ∧ B)))", ["A"]⟩

def twoNames : Formula := .bin .and (.var "p") (.var "q")

/-- Gives `φ1 ∨ s` for `B`. -/
def givenB : Substitution := .ofList [("B", .bin .or (.var "φ1") (.var "s"))]

/-- What becomes of `p ∧ q` where its second operand is blown up. -/
def blownUp : Formula :=
  .bin .and (.var "p") (.bin .or (.var "q") (.bin .and (.var "φ1") (.bin .and (.var "?x")
    (.bin .and (.var "rest") (.bin .or (.var "φ1") (.var "s"))))))

/-- What becomes of it where absorption is used backwards instead. -/
def unabsorbed : Formula :=
  .bin .and (.var "p") (.bin .or (.var "q")
    (.bin .and (.var "q") (.bin .or (.var "φ1") (.var "s"))))

theorem apply_accounts_for_names_blownUp :
    (∃ o, blowUp.oriented .leftToRight = .ok o ∧
      blowUp.apply .leftToRight (some [1]) givenB twoNames = some blownUp ∧
      (∀ y ∈ blownUp.names, y ∈ twoNames.names ∨ givenB.Mentions y ∨
        (y ∈ o.replacement.names ∧ y ∉ o.pattern.names ∧ givenB.get? y = none)) ∧
      (blowUp.introduced .leftToRight).entries =
        [("?x", .ascii), ("B", .pattern), ("φ1", .greek)] ∧
      ∃ left : List (String × NameKind), (∀ x kind, (x, kind) ∈ left → x ∈ blownUp.names) ∧
        ("?x", NameKind.ascii) ∈ left ∧ ("φ1", NameKind.greek) ∈ left ∧
        (Command.runApply false ⟨[blowUp]⟩ "p ∧ q" "blow-up" .leftToRight (some [1])
          givenB).output =
          "  p ∧ q\n≡ p ∧ (q ∨ (φ1 ∧ (?x ∧ (rest ∧ (φ1 ∨ s)))))    [blow-up]\n" ++
            "Introduced variables left as they are: ?x (ascii), φ1 (greek)\n") ∧
    standard[18].apply .rightToLeft (some [1]) givenB twoNames = some unabsorbed ∧
    (standard[18].introduced .rightToLeft).entries = [("B", .pattern)] ∧
    ∀ y ∈ unabsorbed.names, y ∈ twoNames.names ∨ givenB.Mentions y := by
  constructor
  · have ho : blowUp.oriented .leftToRight = .ok ⟨.var "A", .bin .or (.var "A")
        (.bin .and (.var "φ1") (.bin .and (.var "?x") (.bin .and (.var "rest") (.var "B"))))⟩ := by
      rfl
    have happly : blowUp.apply .leftToRight (some [1]) givenB twoNames = some blownUp := by
      decide +kernel
    obtain ⟨-, haccount⟩ := apply_accounts_for_names ho
    obtain ⟨horigin, -, hcommand, -⟩ := haccount twoNames (some [1]) givenB blownUp happly
    obtain ⟨left, hleft, hnames, -⟩ := hcommand ⟨[blowUp]⟩ "p ∧ q" "blow-up" false
      (by rfl) (by decide +kernel)
    refine ⟨_, ho, happly, horigin, by decide +kernel, left, hnames, ?_, ?_, by decide +kernel⟩
    · exact (hleft "?x" .ascii).mpr ⟨by decide +kernel, by decide +kernel⟩
    · exact (hleft "φ1" .greek).mpr ⟨by decide +kernel, by decide +kernel⟩
  · have ho : standard[18].oriented .rightToLeft = .ok
        ⟨.var "A", .bin .or (.var "A") (.bin .and (.var "A") (.var "B"))⟩ := by
      decide +kernel
    have happly : standard[18].apply .rightToLeft (some [1]) givenB twoNames = some unabsorbed := by
      decide +kernel
    have hentries : (standard[18].introduced .rightToLeft).entries = [("B", .pattern)] := by
      decide +kernel
    have hbound : ∀ x kind, (standard[18].introduced .rightToLeft).get? x = some kind →
        (givenB.get? x).isSome := by
      intro x kind hx
      rw [NameMap.get?_eq_some_iff, hentries, List.mem_singleton] at hx
      rw [(Prod.mk.inj hx).1]
      decide +kernel
    obtain ⟨-, haccount⟩ := apply_accounts_for_names ho
    obtain ⟨-, -, -, hstandard⟩ := haccount twoNames (some [1]) givenB unabsorbed happly
    exact ⟨happly, hentries, hstandard (List.getElem_mem _) hbound⟩

end Rule

end PropCalc

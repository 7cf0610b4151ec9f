/-
  What the walk through a formula leaves when it has come to its end.

  The visits from the root end with the walk (`visits_root_iff`). They are as many as the formula
  has nodes (`Visits.length_eq`, `length_walk`), and a walk that is stopped earlier has met the
  first of its parts (`Visits.visit_eq_take`). The list that the walk leaves is described equally
  well by what it holds and in which order (`ListsParts`) and by the walks of the operands
  (`walk_eq_cons`). `walk_exact` has all of this.
-/
import PropCalc.Proofs.Formula.Preorder

namespace PropCalc.Formula

/-! ## The visits -/

variable {pending met : List (Path × Formula)}

/-- Every node is met once, if nodes are only counted. -/
theorem Visits.length_eq (h : Visits pending met) : met.length = pendingSize pending := by
  induction h with
  | done => rfl
  | next _ ih => rw [List.length_cons, ih, pendingSize_childrenAt]

/-- A bound on the visits cuts off what would be met after them. -/
theorem Visits.visit_eq_take (h : Visits pending met) (n : Nat) :
    visit n pending = met.take n := by
  induction h generalizing n with
  | done => cases n <;> rfl
  | next _ ih =>
    cases n with
    | zero => rfl
    | succ n => rw [visit, ih, List.take_succ_cons]

/-- From the root the visits lead to the walk, and to nothing else. -/
theorem visits_root_iff {e : Formula} : Visits [([], e)] met ↔ met = e.walk := by
  constructor
  · intro h
    rw [h.eq_flatMap, e.visits_walk.eq_flatMap]
  · rintro rfl
    exact e.visits_walk

theorem visit_root (e : Formula) (n : Nat) : visit n [([], e)] = e.walk.take n :=
  e.visits_walk.visit_eq_take n

theorem length_walk (e : Formula) : e.walk.length = e.size := by
  rw [e.visits_walk.length_eq]
  simp [pendingSize]

/-! ## What the walk leaves -/

/-- The list holds the parts of the formula with their paths, and no others, in the order of the
    paths. -/
structure ListsParts (e : Formula) (l : List (Path × Formula)) : Prop where
  mem_iff (p : Path) (f : Formula) : (p, f) ∈ l ↔ e.subformula p = some f
  ordered : (l.map (·.1)).Pairwise Path.Before

theorem listsParts_walk (e : Formula) : ListsParts e e.walk where
  mem_iff p f := by rw [walk_eq_preorder, mem_preorder_iff]
  ordered := by
    rw [walk_eq_preorder]
    exact e.pairwise_positions

/-- The order leaves only one such list. -/
theorem ListsParts.unique {e : Formula} {l l' : List (Path × Formula)} (h : ListsParts e l)
    (h' : ListsParts e l') : l = l' := by
  have hordered : l.Pairwise fun a b => Path.Before a.1 b.1 := List.pairwise_map.mp h.ordered
  have hordered' : l'.Pairwise fun a b => Path.Before a.1 b.1 := List.pairwise_map.mp h'.ordered
  have hmem : ∀ a, a ∈ l ↔ a ∈ l' := fun a => by
    rw [show a = (a.1, a.2) from rfl, h.mem_iff, h'.mem_iff]
  have hperm : l.Perm l' :=
    (List.perm_ext_iff_of_nodup
      (hordered.imp fun hab heq => hab.ne (congrArg Prod.fst heq))
      (hordered'.imp fun hab heq => hab.ne (congrArg Prod.fst heq))).mpr hmem
  exact hperm.eq_of_pairwise (fun a b _ _ hab hba => absurd hba hab.asymm) hordered hordered'

theorem listsParts_iff {e : Formula} {l : List (Path × Formula)} :
    ListsParts e l ↔ l = e.walk := by
  constructor
  · intro h
    exact h.unique e.listsParts_walk
  · rintro rfl
    exact e.listsParts_walk

/-- The walk meets each path of the formula once. -/
theorem count_walk (e : Formula) (p : Path) :
    (e.walk.map (·.1)).count p = if (e.subformula p).isSome then 1 else 0 := by
  have hpositions : e.walk.map (·.1) = e.positions := by rw [walk_eq_preorder, positions]
  rw [hpositions, e.nodup_positions.count]
  exact if_congr (mem_positions_iff.trans Option.isSome_iff_exists.symm) rfl rfl

/-- The walk meets the formula and then walks through each operand in turn, below its index. -/
theorem walk_eq_cons (e : Formula) :
    e.walk = ([], e) :: e.children.zipIdx.flatMap fun (child, i) =>
      child.walk.map fun (p, f) => (i :: p, f) := by
  have hunder : ∀ i : Nat, under [i] = fun (p, f) => (i :: p, f) := fun _ => rfl
  simp only [walk_eq_preorder]
  cases e with
  | var x => rfl
  | const b => rfl
  | neg e => simp [preorder, children, hunder]
  | bin op l r => simp [preorder, children, hunder]

/-- From the root the visits end, and what they have met is the walk; the first `n` of them meet
    the first `n` parts. This is the only list that holds every part of the formula with its path,
    and nothing else, in increasing order of the paths, where a path comes before those that go on
    from it; it has each path of the formula once. It begins with the formula itself, and then come
    the walks of the operands, with the index of the operand in front of every path. It is as long
    as the formula has nodes. -/
theorem walk_exact (e : Formula) :
    (∀ met, Visits [([], e)] met ↔ met = e.walk) ∧
    (∀ n, visit n [([], e)] = e.walk.take n) ∧
    (∀ l, ListsParts e l ↔ l = e.walk) ∧
    (∀ p, (e.walk.map (·.1)).count p = if (e.subformula p).isSome then 1 else 0) ∧
    e.walk = ([], e) :: e.children.zipIdx.flatMap (fun (child, i) =>
      child.walk.map fun (p, f) => (i :: p, f)) ∧
    e.walk.length = e.size :=
  ⟨fun _ => visits_root_iff, e.visit_root, fun _ => listsParts_iff, e.count_walk, e.walk_eq_cons,
    e.length_walk⟩

/-- The left operand is walked through before the right one. -/
example : (bin .and (bin .or (var "a") (var "b")) (neg (var "c"))).walk.map (·.1) =
    [[], [0], [0, 0], [0, 1], [1], [1, 0]] := by
  decide

end PropCalc.Formula

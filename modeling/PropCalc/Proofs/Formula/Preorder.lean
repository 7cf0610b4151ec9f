/-
  The walk through a formula is its pre-order.

  `preorder` says by recursion on the formula what the order is: the formula itself, then the parts
  of each operand in turn. The walk keeps a list of pending parts instead and goes on until nothing
  is pending; `Visits` says this without a bound on the number of visits. Each visit leaves one node
  less to visit, so the visits end (`visits_visit`), and each pending part stands for its own
  pre-order (`Visits.eq_flatMap`), so the walk from the root gives that of the whole formula
  (`walk_eq_preorder`). It meets every part (`mem_preorder_iff`), and it meets their positions in
  the lexicographic order of paths (`pairwise_positions`). So the first position that passes a test
  is the least one that does (`find?_positions_eq_some_iff`).
-/
import PropCalc.Formula.Walk
import PropCalc.Proofs.Formula.Places

namespace PropCalc

/-- The lexicographic order of paths, in which a path comes before those that go on from it. -/
def Path.Before (p q : Path) : Prop := List.Lex (· < ·) p q

theorem Path.Before.asymm {p q : Path} (h : Path.Before p q) : ¬ Path.Before q p :=
  List.lex_asymm (fun hlt => Nat.lt_asymm hlt) h

theorem Path.Before.ne {p q : Path} (h : Path.Before p q) : p ≠ q := by
  rintro rfl
  exact h.asymm h

namespace Formula

/-- A part of the formula at `p`, seen from the root. -/
def under (p : Path) (a : Path × Formula) : Path × Formula := (p ++ a.1, a.2)

/-- The parts of a formula with their paths: the formula itself, then the parts of the left
    operand, then those of the right one. -/
def preorder : Formula → List (Path × Formula)
  | var x => [([], var x)]
  | const b => [([], const b)]
  | neg e => ([], neg e) :: e.preorder.map (under [0])
  | bin op l r => ([], bin op l r) :: (l.preorder.map (under [0]) ++ r.preorder.map (under [1]))

/-- The positions of a formula in pre-order. -/
def positions (e : Formula) : List Path := e.preorder.map (·.1)

theorem under_under (p q : Path) (a : Path × Formula) :
    under p (under q a) = under (p ++ q) a := by
  unfold under
  rw [List.append_assoc]

theorem map_under_map (p q : Path) (l : List (Path × Formula)) :
    (l.map (under q)).map (under p) = l.map (under (p ++ q)) := by
  rw [List.map_map]
  exact List.map_congr_left fun a _ => under_under p q a

/-! ## The walk -/

/-- The formula at `p` comes first, and then its operands, each with all its parts. -/
theorem map_under_preorder (p : Path) (e : Formula) :
    e.preorder.map (under p) =
      (p, e) :: (e.childrenAt p).flatMap fun a => a.2.preorder.map (under a.1) := by
  have hroot : under p ([], e) = (p, e) := by
    unfold under
    rw [List.append_nil]
  cases e with
  | var x => rw [← hroot]; rfl
  | const b => rw [← hroot]; rfl
  | neg e =>
    rw [preorder, List.map_cons, hroot, map_under_map]
    simp [childrenAt, children]
  | bin op l r =>
    rw [preorder, List.map_cons, hroot, List.map_append, map_under_map, map_under_map]
    simp [childrenAt, children]

/-- Number of nodes of all pending parts. -/
def pendingSize : List (Path × Formula) → Nat
  | [] => 0
  | a :: pending => a.2.size + pendingSize pending

/-- Each visit has one node less before it. -/
theorem pendingSize_childrenAt (p : Path) (e : Formula) (pending : List (Path × Formula)) :
    pendingSize ((p, e) :: pending) = pendingSize (e.childrenAt p ++ pending) + 1 := by
  cases e <;> simp [pendingSize, childrenAt, children, size] <;> omega

/-- Visits until nothing is pending, and the parts that they meet: first the one in front, then
    those met when its operands have taken its place. -/
inductive Visits : List (Path × Formula) → List (Path × Formula) → Prop
  | done : Visits [] []
  | next {p : Path} {e : Formula} {pending met : List (Path × Formula)}
      (rest : Visits (e.childrenAt p ++ pending) met) : Visits ((p, e) :: pending) ((p, e) :: met)

/-- The visits end: with as many as there are nodes nothing is left pending. -/
theorem visits_visit {n : Nat} {pending : List (Path × Formula)} (h : pendingSize pending ≤ n) :
    Visits pending (visit n pending) := by
  -- on the visits, since the operands that become pending are no part of the list before
  induction n generalizing pending with
  | zero =>
    match pending with
    | [] => exact .done
    | (p, e) :: pending =>
      rw [pendingSize_childrenAt] at h
      omega
  | succ n ih =>
    match pending with
    | [] => exact .done
    | (p, e) :: pending =>
      rw [pendingSize_childrenAt] at h
      exact .next (ih (by omega))

/-- Every pending part is followed through, one after the other. -/
theorem Visits.eq_flatMap {pending met : List (Path × Formula)} (h : Visits pending met) :
    met = pending.flatMap fun a => a.2.preorder.map (under a.1) := by
  induction h with
  | done => rfl
  | next _ ih =>
    rw [ih, List.flatMap_append, List.flatMap_cons, map_under_preorder]
    rfl

theorem visits_walk (e : Formula) : Visits [([], e)] e.walk :=
  visits_visit (by simp [pendingSize])

theorem walk_eq_preorder (e : Formula) : e.walk = e.preorder := by
  have hroot : under [] = id := by
    funext a
    rfl
  rw [e.visits_walk.eq_flatMap]
  simp [hroot]

/-! ## The parts that it meets -/

theorem mem_map_under {i : Nat} {p : Path} {f : Formula} {l : List (Path × Formula)} :
    (p, f) ∈ l.map (under [i]) ↔ ∃ q, p = i :: q ∧ (q, f) ∈ l := by
  rw [List.mem_map]
  constructor
  · rintro ⟨⟨q, g⟩, hmem, heq⟩
    obtain ⟨rfl, rfl⟩ := Prod.mk.inj heq
    exact ⟨q, rfl, hmem⟩
  · rintro ⟨q, rfl, hmem⟩
    exact ⟨(q, f), hmem, rfl⟩

theorem root_eq_iff {e f : Formula} :
    (([] : Path), f) = ([], e) ↔ e.subformula [] = some f := by
  rw [subformula_root, Prod.mk.injEq, Option.some.injEq, eq_self, true_and, eq_comm]

/-- The pre-order holds every path that stays in the formula, with what stands there. -/
theorem mem_preorder_iff {e f : Formula} {p : Path} :
    (p, f) ∈ e.preorder ↔ e.subformula p = some f := by
  induction e generalizing p with
  | var x =>
    rw [preorder, List.mem_singleton]
    cases p with
    | nil => exact root_eq_iff
    | cons i p => simp [subformula_cons, children]
  | const b =>
    rw [preorder, List.mem_singleton]
    cases p with
    | nil => exact root_eq_iff
    | cons i p => simp [subformula_cons, children]
  | neg e ih =>
    rw [preorder, List.mem_cons, mem_map_under]
    cases p with
    | nil =>
      rw [root_eq_iff]
      simp
    | cons i p =>
      cases i with
      | zero => simp [subformula_cons, children, ih]
      | succ i => simp [subformula_cons, children]
  | bin op l r ihl ihr =>
    rw [preorder, List.mem_cons, List.mem_append, mem_map_under, mem_map_under]
    cases p with
    | nil =>
      rw [root_eq_iff]
      simp
    | cons i p =>
      rcases i with _ | _ | i
      · simp [subformula_cons, children, ihl]
      · simp [subformula_cons, children, ihr]
      · simp [subformula_cons, children]

theorem mem_positions_iff {e : Formula} {p : Path} :
    p ∈ e.positions ↔ ∃ f, e.subformula p = some f := by
  simp [positions, mem_preorder_iff]

/-! ## The order of the positions -/

theorem positions_under (i : Nat) (l : List (Path × Formula)) :
    (l.map (under [i])).map (·.1) = (l.map (·.1)).map (i :: ·) := by
  rw [List.map_map, List.map_map]
  rfl

theorem positions_neg (e : Formula) : (neg e).positions = [] :: e.positions.map (0 :: ·) := by
  rw [positions, preorder, List.map_cons, positions_under]
  rfl

theorem positions_bin (op : Connective) (l r : Formula) :
    (bin op l r).positions =
      [] :: (l.positions.map (0 :: ·) ++ r.positions.map (1 :: ·)) := by
  rw [positions, preorder, List.map_cons, List.map_append, positions_under, positions_under]
  rfl

theorem pairwise_map_cons {i : Nat} {ps : List Path} (h : ps.Pairwise Path.Before) :
    (ps.map (i :: ·)).Pairwise Path.Before :=
  List.pairwise_map.mpr (h.imp .cons)

theorem root_before_map_cons (i : Nat) (ps : List Path) :
    ∀ q ∈ ps.map (i :: ·), Path.Before [] q := by
  intro q hq
  obtain ⟨_, _, rfl⟩ := List.mem_map.mp hq
  exact .nil

/-- The pre-order is the lexicographic order of the paths. -/
theorem pairwise_positions (e : Formula) : e.positions.Pairwise Path.Before := by
  induction e with
  | var x => simp [positions, preorder]
  | const b => simp [positions, preorder]
  | neg e ih =>
    rw [positions_neg, List.pairwise_cons]
    exact ⟨root_before_map_cons 0 e.positions, pairwise_map_cons ih⟩
  | bin op l r ihl ihr =>
    rw [positions_bin, List.pairwise_cons, List.pairwise_append, List.forall_mem_append]
    refine ⟨⟨root_before_map_cons 0 l.positions, root_before_map_cons 1 r.positions⟩,
      pairwise_map_cons ihl, pairwise_map_cons ihr, fun p hp q hq => ?_⟩
    obtain ⟨_, _, rfl⟩ := List.mem_map.mp hp
    obtain ⟨_, _, rfl⟩ := List.mem_map.mp hq
    exact .rel Nat.zero_lt_one

theorem nodup_positions (e : Formula) : e.positions.Nodup :=
  List.nodup_iff_pairwise_ne.mpr (e.pairwise_positions.imp Path.Before.ne)

/-- No later position comes before the first one that passes a test. -/
theorem least_of_find?_positions {e : Formula} {test : Path → Bool} {p q : Path}
    (h : e.positions.find? test = some p) (hq : q ∈ e.positions) (htest : test q) :
    p = q ∨ Path.Before p q := by
  obtain ⟨-, front, rest, hsplit, hfront⟩ := List.find?_eq_some_iff_append.mp h
  have hordered := e.pairwise_positions
  rw [hsplit, List.pairwise_append, List.pairwise_cons] at hordered
  rw [hsplit, List.mem_append, List.mem_cons] at hq
  rcases hq with hq | rfl | hq
  · have hfails := hfront q hq
    rw [htest] at hfails
    cases hfails
  · exact .inl rfl
  · exact .inr (hordered.2.1.1 q hq)

/-- The first position that passes a test is the least one in the lexicographic order. -/
theorem find?_positions_eq_some_iff {e : Formula} {test : Path → Bool} {p : Path} :
    e.positions.find? test = some p ↔
      p ∈ e.positions ∧ test p ∧ ∀ q ∈ e.positions, test q → p = q ∨ Path.Before p q := by
  constructor
  · intro h
    exact ⟨List.mem_of_find?_eq_some h, List.find?_some h,
      fun q hq htest => least_of_find?_positions h hq htest⟩
  · rintro ⟨hp, htest, hleast⟩
    cases hfind : e.positions.find? test with
    | none => exact absurd htest (List.find?_eq_none.mp hfind p hp)
    | some q =>
      -- both come before all that pass, so neither comes before the other
      have hpq := hleast q (List.mem_of_find?_eq_some hfind) (List.find?_some hfind)
      have hqp := least_of_find?_positions hfind hp htest
      rcases hpq with rfl | hpq
      · rfl
      · rcases hqp with rfl | hqp
        · rfl
        · exact absurd hqp hpq.asymm

end Formula

end PropCalc

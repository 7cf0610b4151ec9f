/-
  What stands at a path, and what putting another formula there does.

  A replacement at a path sets one operand at each node on the way (`replaceAt_cons`), so what
  holds of setting an operand carries over to paths. A replacement goes through exactly where
  something stands (`isSome_replaceAt`), the new formula then stands there
  (`subformula_of_replaceAt`), and of two replacements at one path only the second counts
  (`replaceAt_of_replaceAt`). A replacement below a place is one at the place
  (`replaceAt_append`), and two beside each other can be made in either order (`replaceAt_comm`).
  Putting an equivalent formula in a place gives an equivalent formula (`replaceAt_equivalent`).
  Beside the path nothing changes, and above it every node stays what it is; with what stands at
  the path this says all of the result (`replaceAt_eq_some_iff`).
-/
import PropCalc.Formula.Path
import PropCalc.Proofs.Formula.Truth

namespace PropCalc.Formula

/-! ## Paths -/

@[simp] theorem subformula_root (e : Formula) : e.subformula [] = some e := by
  cases e <;> rfl

theorem subformula_cons (e : Formula) (i : Nat) (p : Path) :
    e.subformula (i :: p) = e.children[i]?.bind fun child => child.subformula p := by
  rw [subformula]

/-- One path after another leads where the two lead joined. -/
theorem subformula_append (e : Formula) (p q : Path) :
    e.subformula (p ++ q) = (e.subformula p).bind fun f => f.subformula q := by
  induction p generalizing e with
  | nil => rw [List.nil_append, subformula_root, Option.bind_some]
  | cons i p ih =>
    rw [List.cons_append, subformula_cons, subformula_cons]
    cases e.children[i]? with
    | none => rfl
    | some child => rw [Option.bind_some, Option.bind_some, ih]

/-! ## Nodes -/

/-- A node without its operands. -/
inductive Node
  | var (name : String)
  | const (value : Bool)
  | neg
  | bin (op : Connective)
  deriving DecidableEq, Repr

/-- The node at the root. -/
def node : Formula → Node
  | var x => .var x
  | const b => .const b
  | neg _ => .neg
  | bin op _ _ => .bin op

/-- A formula is its node and the operands. -/
theorem ext_node {e f : Formula} (hnode : e.node = f.node) (hchildren : e.children = f.children) :
    e = f := by
  cases e <;> cases f <;> simp_all [node, children]

/-! ## One operand -/

/-- The formula with another operand at an index. Without an operand there it stays as it is. -/
def setChild : Formula → Nat → Formula → Formula
  | neg _, 0, new => neg new
  | bin op _ r, 0, new => bin op new r
  | bin op l _, 1, new => bin op l new
  | e, _, _ => e

theorem children_setChild (e : Formula) (i : Nat) (new : Formula) :
    (e.setChild i new).children = e.children.set i new := by
  match e, i with
  | var _, _ => rfl
  | const _, _ => rfl
  | neg _, 0 => rfl
  | neg _, _ + 1 => rfl
  | bin _ _ _, 0 => rfl
  | bin _ _ _, 1 => rfl
  | bin _ _ _, _ + 2 => rfl

theorem node_setChild (e : Formula) (i : Nat) (new : Formula) :
    (e.setChild i new).node = e.node := by
  match e, i with
  | var _, _ => rfl
  | const _, _ => rfl
  | neg _, 0 => rfl
  | neg _, _ + 1 => rfl
  | bin _ _ _, 0 => rfl
  | bin _ _ _, 1 => rfl
  | bin _ _ _, _ + 2 => rfl

theorem setChild_setChild (e : Formula) (i : Nat) (first second : Formula) :
    (e.setChild i first).setChild i second = e.setChild i second := by
  match e, i with
  | var _, _ => rfl
  | const _, _ => rfl
  | neg _, 0 => rfl
  | neg _, _ + 1 => rfl
  | bin _ _ _, 0 => rfl
  | bin _ _ _, 1 => rfl
  | bin _ _ _, _ + 2 => rfl

/-- Two operands can be set in either order. -/
theorem setChild_comm (e : Formula) {i j : Nat} (hij : i ≠ j) (first second : Formula) :
    (e.setChild i first).setChild j second = (e.setChild j second).setChild i first := by
  apply ext_node
  · simp only [node_setChild]
  · simp only [children_setChild]
    exact List.set_comm first second hij

section Child

variable {e child : Formula} {i : Nat}

theorem getElem?_children_setChild (h : e.children[i]? = some child) (new : Formula) :
    (e.setChild i new).children[i]? = some new := by
  obtain ⟨hlt, -⟩ := List.getElem?_eq_some_iff.mp h
  rw [children_setChild, List.getElem?_set_self hlt]

theorem setChild_child (h : e.children[i]? = some child) : e.setChild i child = e := by
  match e, i with
  | neg _, 0 => cases h; rfl
  | bin _ _ _, 0 => cases h; rfl
  | bin _ _ _, 1 => cases h; rfl
  | neg _, _ + 1 => cases h
  | bin _ _ _, _ + 2 => cases h

/-- An equivalent operand gives an equivalent formula. -/
theorem setChild_equivalent {new : Formula} (hchild : e.children[i]? = some child)
    (h : Equivalent child new) : Equivalent e (e.setChild i new) := by
  match e, i with
  | neg _, 0 => cases hchild; exact h.neg
  | bin op _ r, 0 => cases hchild; exact h.bin_left op r
  | bin op l _, 1 => cases hchild; exact h.bin_right op l
  | neg _, _ + 1 => cases hchild
  | bin _ _ _, _ + 2 => cases hchild

end Child

/-! ## Replacing -/

@[simp] theorem replaceAt_root (e new : Formula) : e.replaceAt [] new = some new := by
  cases e <;> rfl

/-- Replacing below the root replaces in one operand. -/
theorem replaceAt_cons (e : Formula) (i : Nat) (p : Path) (new : Formula) :
    e.replaceAt (i :: p) new =
      e.children[i]?.bind fun child => (child.replaceAt p new).map (e.setChild i) := by
  match e, i with
  | var _, _ => simp [replaceAt, children]
  | const _, _ => simp [replaceAt, children]
  | neg _, 0 => rfl
  | neg _, _ + 1 => simp [replaceAt, children]
  | bin _ _ _, 0 => rfl
  | bin _ _ _, 1 => rfl
  | bin _ _ _, _ + 2 => simp [replaceAt, children]

theorem replaceAt_cons_eq_some_iff {e new e' : Formula} {i : Nat} {p : Path} :
    e.replaceAt (i :: p) new = some e' ↔ ∃ child child', e.children[i]? = some child ∧
      child.replaceAt p new = some child' ∧ e.setChild i child' = e' := by
  simp only [replaceAt_cons, Option.bind_eq_some_iff, Option.map_eq_some_iff]
  constructor
  · rintro ⟨child, hchild, child', hnew, he'⟩
    exact ⟨child, child', hchild, hnew, he'⟩
  · rintro ⟨child, child', hchild, hnew, he'⟩
    exact ⟨child, hchild, child', hnew, he'⟩

/-- Something can be put in a place exactly if something stands there. -/
theorem isSome_replaceAt (e : Formula) (p : Path) (new : Formula) :
    (e.replaceAt p new).isSome = (e.subformula p).isSome := by
  induction p generalizing e with
  | nil => rw [replaceAt_root, subformula_root]; rfl
  | cons i p ih =>
    rw [replaceAt_cons, subformula_cons]
    cases e.children[i]? with
    | none => rfl
    | some child => rw [Option.bind_some, Option.bind_some, Option.isSome_map, ih]

/-- What has been put in a place stands there. -/
theorem subformula_of_replaceAt {e new e' : Formula} {p : Path}
    (h : e.replaceAt p new = some e') : e'.subformula p = some new := by
  induction p generalizing e e' with
  | nil =>
    rw [replaceAt_root] at h
    rw [subformula_root, h]
  | cons i p ih =>
    obtain ⟨child, child', hchild, hnew, rfl⟩ := replaceAt_cons_eq_some_iff.mp h
    rw [subformula_cons, getElem?_children_setChild hchild, Option.bind_some, ih hnew]

/-- Replacing below a place puts there what stands there with the replacement inside it. -/
theorem replaceAt_append (e : Formula) (p q : Path) (new : Formula) :
    e.replaceAt (p ++ q) new =
      (e.subformula p).bind fun f => (f.replaceAt q new).bind (e.replaceAt p) := by
  induction p generalizing e with
  | nil =>
    have hput : e.replaceAt [] = some := funext e.replaceAt_root
    rw [List.nil_append, subformula_root, Option.bind_some, hput, Option.bind_fun_some]
  | cons i p ih =>
    have hput : e.replaceAt (i :: p) = fun f' =>
        e.children[i]?.bind fun child => (child.replaceAt p f').map (e.setChild i) :=
      funext (e.replaceAt_cons i p)
    rw [List.cons_append, replaceAt_cons, subformula_cons, hput]
    cases e.children[i]? with
    | none => rfl
    | some child =>
      simp only [Option.bind_some, ih, Option.map_bind, Function.comp_def]

theorem replaceAt_append_eq_some_iff {e new e' : Formula} {p q : Path} :
    e.replaceAt (p ++ q) new = some e' ↔ ∃ f f', e.subformula p = some f ∧
      f.replaceAt q new = some f' ∧ e.replaceAt p f' = some e' := by
  simp only [replaceAt_append, Option.bind_eq_some_iff]
  constructor
  · rintro ⟨f, hf, f', hf', he'⟩
    exact ⟨f, f', hf, hf', he'⟩
  · rintro ⟨f, f', hf, hf', he'⟩
    exact ⟨f, hf, f', hf', he'⟩

/-- Beside the place a replacement changes nothing. -/
theorem subformula_of_replaceAt_beside {e new e' : Formula} {p q : Path}
    (h : e.replaceAt p new = some e') (hpq : ¬ p <+: q) (hqp : ¬ q <+: p) :
    e'.subformula q = e.subformula q := by
  induction p generalizing e e' q with
  | nil => exact absurd List.nil_prefix hpq
  | cons i p ih =>
    cases q with
    | nil => exact absurd List.nil_prefix hqp
    | cons j q =>
      obtain ⟨child, child', hchild, hnew, rfl⟩ := replaceAt_cons_eq_some_iff.mp h
      rw [subformula_cons, subformula_cons]
      by_cases hij : i = j
      · subst hij
        rw [List.prefix_cons_inj] at hpq hqp
        rw [getElem?_children_setChild hchild, hchild, Option.bind_some, Option.bind_some,
          ih hnew hpq hqp]
      · rw [children_setChild, List.getElem?_set_ne hij]

/-- Below an operand that has been set, a replacement goes on in the new operand. -/
theorem replaceAt_cons_setChild {e child : Formula} {i : Nat} (h : e.children[i]? = some child)
    (child' : Formula) (p : Path) (new : Formula) :
    (e.setChild i child').replaceAt (i :: p) new = (child'.replaceAt p new).map (e.setChild i) := by
  have hset : (e.setChild i child').setChild i = e.setChild i := by
    funext new
    exact setChild_setChild e i child' new
  rw [replaceAt_cons, getElem?_children_setChild h, Option.bind_some, hset]

/-- Of two replacements at a path only the second counts. -/
theorem replaceAt_of_replaceAt {e first e' : Formula} {p : Path}
    (h : e.replaceAt p first = some e') (second : Formula) :
    e'.replaceAt p second = e.replaceAt p second := by
  induction p generalizing e e' with
  | nil => rw [replaceAt_root, replaceAt_root]
  | cons i p ih =>
    obtain ⟨child, child', hchild, hnew, rfl⟩ := replaceAt_cons_eq_some_iff.mp h
    rw [replaceAt_cons_setChild hchild, ih hnew, replaceAt_cons, hchild, Option.bind_some]

/-- Two replacements beside each other can be made in either order. -/
theorem replaceAt_comm {e first second e₁ e₂ : Formula} {p q : Path}
    (h₁ : e.replaceAt p first = some e₁) (h₂ : e.replaceAt q second = some e₂)
    (hpq : ¬ p <+: q) (hqp : ¬ q <+: p) : e₁.replaceAt q second = e₂.replaceAt p first := by
  induction p generalizing e e₁ e₂ q with
  | nil => exact absurd List.nil_prefix hpq
  | cons i p ih =>
    cases q with
    | nil => exact absurd List.nil_prefix hqp
    | cons j q =>
      obtain ⟨child, child₁, hchild, hbelow₁, rfl⟩ := replaceAt_cons_eq_some_iff.mp h₁
      obtain ⟨other, child₂, hother, hbelow₂, rfl⟩ := replaceAt_cons_eq_some_iff.mp h₂
      by_cases hij : i = j
      · -- both go on in one operand
        subst hij
        obtain rfl : child = other := Option.some.inj (hchild.symm.trans hother)
        rw [List.prefix_cons_inj] at hpq hqp
        rw [replaceAt_cons_setChild hchild, replaceAt_cons_setChild hchild,
          ih hbelow₁ hbelow₂ hpq hqp]
      · -- each finds its operand as it was
        have hother' : (e.setChild i child₁).children[j]? = some other := by
          rw [children_setChild, List.getElem?_set_ne hij, hother]
        have hchild' : (e.setChild j child₂).children[i]? = some child := by
          rw [children_setChild, List.getElem?_set_ne (Ne.symm hij), hchild]
        rw [replaceAt_cons, replaceAt_cons, hother', hchild', Option.bind_some, Option.bind_some,
          hbelow₁, hbelow₂, Option.map_some, Option.map_some, setChild_comm e hij]

/-- Putting back what stands in a place changes nothing. -/
theorem replaceAt_subformula {e old : Formula} {p : Path} (h : e.subformula p = some old) :
    e.replaceAt p old = some e := by
  induction p generalizing e with
  | nil =>
    rw [subformula_root] at h
    rw [replaceAt_root, h]
  | cons i p ih =>
    rw [subformula_cons] at h
    obtain ⟨child, hchild, hold⟩ := Option.bind_eq_some_iff.mp h
    exact replaceAt_cons_eq_some_iff.mpr ⟨child, child, hchild, ih hold, setChild_child hchild⟩

/-- Putting an equivalent formula in the place of what stands there changes no truth value. -/
theorem replaceAt_equivalent {e old new e' : Formula} {p : Path}
    (hold : e.subformula p = some old) (hnew : e.replaceAt p new = some e')
    (h : Equivalent old new) : Equivalent e e' := by
  induction p generalizing e e' with
  | nil =>
    rw [subformula_root] at hold
    rw [replaceAt_root] at hnew
    rw [Option.some.inj hold, ← Option.some.inj hnew]
    exact h
  | cons i p ih =>
    obtain ⟨child, child', hchild, hbelow, rfl⟩ := replaceAt_cons_eq_some_iff.mp hnew
    rw [subformula_cons, hchild, Option.bind_some] at hold
    exact setChild_equivalent hchild (ih hold hbelow)

/-! ## What a replacement is -/

/-- `e'` is `e` with `new` at `p`: that is what stands there; on paths that neither lead to `p` nor
    go on from it everything is as before; and the nodes on the way to `p` are the same, each with
    as many operands. -/
structure ReplacedAt (e : Formula) (p : Path) (new e' : Formula) : Prop where
  inside : e'.subformula p = some new
  beside : ∀ q, ¬ p <+: q → ¬ q <+: p → e'.subformula q = e.subformula q
  above : ∀ q, q <+: p → q ≠ p → ∃ f f', e.subformula q = some f ∧ e'.subformula q = some f' ∧
    f'.node = f.node ∧ f'.children.length = f.children.length

theorem replacedAt_of_replaceAt {e new e' : Formula} {p : Path}
    (h : e.replaceAt p new = some e') : ReplacedAt e p new e' where
  inside := subformula_of_replaceAt h
  beside _ := subformula_of_replaceAt_beside h
  above q hprefix hne := by
    obtain ⟨s, rfl⟩ := hprefix
    obtain ⟨f, f', hf, hbelow, hput⟩ := replaceAt_append_eq_some_iff.mp h
    have hf' : e'.subformula q = some f' := subformula_of_replaceAt hput
    cases s with
    | nil => exact absurd (List.append_nil q).symm hne
    | cons i s =>
      obtain ⟨child, child', -, -, rfl⟩ := replaceAt_cons_eq_some_iff.mp hbelow
      refine ⟨f, _, hf, hf', f.node_setChild i child', ?_⟩
      rw [children_setChild, List.length_set]

namespace ReplacedAt

variable {e new e' : Formula} {i : Nat} {p : Path}

theorem root (h : ReplacedAt e (i :: p) new e') :
    e'.node = e.node ∧ e'.children.length = e.children.length := by
  obtain ⟨f, f', hf, hf', hnode, hlength⟩ := h.above [] List.nil_prefix (by simp)
  rw [subformula_root] at hf hf'
  obtain rfl := Option.some.inj hf
  obtain rfl := Option.some.inj hf'
  exact ⟨hnode, hlength⟩

/-- The operand that the path goes through has the replacement inside it. -/
theorem child (h : ReplacedAt e (i :: p) new e') :
    ∃ child child', e.children[i]? = some child ∧ e'.children[i]? = some child' ∧
      ReplacedAt child p new child' := by
  have hinside := h.inside
  rw [subformula_cons] at hinside
  obtain ⟨child', hchild', hnew⟩ := Option.bind_eq_some_iff.mp hinside
  have hlt : i < e.children.length := by
    rw [← h.root.2]
    exact (List.getElem?_eq_some_iff.mp hchild').1
  obtain ⟨child, hchild⟩ : ∃ child, e.children[i]? = some child :=
    ⟨_, List.getElem?_eq_getElem hlt⟩
  have hat : ∀ q, e.subformula (i :: q) = child.subformula q := fun q => by
    rw [subformula_cons, hchild, Option.bind_some]
  have hat' : ∀ q, e'.subformula (i :: q) = child'.subformula q := fun q => by
    rw [subformula_cons, hchild', Option.bind_some]
  refine ⟨child, child', hchild, hchild', hnew, fun q hpq hqp => ?_, fun q hprefix hne => ?_⟩
  · have hbeside := h.beside (i :: q) (by simpa using hpq) (by simpa using hqp)
    rwa [hat, hat'] at hbeside
  · have habove := h.above (i :: q) (by simpa using hprefix) (by simpa using hne)
    rwa [hat, hat'] at habove

/-- The other operands are as before. -/
theorem eq_setChild {child child' : Formula} (h : ReplacedAt e (i :: p) new e')
    (hchild : e.children[i]? = some child) (hchild' : e'.children[i]? = some child') :
    e.setChild i child' = e' := by
  refine ext_node (by rw [node_setChild, h.root.1]) (List.ext_getElem? fun j => ?_)
  by_cases hij : i = j
  · subst hij
    rw [getElem?_children_setChild hchild, hchild']
  · have hbeside := h.beside [j] (fun hprefix => hij (List.cons_prefix_cons.mp hprefix).1)
      (fun hprefix => hij (List.cons_prefix_cons.mp hprefix).1.symm)
    rw [children_setChild, List.getElem?_set_ne hij]
    simpa [subformula_cons, eq_comm] using hbeside

end ReplacedAt

/-- These properties say all of a replacement. -/
theorem replaceAt_eq_some_iff {e new e' : Formula} {p : Path} :
    e.replaceAt p new = some e' ↔ ReplacedAt e p new e' := by
  refine ⟨replacedAt_of_replaceAt, fun h => ?_⟩
  induction p generalizing e e' with
  | nil =>
    have hinside := h.inside
    rw [subformula_root] at hinside
    rw [replaceAt_root, hinside]
  | cons i p ih =>
    obtain ⟨child, child', hchild, hchild', hbelow⟩ := h.child
    exact replaceAt_cons_eq_some_iff.mpr
      ⟨child, child', hchild, ih hbelow, h.eq_setChild hchild hchild'⟩

end PropCalc.Formula

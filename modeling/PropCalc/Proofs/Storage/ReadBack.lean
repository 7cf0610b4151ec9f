/-
  What has been written to a tree of files is read back.

  Following a path enters directories only, up to the place that it leads to. Putting a file at a
  place leaves all directories what they are (`node?_put_of_directory`), so a path that leads to
  the place of a file leads there as before (`follow_put`). What writing leaves out of a path with
  slashes at its end can only end at a directory, and then nothing is written. So whatever has been
  written is read back from the same path (`read_of_write`), unless the path leads to a device that
  keeps nothing.

  Of storages in general only this is asked for, where something is to be said of what has been
  saved (`Storage.Keeps`). A tree of files that writing has changed has it (`keeps_of_write`).
-/
import PropCalc.FileTree

namespace PropCalc

/-- Writing the text to the path goes through and leads from `files` to `files'`, and there the
    path reads as that text. -/
structure Storage.Keeps {σ : Type} (s : Storage (StateM σ)) (files : σ) (path text : String)
    (files' : σ) : Prop where
  written : (s.write path text).run files = (.ok (), files')
  readBack : ((s.read path).run files').1 = .ok text

namespace FileTree

variable {t t' : FileTree} {place here other : List String} {node : FileNode}

/-! ## Putting a node -/

theorem node?_put_self (t : FileTree) (place : List String) (node : FileNode) :
    (t.put place node).node? place = some node := by
  simp [node?, put]

theorem lookup_put_of_ne (h : other ≠ place) (t : FileTree) (node : FileNode) :
    (t.put place node).nodes.lookup other = t.nodes.lookup other := by
  have hother : (other == place) = false := by simpa using h
  unfold put
  simp only [List.lookup_cons, hother]
  induction t.nodes with
  | nil => rfl
  | cons entry nodes ih =>
    obtain ⟨k, n⟩ := entry
    by_cases hk : k = place
    · rw [List.filter_cons_of_neg (by simpa using hk), ih, List.lookup_cons, hk, hother]
    · rw [List.filter_cons_of_pos (by simpa using hk), List.lookup_cons, List.lookup_cons, ih]

/-- Something lies below each place that something lay below. -/
theorem any_isPrefixOf_put (h : t.nodes.any (fun (p, _) => other.isPrefixOf p) = true)
    (node : FileNode) :
    (t.put place node).nodes.any (fun (p, _) => other.isPrefixOf p) = true := by
  obtain ⟨⟨p, n⟩, hmem, hp⟩ := List.any_eq_true.mp h
  refine List.any_eq_true.mpr ?_
  by_cases heq : p = place
  · exact ⟨(place, node), List.mem_cons_self, heq ▸ hp⟩
  · refine ⟨(p, n), List.mem_cons_of_mem _ (List.mem_filter.mpr ⟨hmem, ?_⟩), hp⟩
    exact decide_eq_true heq

theorem node?_put_of_directory (h : t.node? other = some .directory) (hne : other ≠ place)
    (node : FileNode) : (t.put place node).node? other = some .directory := by
  unfold node? at *
  rw [lookup_put_of_ne hne]
  cases hlookup : t.nodes.lookup other with
  | some found => rwa [hlookup] at h
  | none =>
    rw [hlookup] at h
    simp only at h ⊢
    split at h
    · next habove =>
      rw [if_pos]
      rcases Bool.or_eq_true_iff.mp habove with hhome | hnodes
      · exact Bool.or_eq_true_iff.mpr (.inl hhome)
      · exact Bool.or_eq_true_iff.mpr (.inr (any_isPrefixOf_put hnodes node))
    · cases h

/-! ## Following a path -/

theorem directory_of_enter {component : String} (h : t.enter here component = .ok other) :
    t.node? here = some .directory := by
  unfold enter at h
  split at h
  · cases h
  · assumption
  · cases h

theorem enter_put {component : String} (h : t.enter here component = .ok other)
    (hplace : t.node? place ≠ some .directory) (node : FileNode) :
    (t.put place node).enter here component = .ok other := by
  have hhere := directory_of_enter h
  have hne : here ≠ place := by
    rintro rfl
    exact hplace hhere
  unfold enter at *
  rw [hhere] at h
  rw [node?_put_of_directory hhere hne]
  exact h

/-- All that is entered on the way is a directory, so the way stays what it was. -/
theorem foldlM_enter_put {components : List String}
    (h : components.foldlM t.enter here = .ok place)
    (hplace : t.node? place ≠ some .directory) (node : FileNode) :
    components.foldlM (t.put place node).enter here = .ok place := by
  induction components generalizing here with
  | nil => exact h
  | cons component components ih =>
    rw [List.foldlM_cons] at h ⊢
    cases henter : t.enter here component with
    | error e =>
      rw [henter] at h
      cases h
    | ok next =>
      rw [henter] at h
      rw [enter_put henter hplace]
      exact ih h

theorem follow_put {components : List String} (h : t.follow components = .ok place)
    (hplace : t.node? place ≠ some .directory) (node : FileNode) :
    (t.put place node).follow components = .ok place :=
  foldlM_enter_put h hplace node

/-- A path that ends in a dot leads to a directory or nowhere. -/
theorem directory_of_follow_dot {above : List String} (h : t.follow (above ++ ["."]) = .ok place) :
    t.node? place = some .directory := by
  unfold follow at h
  rw [List.foldlM_append] at h
  generalize above.foldlM t.enter (if (above ++ ["."]).head? = some "" then [] else t.home) =
    reached at h
  cases reached with
  | error e => cases h
  | ok here =>
    have henter : t.enter here "." = .ok place := by
      rw [← h, ← bind_pure (t.enter here ".")]
      rfl
    have hhere := directory_of_enter henter
    have hdot : t.enter here "." = .ok here := by
      unfold enter
      rw [hhere]
      rfl
    rw [hdot] at henter
    rw [← Except.ok.inj henter]
    exact hhere

theorem writingComponents_cases (components : List String) :
    writingComponents components = components ∨
      ∃ above, writingComponents components = above ++ ["."] := by
  unfold writingComponents
  split
  · split
    · exact .inl rfl
    · split
      · exact .inl rfl
      · exact .inr ⟨_, rfl⟩
  · exact .inl rfl

/-! ## Writing and reading -/

/-- Writing that goes through has followed all of the path, to no directory. It has put the text
    there, unless the path leads to a device that keeps nothing. -/
theorem of_write {path text : String} (h : t.write path text = .ok t') :
    ∃ cs place, components path = .ok cs ∧ t.follow cs = .ok place ∧
      t.node? place ≠ some .directory ∧
      ((t' = t ∧ t.node? place = some (.sink none)) ∨ t' = t.put place (.file (some text))) := by
  unfold write at h
  cases hcs : components path with
  | error e =>
    rw [hcs] at h
    cases h
  | ok cs =>
    rw [hcs] at h
    cases hplace : t.follow (writingComponents cs) with
    | error e =>
      simp only [bind, Except.bind, hplace] at h
      cases h
    | ok place =>
      simp only [bind, Except.bind, hplace] at h
      have hdirectory : t.node? place ≠ some .directory := by
        intro hdirectory
        rw [hdirectory] at h
        cases h
      have hsame : writingComponents cs = cs := by
        rcases writingComponents_cases cs with hsame | ⟨above, habove⟩
        · exact hsame
        · rw [habove] at hplace
          exact absurd (directory_of_follow_dot hplace) hdirectory
      rw [hsame] at hplace
      refine ⟨cs, place, rfl, hplace, hdirectory, ?_⟩
      split at h
      · cases h
      · cases h
      · next hsink => exact .inl ⟨(Except.ok.inj h).symm, hsink⟩
      · exact .inr (Except.ok.inj h).symm

theorem read_of_node? {path : String} {cs : List String} (hcs : components path = .ok cs)
    (hplace : t.follow cs = .ok place) (hnode : t.node? place = some node) :
    t.read path = match node with
      | .directory => .error .isDirectory
      | .file none => .error .notText
      | .file (some text) => .ok text
      | .sink _ => .ok "" := by
  unfold read
  simp only [bind, Except.bind, hcs, hplace, hnode]
  match node with
  | .directory => rfl
  | .file none => rfl
  | .file (some text) => rfl
  | .sink _ => rfl

/-- What has been written is read back. Otherwise nothing has been kept, and nothing is read. -/
theorem read_of_write {path text : String} (h : t.write path text = .ok t') :
    t'.read path = .ok text ∨ (t' = t ∧ t'.read path = .ok "") := by
  obtain ⟨cs, place, hcs, hplace, hdirectory, ⟨rfl, hsink⟩ | rfl⟩ := of_write h
  · exact .inr ⟨rfl, read_of_node? hcs hplace hsink⟩
  · exact .inl (read_of_node? hcs (follow_put hplace hdirectory _) (node?_put_self t place _))

theorem run_write_of_write {path text : String} (h : t.write path text = .ok t') :
    (storage.write path text).run t = (.ok (), t') := by
  unfold storage
  simp only [StateT.run_bind, StateT.run_get, pure_bind, h]
  rfl

theorem keeps_of_write {path text : String} (h : t.write path text = .ok t') (hne : t' ≠ t) :
    storage.Keeps t path text t' where
  written := run_write_of_write h
  readBack := by
    rcases read_of_write h with hread | ⟨hsame, -⟩
    · exact hread
    · exact absurd hsame hne

end FileTree

end PropCalc

/-
  A saved catalog loads as it would be built from its rules.

  The text that a catalog is saved as decodes as the catalog (`decode_fileText`), whatever is in
  its rules. What loading adds is the check, and that is the check of building: so loading a saved
  catalog gives the catalog or the very fault that its rules have (`ofFileText_fileText`).

  Of the storage it is assumed that it keeps the text (`Storage.Keeps`): that it has taken it and
  gives it back. A file that has been loaded has passed the check, so what the command for rules
  exports from it loads again as the same catalog, and which rules are listed and how has no
  bearing on the file (`saved_loads_as_built`).
-/
import PropCalc.Command.Run
import PropCalc.Proofs.Json.Rule
import PropCalc.Proofs.Storage.ReadBack

namespace PropCalc

variable {σ : Type}

namespace Catalog

variable {s : Storage (StateM σ)} {files files' : σ} {path text : String} {c : Catalog}

/-! ## The text of a catalog -/

theorem decode_fileText (c : Catalog) : Json.decodeText ofJson c.fileText = some c := by
  unfold fileText
  rw [Json.decodeText_pretty]
  exact c.ofJson_toJson 123

theorem ofFileText_fileText (path : String) (c : Catalog) :
    ofFileText path c.fileText = (ofRules c.rules).mapError .invalid := by
  unfold ofFileText ofRules
  rw [decode_fileText]
  simp only
  cases c.validate <;> rfl

theorem validate_of_ofFileText (h : ofFileText path text = .ok c) : c.validate = .ok () := by
  unfold ofFileText at h
  split at h
  · cases h
  · split at h
    · next hvalid =>
      cases h
      exact hvalid
    · cases h

/-- A catalog that passes the check is what its rules build. -/
theorem ofRules_of_validate (h : c.validate = .ok ()) : ofRules c.rules = .ok c := by
  unfold ofRules
  rw [h]
  rfl

/-! ## Storages -/

theorem save_of_write {files₁ : σ} (h : (s.write path c.fileText).run files = (.ok (), files₁)) :
    (c.save s path).run files = (.ok (), files₁) := by
  unfold save
  rw [StateT.run_bind, h]
  rfl

/-- Loading reads the file, and decides by what it has read. -/
theorem load_eq (s : Storage (StateM σ)) (path : String) (files : σ) :
    (load s path).run files =
      (match ((s.read path).run files).1 with
        | .ok text => ofFileText path text
        | .error reason => .error (.inaccessible path reason),
      ((s.read path).run files).2) := by
  unfold load
  rw [StateT.run_bind]
  generalize (s.read path).run files = found
  obtain ⟨text | reason, after⟩ := found <;> rfl

theorem validate_of_load {files₁ : σ} (h : (load s path).run files = (.ok c, files₁)) :
    c.validate = .ok () := by
  rw [load_eq] at h
  obtain ⟨h, -⟩ := Prod.mk.inj h
  split at h
  · exact validate_of_ofFileText h
  · cases h

/-- What has been kept loads as its rules build. -/
theorem load_of_keeps (h : s.Keeps files path c.fileText files') :
    ((load s path).run files').1 = (ofRules c.rules).mapError .invalid := by
  rw [load_eq]
  simp only
  rw [h.readBack]
  exact ofFileText_fileText path c

end Catalog

namespace Command

variable {s : Storage (StateM σ)} {files files' : σ} {path : String} {c : Catalog}

/-- What the command for rules writes, and what it leaves in the storage, when the export goes
    through. -/
theorem runRules_of_keeps (h : s.Keeps files path c.fileText files') (category : Option Category)
    (format : Format) :
    (runRules s c category format (some path)).run files =
      (⟨rulesText c category format ++
        s!"Exported {String.ofList (Text.decimal c.rules.length)} rules to {path}\n", none⟩,
        files') := by
  unfold runRules
  simp only
  rw [StateT.run_bind, Catalog.save_of_write h.written]
  rfl

end Command

namespace Invocation

variable {s : Storage (StateM σ)} {files files₁ : σ} {path : String} {c : Catalog}

/-- With a catalog that has been loaded a command runs as it does with the catalog itself. -/
theorem run_of_load (h : (Catalog.load s path).run files = (.ok c, files₁)) (styled : Bool)
    (command : Command) :
    (run s styled ⟨some path, command⟩).run files = (command.run s styled c).run files₁ := by
  unfold run
  simp only
  rw [StateT.run_bind, h]
  rfl

end Invocation

/-- A catalog that a storage has kept, checked or not and whatever is in its rules, loads as the
    same catalog if it is valid, and otherwise loading fails with the fault that building a catalog
    of its rules fails with. Of a catalog that has itself been loaded the command for rules exports
    all rules, whichever of them it lists and in whatever format, and its export loads again as
    the same catalog. -/
theorem Catalog.saved_loads_as_built {s : Storage (StateM σ)} {files files' : σ} {path : String}
    {c : Catalog} (hkeeps : s.Keeps files path c.fileText files') :
    (c.save s path).run files = (.ok (), files') ∧
    ((load s path).run files').1 = (ofRules c.rules).mapError .invalid ∧
    (c.validate = .ok () → ((load s path).run files').1 = .ok c) ∧
    (∀ source before, (load s source).run before = (.ok c, files) →
      (∀ styled category format,
        (Invocation.run s styled ⟨some source, .rules category format (some path)⟩).run before =
          (⟨Command.rulesText c category format ++
            s!"Exported {String.ofList (Text.decimal c.rules.length)} rules to {path}\n", none⟩,
            files')) ∧
      ((load s path).run files').1 = .ok c) := by
  have hload := load_of_keeps hkeeps
  have hvalid : c.validate = .ok () → ((load s path).run files').1 = .ok c := by
    intro h
    rw [hload, ofRules_of_validate h]
    rfl
  refine ⟨save_of_write hkeeps.written, hload, hvalid, fun source before hsource => ⟨?_, ?_⟩⟩
  · intro styled category format
    rw [Invocation.run_of_load hsource]
    exact Command.runRules_of_keeps hkeeps category format
  · exact hvalid (validate_of_load hsource)

/-- Two rules of different categories, one of them with an id that no step can name. -/
def pair : Catalog :=
  ⟨[⟨"swap", "", "\n", .commutativity, "A∧B", "B /\\ A", []⟩,
    ⟨":@", "", "", .doubleNegation, "!!A", "A", ["A"]⟩]⟩

/-- The same rules, each as a list of its fields. -/
def pairText : String :=
  "\x7b\"rules\": [[\"swap\",\"\",\"\\u000A\",\"commutativity\",\"A∧B\",\"B /\\\\ A\",[]]," ++
    "[\":@\",\"\",\"\",\x7b\"doubleNegation\":null\x7d,\"!!A\",\"A\",[\"A\"]]]\x7d"

/-- A directory with that text in a file. -/
def shelf : FileTree := ⟨[(["w", "in.json"], .file (some pairText))], ["w"]⟩

/-- The directory with another file. -/
def shelfWith (text : String) : FileTree := shelf.put ["w", "out.json"] (.file (some text))

theorem keeps_shelf (text : String) :
    FileTree.storage.Keeps shelf "./out.json" text (shelfWith text) := by
  have hcomponents : FileTree.components "./out.json" = .ok [".", "out.json"] := by
    decide +kernel
  have hwrite : shelf.write "./out.json" text = .ok (shelfWith text) := by
    unfold FileTree.write
    rw [hcomponents]
    rfl
  have hnew : shelfWith text ≠ shelf := by
    intro h
    have hfile : (shelfWith text).node? ["w", "out.json"] = some (.file (some text)) :=
      FileTree.node?_put_self shelf _ _
    have hnothing : shelf.node? ["w", "out.json"] = none := by decide
    rw [h, hnothing] at hfile
    cases hfile
  exact FileTree.keeps_of_write hwrite hnew

/-- The file is loaded and exported with one of the two rules listed, and a catalog that has the
    second rule twice is saved in the same place. -/
theorem Catalog.saved_loads_as_built_pair :
    (load FileTree.storage "in.json").run shelf = (.ok pair, shelf) ∧
    FileTree.storage.Keeps shelf "./out.json" pair.fileText (shelfWith pair.fileText) ∧
    (∃ o, (Invocation.run FileTree.storage false
        ⟨some "in.json", .rules (some .commutativity) .csv (some "./out.json")⟩).run shelf =
      (o, shelfWith pair.fileText)) ∧
    ((load FileTree.storage "./out.json").run (shelfWith pair.fileText)).1 = .ok pair ∧
    ((load FileTree.storage "./out.json").run (shelfWith (fileText ⟨pair.rules ++ pair.rules⟩))).1 =
      .error (.invalid (.duplicateId "swap")) := by
  have hread : shelf.read "in.json" = .ok pairText := by decide +kernel
  have hpair : ofFileText "in.json" pairText = .ok pair := by decide +kernel
  have hsource : (load FileTree.storage "in.json").run shelf = (.ok pair, shelf) := by
    rw [load_eq]
    show (match shelf.read "in.json" with
      | .ok text => ofFileText "in.json" text
      | .error reason => .error (.inaccessible "in.json" reason), shelf) = _
    rw [hread, ← hpair]
  have hkeeps := keeps_shelf pair.fileText
  obtain ⟨hexport, hback⟩ := (saved_loads_as_built hkeeps).2.2.2 "in.json" shelf hsource
  have hfault : ofRules (pair.rules ++ pair.rules) = .error (.duplicateId "swap") := by
    decide +kernel
  have hdouble := (saved_loads_as_built (keeps_shelf (fileText ⟨pair.rules ++ pair.rules⟩))).2.1
  refine ⟨hsource, hkeeps, ⟨_, hexport false (some .commutativity) .csv⟩, hback, ?_⟩
  rw [hdouble, hfault]
  rfl

end PropCalc

/-
  A listing of applications in JSON is all that is needed to perform them.

  An application has no formula in its JSON form, only texts, a path and its rule, so it is read
  back wherever three more brackets may be open (`Application.ofJson_toJson`), whatever the texts
  are. The positions of applications lie in a formula and fit in words, and so the listing of a
  formula is read back in full (`Catalog.listing_hands_over`). Performing an application takes
  its rule from the application and asks no catalog.
-/
import PropCalc.Proofs.Application.Enumeration
import PropCalc.Proofs.Json.Rule

namespace PropCalc

namespace Application

theorem ofJson_toJson {a : Application} (ha : a.position.InWords) (room : Nat) :
    ofJson (room + 3) a.toJson = some a := by
  have hnames : fieldNames.Nodup := by decide
  have hfields : Json.fields fieldNames (room + 3) a.toJson =
      some [a.rule.toJson, a.direction.toJson, Path.toJson a.position, .ofText a.description,
        .ofText a.preview] :=
    Json.fields_record hnames rfl (room + 2)
  have hrule := a.rule.ofJson_toJson room
  have hdirection := a.direction.ofJson_toJson (room + 2)
  have hposition := Path.ofJson_toJson ha (room + 1)
  unfold ofJson
  simp only [hfields, Nat.pred_succ, hrule, hdirection, hposition, Json.text?_ofText,
    Option.bind_eq_bind, Option.bind_some, Option.pure_def]

theorem decode_listing {as : List Application} (has : ∀ a ∈ as, a.position.InWords)
    {text : String} (h : text ∈ (listToJson as).written) :
    Json.decodeText listOfJson text = some as := by
  rw [Json.decodeText_of_mem_written listOfJson h]
  exact Json.listOf_map_of_all fun a ha => ofJson_toJson (has a ha) 123

end Application

namespace Catalog

/-- A catalog lists applications at positions of the formula. -/
theorem inWords_of_mem_applications {c : Catalog} {e : Formula} {a : Application}
    (h : a ∈ c.applications e) : a.position.InWords := by
  obtain ⟨_, _, _, -, -, hold, -, -⟩ := perform_of_mem_applications h
  exact Path.inWords_of_subformula hold

/-- Whatever the rules of a catalog are, the listing of the applications to a formula is read back
    from either of its texts as it was, and each application that has been read can be performed on
    the formula and gives what it shows. Nothing but the application is needed for that: its rule
    may be unknown where it is performed. -/
theorem listing_hands_over {c : Catalog} {e : Formula} {text : String}
    (h : text ∈ (Application.listToJson (c.applications e)).written) :
    Json.decodeText Application.listOfJson text = some (c.applications e) ∧
      ∀ as, Json.decodeText Application.listOfJson text = some as →
        ∀ a ∈ as, ∃ result, a.perform ∅ e = some result ∧ result.text = a.preview := by
  have hdecode : Json.decodeText Application.listOfJson text = some (c.applications e) :=
    Application.decode_listing (fun _ => inWords_of_mem_applications) h
  refine ⟨hdecode, fun as has a ha => ?_⟩
  obtain rfl : c.applications e = as := Option.some.inj (hdecode.symm.trans has)
  obtain ⟨result, _, _, hperform, hpreview, -⟩ := perform_of_mem_applications ha
  exact ⟨result, hperform, hpreview⟩

/-- A rule that has the id of a standard one and is another rule, with texts that have to be
    escaped. -/
def foreign : Catalog :=
  ⟨[⟨"double-negation", "\"\\\n𝜑", "\x00", .deMorgan, "A", "A ∧ ⊤", ["\x7f", ""]⟩]⟩

theorem listing_hands_over_foreign :
    (foreign.applications (.neg (.var "a"))).map (·.preview) = ["¬a ∧ ⊤", "¬(a ∧ ⊤)"] ∧
    (∀ a ∈ foreign.applications (.neg (.var "a")), a.rule ∉ standard.rules) ∧
    (Application.listToJson (foreign.applications (.neg (.var "a")))).pretty ∈
      (Application.listToJson (foreign.applications (.neg (.var "a")))).written ∧
    Json.decodeText Application.listOfJson
        (Application.listToJson (foreign.applications (.neg (.var "a")))).pretty =
      some (foreign.applications (.neg (.var "a"))) ∧
    ∀ a ∈ foreign.applications (.neg (.var "a")),
      ∃ result, a.perform ∅ (.neg (.var "a")) = some result ∧ result.text = a.preview := by
  have htext : (Application.listToJson (foreign.applications (.neg (.var "a")))).pretty ∈
      (Application.listToJson (foreign.applications (.neg (.var "a")))).written :=
    List.mem_cons_of_mem _ List.mem_cons_self
  obtain ⟨hdecode, hperform⟩ := listing_hands_over htext
  exact ⟨by decide +kernel, by decide +kernel, htext, hdecode, hperform _ hdecode⟩

end Catalog

end PropCalc

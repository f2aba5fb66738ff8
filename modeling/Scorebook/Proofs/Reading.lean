import Scorebook.Conversion
import Scorebook.Proofs.Grouping
import Scorebook.Proofs.Lookup
import Scorebook.Proofs.Outcome

/-!
# What is read from a score

Parts are read child by child, in the order of the document, and so are the staves that a part
refers to. A reference means the first staff of the score with its id, and what it brings are the
measures of that staff (`Part.ReadFrom`). Grouping comes last and leaves the parts in their order.
-/

namespace Scorebook

theorem flatMap_eq_of_forall₂ {α β γ : Type} {R : α → β → Prop} {as : List α} {bs : List β}
    (h : List.Forall₂ R as bs) {f : α → List γ} {g : β → List γ}
    (heq : ∀ a b, R a b → f a = g b) : as.flatMap f = bs.flatMap g := by
  induction h with
  | nil => rfl
  | cons hab _ ih => rw [List.flatMap_cons, List.flatMap_cons, heq _ _ hab, ih]

namespace Node

/-- The staff of a score that a reference to this id means. -/
def staff? (score : Node) (id : String) : Option Node :=
  (score.named "Staff").find? fun staff => staff.attributeText "id" = id

end Node

theorem StaffMusic.find?_ofScore (score : Node) (id : String) :
    (ofScore score).find? (·.id = id) = (score.staff? id).map ofNode := by
  rw [ofScore, score.elements_eq_named (by decide), List.find?_map]
  rfl

namespace Part

/-- A staff of a part is what is read of a reference. -/
structure StaffReadFrom (score reference : Node) (staff : Staff) : Prop where
  id_eq : staff.id = reference.attributeText "id"
  measures_eq : ∃ found, score.staff? staff.id = some found ∧
    staff.measures = (found.named "Measure").map Measure.ofNode

/-- A part is what is read of its element. -/
structure ReadFrom (score node : Node) (part : Part) : Prop where
  id_eq : part.id = node.attributeText "id"
  staves : List.Forall₂ (StaffReadFrom score) (node.named "Staff") part.staves

theorem readStaves_eq_ok {score : Node} {id : String} {instruments : List Instrument}
    {number : Nat} {references : List Node} {staves : List Staff}
    (h : readStaves id instruments (StaffMusic.ofScore score) number references = .ok staves) :
    List.Forall₂ (StaffReadFrom score) references staves := by
  induction references generalizing number staves with
  | nil =>
    cases h
    exact .nil
  | cons reference references ih =>
    unfold readStaves at h
    dsimp only at h
    rw [StaffMusic.find?_ofScore] at h
    cases hfound : score.staff? (reference.attributeText "id") with
    | none =>
      rw [hfound] at h
      cases h
    | some found =>
      rw [hfound] at h
      obtain ⟨rest, hrest, h⟩ := Except.bind_eq_ok.1 h
      cases h
      refine .cons ⟨rfl, found, hfound, ?_⟩ (ih hrest)
      show (found.elements "Measure").map Measure.ofNode = _
      rw [found.elements_eq_named (by decide)]

theorem ofNode_eq_ok {score node : Node} {part : Part}
    (h : ofNode (StaffMusic.ofScore score) node = .ok part) : ReadFrom score node part := by
  obtain ⟨staves, hstaves, h⟩ := Except.bind_eq_ok.1 h
  cases h
  have hstaff : node.elements "Staff" = node.named "Staff" := node.elements_eq_named (by decide)
  rw [hstaff] at hstaves
  exact ⟨rfl, readStaves_eq_ok hstaves⟩

end Part

namespace Score

/-- The parts of a score that is read, through all its groups, are those of its element. -/
theorem ofNode_eq_ok {node : Node} {score : Score} (h : ofNode node = .ok score) :
    List.Forall₂ (Part.ReadFrom node) (node.named "Part")
      (score.groups.flatMap Group.parts) := by
  obtain ⟨parts, hparts, h⟩ := Except.bind_eq_ok.1 h
  cases h
  rw [Group.flatMap_parts_ofParts]
  rw [partsOfNode, node.elements_eq_named (by decide), Except.mapM_eq_ok] at hparts
  exact hparts.imp fun _ _ hpart => Part.ofNode_eq_ok hpart

theorem ofDocument_eq_ok {root : Node} {score : Score} (h : ofDocument root = .ok score) :
    root.name = "museScore" ∧
      ∃ node, (root.named "Score").head? = some node ∧ ofNode node = .ok score := by
  unfold ofDocument at h
  split at h
  · cases h
  · next hname =>
    rw [root.element?_eq_head?_named (by decide)] at h
    split at h
    · cases h
    · next node hnode => exact ⟨not_not.1 hname, node, hnode, h⟩

end Score

end Scorebook

import Mathlib.Algebra.Order.Ring.Unbundled.Rat
import Scorebook.Proofs.Failure.Engraving
import Scorebook.Proofs.Reading

/-!
# When a document cannot be converted

A conversion fails for the first of four causes (`FailsWith`), each of which can be seen in the
tree of the document: the root has another name, there is no score, a part refers to a staff that
the score does not hold, or a token in a staff that some part refers to tells no length.

References and tokens are listed as they stand in the document: part by part, staff by staff,
measure by measure, voice by voice and event by event, the length of a measure after its voices.
Whatever is not listed does no harm: a length of a measure that cannot be read, an event that is
not known, and all that stands in a staff to which no part refers.

The settings have no part in it.

Main result: `convertDocument_eq_error_iff_failsWith`.
-/

namespace Scorebook

/-! ## Causes in the tree -/

namespace Node

/-- The token by which a child of a voice tells how long it sounds. -/
def lengthToken? (event : Node) : Option String :=
  if event.name = "Chord" then some ((event.childText? "durationType").getD "")
  else if event.name = "Rest" then
    some ((event.childText? "duration").getD ((event.childText? "durationType").getD ""))
  else none

/-- The tokens for which a measure cannot be written. -/
def measureFaults (measure : Node) : List String :=
  unreadable ((measure.named "voice").flatMap fun voice =>
    voice.children.filterMap lengthToken?) ++
  if (measure.attribute? "len").any fun len => Text.IsFraction (Text.trim len) 0
  then ["0"] else []

def staffFaults (staff : Node) : List String :=
  (staff.named "Measure").flatMap measureFaults

/-- The staves that the parts of a score refer to, each with the id of its part. -/
def references (score : Node) : List (String × String) :=
  (score.named "Part").flatMap fun part =>
    (part.named "Staff").map fun staff => (part.attributeText "id", staff.attributeText "id")

/-- The references to staves that the score does not hold. -/
def missingStaves (score : Node) : List (String × String) :=
  score.references.filter fun (_, id) => (score.staff? id).isNone

/-- The tokens that tell no length in the staves that parts refer to. -/
def scoreFaults (score : Node) : List String :=
  score.references.flatMap fun (_, id) => ((score.staff? id).map staffFaults).getD []

/-- All that is wrong with a score, missing staves first. -/
def causes (score : Node) : List ConversionError :=
  (score.missingStaves.map fun (part, id) => .missingStaff part id) ++
    score.scoreFaults.map .unknownDuration

/-- The cause for which a document cannot be converted. -/
inductive FailsWith (root : Node) : ConversionError → Prop
  | unsupportedRoot : root.name ≠ "museScore" → FailsWith root (.unsupportedRoot root.name)
  | missingElement : root.name = "museScore" → (∀ child ∈ root.children, child.name ≠ "Score") →
      FailsWith root (.missingElement "Score")
  | missingStaff {score : Node} {part staff : String} : root.name = "museScore" →
      (root.named "Score").head? = some score →
      score.missingStaves.head? = some (part, staff) → FailsWith root (.missingStaff part staff)
  | unknownDuration {score : Node} {token : String} : root.name = "museScore" →
      (root.named "Score").head? = some score → score.missingStaves = [] →
      score.scoreFaults.head? = some token → FailsWith root (.unknownDuration token)

end Node

/-! ## Measures, as read and in the tree -/

theorem Text.readFraction_nonneg {s : String} {r : Rat} (h : readFraction s = some r) : 0 ≤ r := by
  unfold readFraction at h
  dsimp only at h
  split at h
  · obtain ⟨n, -, rfl⟩ := Option.map_eq_some_iff.1 h
    exact Rat.mkRat_nonneg (Int.natCast_nonneg n) 1
  · obtain ⟨n, -, h⟩ := Option.bind_eq_some_iff.1 h
    obtain ⟨d, -, h⟩ := Option.bind_eq_some_iff.1 h
    split at h
    · cases h
    · cases h
      exact Rat.mkRat_nonneg (Int.natCast_nonneg n) d

theorem Event.lengthToken?_ofNode? (node : Node) :
    (ofNode? node).bind lengthToken? = node.lengthToken? := by
  unfold ofNode? Node.lengthToken?
  split <;> simp_all [lengthToken?, Chord.ofNode, Rest.ofNode, Rest.token]

theorem Voice.lengthTokens_ofNode (node : Node) :
    (ofNode node).lengthTokens = node.children.filterMap Node.lengthToken? := by
  rw [lengthTokens, ofNode, List.filterMap_filterMap, List.filterMap_filter]
  refine List.filterMap_congr ?_
  intro child _
  cases htext : child.isText with
  | true =>
    have hname : child.name = Node.textName := of_decide_eq_true htext
    simp [Node.lengthToken?, hname, Node.textName]
  | false => simpa using Event.lengthToken?_ofNode? child

theorem Measure.faults_ofNode (node : Node) : (ofNode node).faults = node.measureFaults := by
  have hvoices : (ofNode node).voices.flatMap Voice.lengthTokens =
      (node.named "voice").flatMap fun voice => voice.children.filterMap Node.lengthToken? := by
    show ((node.elements "voice").map Voice.ofNode).flatMap _ = _
    rw [node.elements_eq_named (by decide), List.flatMap_map]
    exact List.flatMap_congr fun voice _ => Voice.lengthTokens_ofNode voice
  rw [faults, Node.measureFaults, hvoices]
  congr 1
  show ((((node.attribute? "len").bind fun len => Text.readFraction (Text.trim len)).filter
    (· ≤ 0)).map lengthText).toList = _
  cases node.attribute? "len" with
  | none => rfl
  | some len =>
    rw [Option.bind_some, Option.any_some]
    simp only [← Text.readFraction_eq_some_iff]
    cases hread : Text.readFraction (Text.trim len) with
    | none => rfl
    | some l =>
      have hnonneg := Text.readFraction_nonneg hread
      by_cases hzero : l = 0
      · subst hzero
        rfl
      · have hpos : 0 < l := Rat.not_le.1 fun h => hzero (Rat.le_antisymm h hnonneg)
        simp [hzero, hpos]

/-! ## Reading and engraving a document -/

namespace Part

theorem readStaves_failsAtFirst (score : Node) (part : String) (instruments : List Instrument)
    (number : Nat) (staves : List Node) :
    (readStaves part instruments (StaffMusic.ofScore score) number staves).FailsAtFirst
      (((staves.map fun staff => (part, staff.attributeText "id")).filter
        fun (_, id) => (score.staff? id).isNone).map fun (part, id) => .missingStaff part id) := by
  induction staves generalizing number with
  | nil => exact Except.failsAtFirst_ok []
  | cons staff staves ih =>
    unfold readStaves
    dsimp only
    rw [StaffMusic.find?_ofScore]
    cases hfound : score.staff? (staff.attributeText "id") with
    | none => simp [hfound, Except.FailsAtFirst, Except.error?]
    | some found =>
      simp only [List.map_cons, Option.map_some, hfound, Option.isNone_some, Bool.false_eq_true,
        not_false_eq_true, List.filter_cons_of_neg]
      exact (ih (number + 1)).bind_ok _

theorem ofNode_failsAtFirst (score node : Node) :
    (ofNode (StaffMusic.ofScore score) node).FailsAtFirst
      ((((node.named "Staff").map fun staff =>
        (node.attributeText "id", staff.attributeText "id")).filter
          fun (_, id) => (score.staff? id).isNone).map
            fun (part, id) => .missingStaff part id) := by
  rw [← node.elements_eq_named (by decide)]
  exact (readStaves_failsAtFirst score _ _ 1 _).bind_ok _

/-- The faults of a part that is read are those of the staves it refers to. -/
theorem ReadFrom.faults_eq {score node : Node} {part : Part} (h : ReadFrom score node part) :
    part.faults =
      (node.named "Staff").flatMap fun staff =>
        ((score.staff? (staff.attributeText "id")).map Node.staffFaults).getD [] := by
  have hstaff : ∀ {reference : Node} {staff : Staff}, StaffReadFrom score reference staff →
      staff.faults =
        ((score.staff? (reference.attributeText "id")).map Node.staffFaults).getD [] := by
    rintro reference staff ⟨hid, found, hfound, hmeasures⟩
    rw [hid] at hfound
    rw [hfound, Staff.faults, hmeasures, List.flatMap_map]
    exact List.flatMap_congr fun m _ => Measure.faults_ofNode m
  exact (flatMap_eq_of_forall₂ h.staves fun _ _ hread => (hstaff hread).symm).symm

end Part

namespace Score

theorem ofNode_failsAtFirst (score : Node) :
    (ofNode score).FailsAtFirst
      (score.missingStaves.map fun (part, id) => .missingStaff part id) := by
  have hparts : (partsOfNode score).FailsAtFirst
      (score.missingStaves.map fun (part, id) => .missingStaff part id) := by
    rw [partsOfNode, score.elements_eq_named (by decide), Node.missingStaves, Node.references,
      List.filter_flatMap, List.map_flatMap]
    exact Except.failsAtFirst_mapM fun node _ => Part.ofNode_failsAtFirst score node
  exact hparts.bind_ok _

/-- The faults of a score that is read are those in its tree. -/
theorem faults_ofNode {node : Node} {score : Score} (h : ofNode node = .ok score) :
    (score.groups.flatMap Group.parts).flatMap Part.faults = node.scoreFaults := by
  have hpart : ∀ element part, Part.ReadFrom node element part →
      ((element.named "Staff").map fun staff =>
        (element.attributeText "id", staff.attributeText "id")).flatMap
          (fun (_, id) => ((node.staff? id).map Node.staffFaults).getD []) = part.faults :=
    fun element part hread => by rw [hread.faults_eq, List.flatMap_map]
  have hparts := flatMap_eq_of_forall₂ (ofNode_eq_ok h) hpart
  rw [← hparts, ← List.flatMap_assoc]
  rfl

end Score

namespace Node

theorem head?_named_eq_none_iff {node : Node} {name : String} :
    (node.named name).head? = none ↔ ∀ child ∈ node.children, child.name ≠ name := by
  simp [named]

/-- A document with a score fails for the staves that are missing, and then for the faults in those
that are there. -/
theorem convertDocument_failsAtFirst {root score : Node} (hname : root.name = "museScore")
    (hscore : (root.named "Score").head? = some score) (settings : Settings) :
    (convertDocument root settings).FailsAtFirst score.causes := by
  have hread : Score.ofDocument root = Score.ofNode score := by
    rw [Score.ofDocument, if_neg (not_not.2 hname), root.element?_eq_head?_named (by decide),
      hscore]
  rw [convertDocument, hread]
  refine (Score.ofNode_failsAtFirst score).bind ?_
  intro s hs
  have hfails := s.engrave_failsOn settings
  rwa [Score.faults_ofNode hs] at hfails

/-! ## The first cause -/

variable {root score : Node} {e : ConversionError}

theorem failsWith_iff_of_name_ne (hname : root.name ≠ "museScore") :
    root.FailsWith e ↔ e = .unsupportedRoot root.name := by
  constructor
  · intro h
    cases h with
    | unsupportedRoot => rfl
    | missingElement h | missingStaff h | unknownDuration h => exact absurd h hname
  · rintro rfl
    exact .unsupportedRoot hname

theorem failsWith_iff_of_no_score (hname : root.name = "museScore")
    (hscore : (root.named "Score").head? = none) :
    root.FailsWith e ↔ e = .missingElement "Score" := by
  constructor
  · intro h
    cases h with
    | unsupportedRoot h => exact absurd hname h
    | missingElement => rfl
    | missingStaff _ h | unknownDuration _ h =>
      rw [hscore] at h
      cases h
  · rintro rfl
    exact .missingElement hname (head?_named_eq_none_iff.1 hscore)

/-- In a document with a score, missing staves come before tokens that tell no length. -/
theorem failsWith_iff_of_score (hname : root.name = "museScore")
    (hscore : (root.named "Score").head? = some score) :
    root.FailsWith e ↔ score.causes.head? = some e := by
  unfold causes
  constructor
  · intro h
    cases h with
    | unsupportedRoot h => exact absurd hname h
    | missingElement _ h =>
      rw [head?_named_eq_none_iff.2 h] at hscore
      cases hscore
    | missingStaff _ h hmissing =>
      cases hscore.symm.trans h
      rw [List.head?_append, List.head?_map, hmissing]
      rfl
    | unknownDuration _ h hmissing htoken =>
      cases hscore.symm.trans h
      rw [hmissing, List.map_nil, List.nil_append, List.head?_map, htoken]
      rfl
  · intro h
    cases hmissing : score.missingStaves with
    | cons reference rest =>
      rw [hmissing] at h
      cases h
      exact .missingStaff hname hscore (by rw [hmissing]; rfl)
    | nil =>
      rw [hmissing, List.map_nil, List.nil_append, List.head?_map] at h
      obtain ⟨token, htoken, rfl⟩ := Option.map_eq_some_iff.1 h
      exact .unknownDuration hname hscore hmissing htoken

end Node

theorem convertDocument_of_name_ne {root : Node} (h : root.name ≠ "museScore")
    (settings : Settings) :
    convertDocument root settings = .error (.unsupportedRoot root.name) := by
  rw [convertDocument, Score.ofDocument, if_pos h]
  rfl

theorem convertDocument_of_no_score {root : Node} (hname : root.name = "museScore")
    (hscore : (root.named "Score").head? = none) (settings : Settings) :
    convertDocument root settings = .error (.missingElement "Score") := by
  rw [convertDocument, Score.ofDocument, if_neg (not_not.2 hname),
    root.element?_eq_head?_named (by decide), hscore]
  rfl

/-- **A document fails for the first cause that its tree shows**, whatever the settings. -/
theorem convertDocument_eq_error_iff_failsWith (root : Node) (settings : Settings)
    (e : ConversionError) : convertDocument root settings = .error e ↔ root.FailsWith e := by
  by_cases hname : root.name = "museScore"
  · cases hscore : (root.named "Score").head? with
    | none =>
      rw [convertDocument_of_no_score hname hscore settings, Except.error.injEq,
        Node.failsWith_iff_of_no_score hname hscore, eq_comm]
    | some score =>
      rw [(Node.convertDocument_failsAtFirst hname hscore settings).eq_error_iff,
        Node.failsWith_iff_of_score hname hscore]
  · rw [convertDocument_of_name_ne hname settings, Except.error.injEq,
      Node.failsWith_iff_of_name_ne hname, eq_comm]

end Scorebook

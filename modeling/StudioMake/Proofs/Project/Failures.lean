import StudioMake.Project.Load
import StudioMake.Proofs.MSBuild.Evaluation
import StudioMake.Proofs.Sequences

/-!
# Why loading fails

Loading a project goes through its text, its document and the conditions of its elements. It ends
in the failures of these; those of what is made from a project come later.
-/

set_option autoImplicit false

namespace StudioMake

def Failure.ofLoading : Failure → Bool
  | .notADirectory _ | .unknownConfiguration _ | .unwritable _ => false
  | .notFound _ | .unreadable _ _ | .empty _ | .malformedXml | .unsupportedFormat _ _
  | .noGlobalProperties _ | .noConfigurations _ | .malformedCondition _ => true

def Failure.ofCondition : Failure → Bool
  | .malformedCondition _ => true
  | _ => false

theorem Failure.ofLoading_of_ofCondition {cause : Failure} (h : cause.ofCondition = true) :
    cause.ofLoading = true := by
  cases cause with
  | malformedCondition text => rfl
  | _ => cases h

variable {fs : FileSystem} {l : Location} {macros : MacroTable} {root : Xml.Element}

theorem VisualStudio.readProject_failsOnly :
    FailsOnly (·.ofLoading = true) (VisualStudio.readProject fs l macros root) := by
  unfold VisualStudio.readProject
  split
  · dsimp only
    split
    · exact .error rfl
    · exact .ok _
  · exact .error rfl

namespace MSBuild

variable {directory : String}

theorem holds_failsOnly (s : Evaluation) (e : Xml.Element) :
    FailsOnly (·.ofCondition = true) (s.holds fs directory e) := by
  intro cause h
  obtain ⟨text, -, rfl⟩ := Evaluation.failure_of_holds h
  rfl

theorem evaluateItem_failsOnly (item : ConfigurationItem) :
    FailsOnly (·.ofCondition = true) (evaluateItem fs directory macros root item) := by
  refine FailsOnly.map (fun cause h => ?_) _
  rcases evaluate_ends fs (Pending.ofElements directory root.children)
    { evaluation := .start item.name item.configuration item.platform macros } with
    ⟨s, hs⟩ | ⟨e, text, -, -, hx⟩
  · rw [hs] at h
    cases h
  · rw [hx] at h
    cases h
    rfl

theorem isBuilt_failsOnly (item : FileItem) (s : Evaluation) :
    FailsOnly (·.ofCondition = true) (item.isBuilt fs directory s) := by
  have hpresent : FailsOnly (·.ofCondition = true) (item.isPresent fs directory s) := by
    refine (holds_failsOnly s item.group).bind fun b => ?_
    cases b with
    | true => exact holds_failsOnly s item.element
    | false => exact .ok false
  have hexcludes (exclusions : List Xml.Element) :
      FailsOnly (·.ofCondition = true) (FileItem.excludes fs directory s exclusions) :=
    FailsOnly.foldlM (fun excluded e _ => (holds_failsOnly s e).bind fun b => .ok _) false
  exact hpresent.bind fun present => (hexcludes _).bind fun excluded => .ok _

theorem linkItems_failsOnly (evaluations : List Evaluation) (items : List FileItem) :
    FailsOnly (·.ofCondition = true) (linkItems fs directory evaluations items) := by
  have hlink (item : FileItem) :
      FailsOnly (·.ofCondition = true) (linkItem fs directory evaluations item) :=
    (FailsOnly.mapM fun s _ => isBuilt_failsOnly item s).bind fun built => .ok _
  exact (FailsOnly.mapM fun item _ => hlink item).map _

theorem readProject_failsOnly :
    FailsOnly (·.ofLoading = true) (readProject fs l macros root) := by
  have hcondition {α : Type} {x : Except Failure α} (hx : FailsOnly (·.ofCondition = true) x) :
      FailsOnly (·.ofLoading = true) x :=
    fun cause h => Failure.ofLoading_of_ofCondition (hx cause h)
  unfold readProject
  dsimp only
  split
  · exact .error rfl
  · refine (hcondition (FailsOnly.mapM fun item _ => evaluateItem_failsOnly item)).bind
      fun evaluations => ?_
    split
    · exact .error rfl
    · exact (hcondition (linkItems_failsOnly evaluations _)).bind fun linked => .ok _

end MSBuild

theorem Project.load_failsOnly (seeds : Seeds) (path : String) :
    FailsOnly (·.ofLoading = true) (Project.load fs seeds path) := by
  have hroot (l : Location) (root : Xml.Element) :
      FailsOnly (·.ofLoading = true) (Project.ofRoot fs l seeds root) := by
    unfold Project.ofRoot
    split
    · exact VisualStudio.readProject_failsOnly
    · exact MSBuild.readProject_failsOnly
    · exact .error rfl
  have htext (source : String) :
      FailsOnly (·.ofLoading = true) (Project.ofText fs seeds path source) := by
    unfold Project.ofText
    dsimp only
    split
    · exact .error rfl
    split
    · exact .error rfl
    split
    · exact .error rfl
    · exact (hroot _ _).map _
  unfold Project.load
  split
  · split
    · exact htext _
    · exact .error rfl
  · exact .error rfl

end StudioMake

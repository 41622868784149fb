import StudioMake.Proofs.MSBuild.Evaluation
import StudioMake.Proofs.VisualStudio.SheetTraversal

/-!
# The traversal of imports

An import is followed where it stands: the elements of the sheet are evaluated before those that
come after the import. `Evaluates` and `Fails` say so by recursion, and the pending work of
`evaluate` comes to the same end.
-/

set_option autoImplicit false

namespace StudioMake.MSBuild

open Xml

/-- The path that an import leads to. -/
def Evaluation.target? (s : Evaluation) (directory : String) (e : Element) : Option NormalPath :=
  (e.attribute? "Project").map fun project => .resolve directory (s.macros.expand project)

namespace Progress

def missed (s : Progress) (path : NormalPath) : Progress :=
  { s with visited := s.visited ++ [path] }

def opened (s : Progress) (path : NormalPath) : Progress :=
  { evaluation := s.evaluation.addSheet path, visited := s.visited ++ [path] }

end Progress

/-- A path that an import has reached for the first time, with the root that was evaluated there if
a sheet could be read. -/
structure Visit where
  path : NormalPath
  root : Option Element

/-- Elements are evaluated in order. An import of a sheet that is new evaluates the elements of the
sheet, seen from the directory of the sheet; a group of imports evaluates the imports in it. -/
inductive Evaluates (fs : FileSystem) :
    String → List Element → Progress → List Visit → Progress → Prop
  | nil {directory : String} {s : Progress} : Evaluates fs directory [] s [] s
  | skip {directory : String} {e : Element} {rest : List Element} {s s' : Progress}
      {t : List Visit} (hc : s.evaluation.holds fs directory e = .ok false)
      (h : Evaluates fs directory rest s t s') : Evaluates fs directory (e :: rest) s t s'
  | apply {directory : String} {e : Element} {rest : List Element} {s s' : Progress}
      {t : List Visit} {evaluation : Evaluation}
      (hc : s.evaluation.holds fs directory e = .ok true)
      (hi : e.name ≠ "Import") (hg : e.name ≠ "ImportGroup")
      (ha : s.evaluation.apply fs directory e = .ok evaluation)
      (h : Evaluates fs directory rest { s with evaluation } t s') :
      Evaluates fs directory (e :: rest) s t s'
  | group {directory : String} {e : Element} {rest : List Element} {s s₁ s' : Progress}
      {t₁ t₂ : List Visit} (hc : s.evaluation.holds fs directory e = .ok true)
      (hg : e.name = "ImportGroup")
      (hb : Evaluates fs directory (e.childrenNamed "Import") s t₁ s₁)
      (h : Evaluates fs directory rest s₁ t₂ s') :
      Evaluates fs directory (e :: rest) s (t₁ ++ t₂) s'
  | again {directory : String} {e : Element} {rest : List Element} {s s' : Progress}
      {t : List Visit} (hc : s.evaluation.holds fs directory e = .ok true)
      (hi : e.name = "Import")
      (hp : ∀ path, s.evaluation.target? directory e = some path → path ∈ s.visited)
      (h : Evaluates fs directory rest s t s') : Evaluates fs directory (e :: rest) s t s'
  | miss {directory : String} {e : Element} {rest : List Element} {s s' : Progress}
      {t : List Visit} {path : NormalPath}
      (hc : s.evaluation.holds fs directory e = .ok true) (hi : e.name = "Import")
      (hp : s.evaluation.target? directory e = some path) (hv : path ∉ s.visited)
      (hd : fs.documentAt? path = none)
      (h : Evaluates fs directory rest (s.missed path) t s') :
      Evaluates fs directory (e :: rest) s (⟨path, none⟩ :: t) s'
  | read {directory : String} {e : Element} {rest : List Element} {s s₁ s' : Progress}
      {t₁ t₂ : List Visit} {path : NormalPath} {root : Element}
      (hc : s.evaluation.holds fs directory e = .ok true) (hi : e.name = "Import")
      (hp : s.evaluation.target? directory e = some path) (hv : path ∉ s.visited)
      (hd : fs.documentAt? path = some root)
      (hb : Evaluates fs path.parent.toString root.children (s.opened path) t₁ s₁)
      (h : Evaluates fs directory rest s₁ t₂ s') :
      Evaluates fs directory (e :: rest) s (⟨path, some root⟩ :: (t₁ ++ t₂)) s'

inductive Fails (fs : FileSystem) : String → List Element → Progress → Failure → Prop
  | condition {directory : String} {e : Element} {rest : List Element} {s : Progress}
      {x : Failure} (hc : s.evaluation.holds fs directory e = .error x) :
      Fails fs directory (e :: rest) s x
  | apply {directory : String} {e : Element} {rest : List Element} {s : Progress} {x : Failure}
      (hc : s.evaluation.holds fs directory e = .ok true)
      (hi : e.name ≠ "Import") (hg : e.name ≠ "ImportGroup")
      (ha : s.evaluation.apply fs directory e = .error x) : Fails fs directory (e :: rest) s x
  | group {directory : String} {e : Element} {rest : List Element} {s : Progress} {x : Failure}
      (hc : s.evaluation.holds fs directory e = .ok true) (hg : e.name = "ImportGroup")
      (h : Fails fs directory (e.childrenNamed "Import") s x) : Fails fs directory (e :: rest) s x
  | read {directory : String} {e : Element} {rest : List Element} {s : Progress} {x : Failure}
      {path : NormalPath} {root : Element}
      (hc : s.evaluation.holds fs directory e = .ok true) (hi : e.name = "Import")
      (hp : s.evaluation.target? directory e = some path) (hv : path ∉ s.visited)
      (hd : fs.documentAt? path = some root)
      (h : Fails fs path.parent.toString root.children (s.opened path) x) :
      Fails fs directory (e :: rest) s x
  | later {directory : String} {e : Element} {rest : List Element} {s s₁ : Progress}
      {t : List Visit} {x : Failure} (hs : Evaluates fs directory [e] s t s₁)
      (h : Fails fs directory rest s₁ x) : Fails fs directory (e :: rest) s x

variable {fs : FileSystem} {directory : String} {es : List Element} {s s' : Progress}
  {t : List Visit} {x : Failure}

section Pending

variable {e : Element} {path : NormalPath}

theorem step_skip (hc : s.evaluation.holds fs directory e = .ok false) :
    s.step fs ⟨directory, e⟩ = .ok ([], s) := by
  rw [Progress.step, hc]

theorem step_apply (hc : s.evaluation.holds fs directory e = .ok true)
    (hi : e.name ≠ "Import") (hg : e.name ≠ "ImportGroup") :
    s.step fs ⟨directory, e⟩ =
      (s.evaluation.apply fs directory e).map fun evaluation => ([], { s with evaluation }) := by
  rw [Progress.step, hc]
  simp only [Progress.enter, if_neg hi, if_neg hg]

theorem step_group (hc : s.evaluation.holds fs directory e = .ok true)
    (hg : e.name = "ImportGroup") :
    s.step fs ⟨directory, e⟩ =
      .ok (Pending.ofElements directory (e.childrenNamed "Import"), s) := by
  rw [Progress.step, hc]
  simp [Progress.enter, hg]

theorem step_import (hc : s.evaluation.holds fs directory e = .ok true) (hi : e.name = "Import") :
    s.step fs ⟨directory, e⟩ =
      match s.evaluation.target? directory e with
      | none => .ok ([], s)
      | some path => .ok (s.importPath fs path) := by
  rw [Progress.step, hc]
  simp only [Progress.enter, if_pos hi, Evaluation.target?]
  cases e.attribute? "Project" <;> rfl

theorem step_again (hc : s.evaluation.holds fs directory e = .ok true) (hi : e.name = "Import")
    (hp : ∀ path, s.evaluation.target? directory e = some path → path ∈ s.visited) :
    s.step fs ⟨directory, e⟩ = .ok ([], s) := by
  rw [step_import hc hi]
  cases ht : s.evaluation.target? directory e with
  | none => rfl
  | some path => simp [Progress.importPath, hp path ht]

theorem step_miss (hc : s.evaluation.holds fs directory e = .ok true) (hi : e.name = "Import")
    (hp : s.evaluation.target? directory e = some path) (hv : path ∉ s.visited)
    (hd : fs.documentAt? path = none) :
    s.step fs ⟨directory, e⟩ = .ok ([], s.missed path) := by
  rw [step_import hc hi, hp]
  simp [Progress.importPath, hv, hd, Progress.missed]

theorem step_read {root : Element} (hc : s.evaluation.holds fs directory e = .ok true)
    (hi : e.name = "Import") (hp : s.evaluation.target? directory e = some path)
    (hv : path ∉ s.visited) (hd : fs.documentAt? path = some root) :
    s.step fs ⟨directory, e⟩ =
      .ok (Pending.ofElements path.parent.toString root.children, s.opened path) := by
  rw [step_import hc hi, hp]
  simp [Progress.importPath, hv, hd, Progress.opened]

inductive Steps (fs : FileSystem) (s : Progress) : Pending → List Pending → Progress → Prop
  | skip {directory : String} {e : Element} (hc : s.evaluation.holds fs directory e = .ok false) :
      Steps fs s ⟨directory, e⟩ [] s
  | apply {directory : String} {e : Element} {evaluation : Evaluation}
      (hc : s.evaluation.holds fs directory e = .ok true)
      (hi : e.name ≠ "Import") (hg : e.name ≠ "ImportGroup")
      (ha : s.evaluation.apply fs directory e = .ok evaluation) :
      Steps fs s ⟨directory, e⟩ [] { s with evaluation }
  | group {directory : String} {e : Element} (hc : s.evaluation.holds fs directory e = .ok true)
      (hg : e.name = "ImportGroup") :
      Steps fs s ⟨directory, e⟩ (Pending.ofElements directory (e.childrenNamed "Import")) s
  | again {directory : String} {e : Element} (hc : s.evaluation.holds fs directory e = .ok true)
      (hi : e.name = "Import")
      (hp : ∀ path, s.evaluation.target? directory e = some path → path ∈ s.visited) :
      Steps fs s ⟨directory, e⟩ [] s
  | miss {directory : String} {e : Element} {path : NormalPath}
      (hc : s.evaluation.holds fs directory e = .ok true) (hi : e.name = "Import")
      (hp : s.evaluation.target? directory e = some path) (hv : path ∉ s.visited)
      (hd : fs.documentAt? path = none) : Steps fs s ⟨directory, e⟩ [] (s.missed path)
  | read {directory : String} {e : Element} {path : NormalPath} {root : Element}
      (hc : s.evaluation.holds fs directory e = .ok true) (hi : e.name = "Import")
      (hp : s.evaluation.target? directory e = some path) (hv : path ∉ s.visited)
      (hd : fs.documentAt? path = some root) :
      Steps fs s ⟨directory, e⟩ (Pending.ofElements path.parent.toString root.children)
        (s.opened path)

theorem steps_import {l : List Pending} (hc : s.evaluation.holds fs directory e = .ok true)
    (hi : e.name = "Import") (h : s.step fs ⟨directory, e⟩ = .ok (l, s')) :
    Steps fs s ⟨directory, e⟩ l s' := by
  cases hp : s.evaluation.target? directory e with
  | none =>
    rw [step_again hc hi (by simp [hp])] at h
    cases h
    exact .again hc hi (by simp [hp])
  | some path =>
    by_cases hv : path ∈ s.visited
    · rw [step_again hc hi (by simpa [hp] using hv)] at h
      cases h
      exact .again hc hi (by simpa [hp] using hv)
    · cases hd : fs.documentAt? path with
      | none =>
        rw [step_miss hc hi hp hv hd] at h
        cases h
        exact .miss hc hi hp hv hd
      | some root =>
        rw [step_read hc hi hp hv hd] at h
        cases h
        exact .read hc hi hp hv hd

theorem steps_of_step {p : Pending} {l : List Pending} (h : s.step fs p = .ok (l, s')) :
    Steps fs s p l s' := by
  obtain ⟨directory, e⟩ := p
  cases hc : s.evaluation.holds fs directory e with
  | error x =>
    rw [Progress.step, hc] at h
    cases h
  | ok holds =>
    cases holds with
    | false =>
      rw [step_skip hc] at h
      cases h
      exact .skip hc
    | true =>
      by_cases hi : e.name = "Import"
      · exact steps_import hc hi h
      · by_cases hg : e.name = "ImportGroup"
        · rw [step_group hc hg] at h
          cases h
          exact .group hc hg
        · rw [step_apply hc hi hg] at h
          cases ha : s.evaluation.apply fs directory e with
          | error x =>
            rw [ha] at h
            cases h
          | ok evaluation =>
            rw [ha] at h
            cases h
            exact .apply hc hi hg ha

end Pending

theorem Evaluates.evaluate_eq (h : Evaluates fs directory es s t s') (pending : List Pending) :
    evaluate fs (Pending.ofElements directory es ++ pending) s = evaluate fs pending s' := by
  induction h generalizing pending with
  | nil => rfl
  | skip hc _ ih => exact (evaluate_of_step (step_skip hc) _).trans (ih pending)
  | apply hc hi hg ha _ ih =>
    have hs := step_apply (s := _) hc hi hg
    rw [ha] at hs
    exact (evaluate_of_step hs _).trans (ih pending)
  | group hc hg _ _ ihb ih =>
    refine (evaluate_of_step (step_group hc hg) _).trans ?_
    exact (ihb _).trans (ih pending)
  | again hc hi hp _ ih => exact (evaluate_of_step (step_again hc hi hp) _).trans (ih pending)
  | miss hc hi hp hv hd _ ih =>
    exact (evaluate_of_step (step_miss hc hi hp hv hd) _).trans (ih pending)
  | read hc hi hp hv hd _ _ ihb ih =>
    refine (evaluate_of_step (step_read hc hi hp hv hd) _).trans ?_
    exact (ihb _).trans (ih pending)

theorem Fails.evaluate_eq (h : Fails fs directory es s x) (pending : List Pending) :
    evaluate fs (Pending.ofElements directory es ++ pending) s = .error x := by
  induction h generalizing pending with
  | condition hc =>
    apply evaluate_of_failure
    rw [Progress.step, hc]
  | apply hc hi hg ha =>
    apply evaluate_of_failure
    rw [step_apply hc hi hg, ha]
    rfl
  | group hc hg _ ih => exact (evaluate_of_step (step_group hc hg) _).trans (ih _)
  | read hc hi hp hv hd _ ih =>
    exact (evaluate_of_step (step_read hc hi hp hv hd) _).trans (ih _)
  | later hs _ ih => exact (hs.evaluate_eq _).trans (ih pending)

theorem Fails.malformedCondition (h : Fails fs directory es s x) :
    ∃ text, x = .malformedCondition text := by
  have hc : ∀ s directory e x, Evaluation.holds fs directory s e = .error x →
      ∃ text, x = .malformedCondition text := by
    intro s directory e x hx
    obtain ⟨text, -, hx⟩ := Evaluation.failure_of_holds hx
    exact ⟨text, hx⟩
  induction h with
  | condition hx => exact hc _ _ _ _ hx
  | apply _ _ _ ha =>
    exact Evaluation.apply_fails (N := fun _ => True) (fun _ _ _ _ => trivial)
      (fun s e x _ => hc s _ e x) trivial ha
  | group _ _ _ ih => exact ih
  | read _ _ _ _ _ _ ih => exact ih
  | later _ _ ih => exact ih

theorem Evaluates.visited_eq (h : Evaluates fs directory es s t s') :
    s'.visited = s.visited ++ t.map Visit.path := by
  induction h with
  | nil => simp
  | skip _ _ ih => exact ih
  | apply _ _ _ _ _ ih => exact ih
  | group _ _ _ _ ihb ih => rw [ih, ihb, List.map_append, List.append_assoc]
  | again _ _ _ _ ih => exact ih
  | miss _ _ _ _ _ _ ih => rw [ih, Progress.missed, List.append_assoc]; rfl
  | read _ _ _ _ _ _ _ ihb ih =>
    rw [ih, ihb, Progress.opened, List.map_cons, List.map_append]
    simp only [List.append_assoc, List.cons_append, List.nil_append]

theorem Evaluates.nodup_visited (h : Evaluates fs directory es s t s') (hs : s.visited.Nodup) :
    s'.visited.Nodup := by
  induction h with
  | nil => exact hs
  | skip _ _ ih => exact ih hs
  | apply _ _ _ _ _ ih => exact ih hs
  | group _ _ _ _ ihb ih => exact ih (ihb hs)
  | again _ _ _ _ ih => exact ih hs
  | miss _ _ _ hv _ _ ih => exact ih (VisualStudio.nodup_concat hs hv)
  | read _ _ _ hv _ _ _ ihb ih => exact ih (ihb (VisualStudio.nodup_concat hs hv))

theorem Evaluates.root_eq (h : Evaluates fs directory es s t s') :
    ∀ v ∈ t, v.root = fs.documentAt? v.path := by
  induction h with
  | nil => simp
  | skip _ _ ih => exact ih
  | apply _ _ _ _ _ ih => exact ih
  | group _ _ _ _ ihb ih =>
    intro v hv
    exact (List.mem_append.1 hv).elim (ihb v) (ih v)
  | again _ _ _ _ ih => exact ih
  | miss _ _ _ _ hd _ ih =>
    intro v hv
    rcases List.mem_cons.1 hv with rfl | hv
    · exact hd.symm
    · exact ih v hv
  | read _ _ _ _ hd _ _ ihb ih =>
    intro v hv
    rcases List.mem_cons.1 hv with rfl | hv
    · exact hd.symm
    · exact (List.mem_append.1 hv).elim (ihb v) (ih v)

theorem propertySheets_setProperty (s : Evaluation) (name raw : String) :
    (s.setProperty name raw).configuration.propertySheets = s.configuration.propertySheets := by
  simp only [Evaluation.setProperty, Evaluation.setField]
  repeat' split
  all_goals rfl

theorem propertySheets_apply {s s' : Evaluation} {e : Element}
    (h : s.apply fs directory e = .ok s') :
    s'.configuration.propertySheets = s.configuration.propertySheets := by
  refine Evaluation.apply_keeps
    (P := fun s' => s'.configuration.propertySheets = s.configuration.propertySheets)
    ?_ ?_ h rfl
  · intro _ s₁ property _ h₁
    rw [propertySheets_setProperty, h₁]
  · intro s₁ tool setting h₁
    exact h₁

def sheets (t : List Visit) : List NormalPath := (t.filter (·.root.isSome)).map Visit.path

theorem Evaluates.propertySheets_eq (h : Evaluates fs directory es s t s') :
    s'.evaluation.configuration.propertySheets =
      s.evaluation.configuration.propertySheets ++ sheets t := by
  induction h with
  | nil => simp [sheets]
  | skip _ _ ih => exact ih
  | apply _ _ _ ha _ ih => rw [ih, propertySheets_apply ha]
  | group _ _ _ _ ihb ih =>
    rw [ih, ihb, sheets, sheets, sheets, List.filter_append, List.map_append, List.append_assoc]
  | again _ _ _ _ ih => exact ih
  | miss _ _ _ _ _ _ ih => exact ih
  | read _ _ _ _ _ _ _ ihb ih =>
    rw [ih, ihb]
    simp [sheets, Progress.opened, Evaluation.addSheet]

def Ends (fs : FileSystem) (directory : String) (es : List Element) (s : Progress) : Prop :=
  (∃ t s', Evaluates fs directory es s t s') ∨ ∃ x, Fails fs directory es s x

theorem Evaluates.cons {e : Element} {s₁ : Progress} {t₂ : List Visit}
    (h : Evaluates fs directory [e] s t s₁) (hr : Evaluates fs directory es s₁ t₂ s') :
    Evaluates fs directory (e :: es) s (t ++ t₂) s' := by
  cases h with
  | skip hc h =>
    cases h
    exact .skip hc hr
  | apply hc hi hg ha h =>
    cases h
    exact .apply hc hi hg ha hr
  | group hc hg hb h =>
    cases h
    rw [List.append_nil]
    exact .group hc hg hb hr
  | again hc hi hp h =>
    cases h
    exact .again hc hi hp hr
  | miss hc hi hp hv hd h =>
    cases h
    exact .miss hc hi hp hv hd hr
  | read hc hi hp hv hd hb h =>
    cases h
    rw [List.append_nil]
    exact .read hc hi hp hv hd hb hr

theorem Ends.cons {e : Element} (he : Ends fs directory [e] s)
    (hr : ∀ t s₁, Evaluates fs directory [e] s t s₁ → Ends fs directory es s₁) :
    Ends fs directory (e :: es) s := by
  rcases he with ⟨t, s₁, h⟩ | ⟨x, h⟩
  · rcases hr t s₁ h with ⟨t₂, s', h₂⟩ | ⟨x, h₂⟩
    · exact .inl ⟨_, s', h.cons h₂⟩
    · exact .inr ⟨x, .later h h₂⟩
  · refine .inr ⟨x, ?_⟩
    cases h with
    | condition hc => exact .condition hc
    | apply hc hi hg ha => exact .apply hc hi hg ha
    | group hc hg h => exact .group hc hg h
    | read hc hi hp hv hd h => exact .read hc hi hp hv hd h
    | later _ h => cases h

theorem ends_import {e : Element} (hc : s.evaluation.holds fs directory e = .ok true)
    (hi : e.name = "Import")
    (hb : ∀ path root, path ∉ s.visited → fs.documentAt? path = some root →
      Ends fs path.parent.toString root.children (s.opened path)) :
    Ends fs directory [e] s := by
  cases ht : s.evaluation.target? directory e with
  | none => exact .inl ⟨_, _, .again hc hi (by simp [ht]) .nil⟩
  | some path =>
    by_cases hv : path ∈ s.visited
    · exact .inl ⟨_, _, .again hc hi (by simpa [ht] using hv) .nil⟩
    · cases hd : fs.documentAt? path with
      | none => exact .inl ⟨_, _, .miss hc hi ht hv hd .nil⟩
      | some root =>
        rcases hb path root hv hd with ⟨t, s₁, h⟩ | ⟨x, h⟩
        · exact .inl ⟨_, _, .read hc hi ht hv hd h .nil⟩
        · exact .inr ⟨x, .read hc hi ht hv hd h⟩

theorem ends_singleton {e : Element}
    (hb : ∀ path root, path ∉ s.visited → fs.documentAt? path = some root →
      Ends fs path.parent.toString root.children (s.opened path))
    (hgroup : Ends fs directory (e.childrenNamed "Import") s) : Ends fs directory [e] s := by
  cases hc : s.evaluation.holds fs directory e with
  | error x => exact .inr ⟨x, .condition hc⟩
  | ok holds =>
    cases holds with
    | false => exact .inl ⟨_, _, .skip hc .nil⟩
    | true =>
      by_cases hi : e.name = "Import"
      · exact ends_import hc hi hb
      · by_cases hg : e.name = "ImportGroup"
        · rcases hgroup with ⟨t, s₁, h⟩ | ⟨x, h⟩
          · exact .inl ⟨_, _, .group hc hg h .nil⟩
          · exact .inr ⟨x, .group hc hg h⟩
        · cases ha : s.evaluation.apply fs directory e with
          | error x => exact .inr ⟨x, .apply hc hi hg ha⟩
          | ok evaluation => exact .inl ⟨_, _, .apply hc hi hg ha .nil⟩

theorem Evaluates.unread_le (h : Evaluates fs directory es s t s') :
    fs.unread s'.visited ≤ fs.unread s.visited := by
  rw [h.visited_eq]
  exact fs.unread_append_le _ _

/-- Evaluation ends for every list of elements: a sheet that is read leaves fewer readable paths
unvisited, and a group holds fewer elements than the list it stands in. -/
theorem ends (fs : FileSystem) (directory : String) (es : List Element) (s : Progress) :
    Ends fs directory es s := by
  match es with
  | [] => exact .inl ⟨[], s, .nil⟩
  | e :: rest =>
    have hb : ∀ path root, path ∉ s.visited → fs.documentAt? path = some root →
        Ends fs path.parent.toString root.children (s.opened path) :=
      fun path root _ _ => ends fs path.parent.toString root.children (s.opened path)
    have hgroup := ends fs directory (e.childrenNamed "Import") s
    exact (ends_singleton hb hgroup).cons fun t s₁ h => ends fs directory rest s₁
termination_by (fs.unread s.visited, Element.size.sizes es)
decreasing_by
  · exact Prod.Lex.left _ _ (FileSystem.unread_concat_lt_of_documentAt? ‹_› ‹_›)
  · apply Prod.Lex.right
    have hle := Element.sizes_filter_le (fun c => decide (c.name = "Import")) e.children
    have he := e.size_eq
    simp only [Element.childrenNamed, Element.size.sizes]
    omega
  · have hle := h.unread_le
    have hpos := Progress.one_le_size e
    rw [Prod.lex_def]
    simp only [Element.size.sizes]
    omega

theorem Evaluates.ok (h : Evaluates fs directory es s t s') :
    evaluate fs (Pending.ofElements directory es) s = .ok s' := by
  have he := h.evaluate_eq []
  rw [List.append_nil] at he
  rw [he, evaluate]

theorem Fails.error (h : Fails fs directory es s x) :
    evaluate fs (Pending.ofElements directory es) s = .error x := by
  have he := h.evaluate_eq []
  rwa [List.append_nil] at he

theorem sheets_eq_filter (h : Evaluates fs directory es s t s') :
    sheets t = (t.map Visit.path).filter fun path => (fs.documentAt? path).isSome := by
  rw [sheets, List.filter_map]
  congr 1
  apply List.filter_congr
  intro v hv
  rw [h.root_eq v hv]
  rfl

theorem Evaluates.unique {t' : List Visit} {s'' : Progress}
    (h : Evaluates fs directory es s t s') (h' : Evaluates fs directory es s t' s'') :
    t' = t ∧ s'' = s' := by
  have hs : s'' = s' := Except.ok.inj (h'.ok.symm.trans h.ok)
  subst hs
  have hp : t'.map Visit.path = t.map Visit.path :=
    List.append_cancel_left (h'.visited_eq.symm.trans h.visited_eq)
  have hv : ∀ (u : List Visit), (∀ v ∈ u, v.root = fs.documentAt? v.path) →
      (u.map Visit.path).map (fun path => Visit.mk path (fs.documentAt? path)) = u := by
    intro u hu
    rw [List.map_map]
    apply (List.map_congr_left ?_).trans (List.map_id u)
    intro v hm
    simp [← hu v hm]
  refine ⟨?_, rfl⟩
  rw [← hv t' h'.root_eq, hp, hv t h.root_eq]

/-- The evaluation of a configuration ends for every document in every file system: in a failure,
which is a condition that does not parse, or in a state. Then every path that an import reached is
listed once, and of these the sheets are the readable ones; the root of each of them, and no other,
was evaluated, and that once. -/
theorem imports_evaluated_once (fs : FileSystem) (directory : String) (root : Element)
    (name configuration platform : String) (macros : MacroTable) :
    let start : Progress := { evaluation := .start name configuration platform macros }
    (∃ t s,
      Evaluates fs directory root.children start t s ∧
      (∀ t' s', Evaluates fs directory root.children start t' s' → t' = t ∧ s' = s) ∧
      evaluate fs (Pending.ofElements directory root.children) start = .ok s ∧
      s.visited = t.map Visit.path ∧
      s.visited.Nodup ∧
      s.evaluation.configuration.propertySheets =
        s.visited.filter (fun path => (fs.documentAt? path).isSome) ∧
      s.evaluation.configuration.propertySheets.Nodup ∧
      ∀ path sheet, ⟨path, some sheet⟩ ∈ t ↔
        path ∈ s.evaluation.configuration.propertySheets ∧ fs.documentAt? path = some sheet) ∨
    ∃ text,
      Fails fs directory root.children start (.malformedCondition text) ∧
      evaluate fs (Pending.ofElements directory root.children) start =
        .error (.malformedCondition text) := by
  intro start
  rcases ends fs directory root.children start with ⟨t, s, h⟩ | ⟨x, h⟩
  · left
    have hv : s.visited = t.map Visit.path := h.visited_eq
    have hn : s.visited.Nodup := h.nodup_visited List.nodup_nil
    have hs : s.evaluation.configuration.propertySheets =
        s.visited.filter fun path => (fs.documentAt? path).isSome := by
      rw [h.propertySheets_eq, sheets_eq_filter h, hv]
      rfl
    refine ⟨t, s, h, fun t' s' h' => h.unique h', h.ok, hv, hn, hs, hs ▸ hn.filter _, ?_⟩
    intro path sheet
    rw [hs, List.mem_filter, hv, List.mem_map]
    constructor
    · intro hm
      have hr : some sheet = fs.documentAt? path := h.root_eq _ hm
      exact ⟨⟨⟨_, hm, rfl⟩, by simp [← hr]⟩, hr.symm⟩
    · rintro ⟨⟨⟨v, hm, rfl⟩, -⟩, hd⟩
      rw [← hd, ← h.root_eq v hm]
      exact hm
  · right
    obtain ⟨text, rfl⟩ := h.malformedCondition
    exact ⟨text, h, h.error⟩

/-- The first sheet imports itself, the second and, by a property that the second one sets, the
third; the second imports the third, and the third the first and one that is not there. -/
def linkedImports : FileSystem :=
  { entries :=
      [(["w", "a"],
        text "<Import Project='a'/><Import Project='b'/><Import Project='$(N)'/>" "a" ""),
       (["w", "b"], text "<Import Project='c'/>" "b" "<N>c</N>"),
       (["w", "c"], text "<Import Project='a'/><Import Project='gone'/>" "c" "")] }
where
  text (imports letter more : String) : FileSystem.Entry :=
    .file ((["<P>", imports, "<PropertyGroup>", more, "<T>$(T)", letter,
      "</T></PropertyGroup></P>"].flatMap String.toList).map fun c => UInt8.ofNat c.toNat)

def linkedRoot : Element :=
  { name := "Project"
    children :=
      [{ name := "Import", attributes := [("Project", "a")] },
       { name := "Import", attributes := [("Project", "b")] }] }

theorem imports_evaluated_once_linked :
    let start : Progress :=
      { evaluation := .start "Debug|Win32" "Debug" "Win32" ⟨.ofList [("$(T)", "")]⟩ }
    let path (name : String) : NormalPath := { rooted := true, names := ["w", name] }
    ∃ t s, Evaluates linkedImports "/w" linkedRoot.children start t s ∧
      evaluate linkedImports (Pending.ofElements "/w" linkedRoot.children) start = .ok s ∧
      t.map Visit.path = ["a", "b", "c", "gone"].map path ∧
      s.evaluation.configuration.propertySheets = ["a", "b", "c"].map path ∧
      s.evaluation.macros.get? "T" = some "cba" := by
  intro start path
  obtain ⟨s, hs, hv⟩ := exists_evaluate_of_within linkedImports 20
    (Pending.ofElements "/w" linkedRoot.children) start
    (fun s => s.visited = ["a", "b", "c", "gone"].map path ∧
      s.evaluation.configuration.propertySheets = ["a", "b", "c"].map path ∧
      s.evaluation.macros.get? "T" = some "cba") (by decide +kernel)
  obtain ⟨hvisited, hsheets, htrail⟩ := of_decide_eq_true hv
  rcases imports_evaluated_once linkedImports "/w" linkedRoot "Debug|Win32" "Debug" "Win32"
    ⟨.ofList [("$(T)", "")]⟩ with ⟨t, s', h, -, he, ht, -⟩ | ⟨text, -, hf⟩
  · rw [hs] at he
    cases he
    exact ⟨t, s, h, hs, ht ▸ hvisited, hsheets, htrail⟩
  · rw [hs] at hf
    cases hf

end StudioMake.MSBuild

import Mathlib.Data.List.Forall2
import StudioMake.Proofs.MSBuild.ImportTraversal
import StudioMake.Proofs.MSBuild.MacroOrder
import StudioMake.Proofs.MSBuild.Trace
import StudioMake.Proofs.Path.Resolution

/-!
# An import is an inclusion

An import of a sheet that no other import reaches can be replaced by the elements of the sheet, as
long as these are seen from the same directory. The two evaluations go side by side: all that tells
their states apart is the path of the sheet, and that matters to no element but an import of it.
-/

set_option autoImplicit false

namespace StudioMake

namespace Condition

theorem eval_congr_directory {directory directory' : String}
    (h : NormalPath.ofPath directory = NormalPath.ofPath directory')
    (properties : OrderedMap String) (fs : FileSystem) (c : Condition) :
    eval ⟨properties, directory, fs⟩ c = eval ⟨properties, directory', fs⟩ c := by
  induction c with
  | equal a b => rfl
  | notEqual a b => rfl
  | call f a =>
    cases f with
    | pathExists =>
      rw [eval, eval, pathExists, pathExists, NormalPath.resolve_congr h]
      rfl
    | hasTrailingSlash => rfl
  | not c ih => rw [eval, eval, ih]
  | and a b iha ihb => rw [eval, eval, iha, ihb]
  | or a b iha ihb => rw [eval, eval, iha, ihb]

end Condition

namespace MSBuild

open Xml

variable {fs : FileSystem} {directory directory' : String}

namespace Evaluation

section Directory

variable (h : NormalPath.ofPath directory = NormalPath.ofPath directory')

include h

theorem holds_congr_directory : holds fs directory = holds fs directory' := by
  funext s e
  unfold holds Condition.holds
  cases e.attribute? "Condition" with
  | none => rfl
  | some text => simp only [Condition.eval_congr_directory h]

theorem forEach_congr_directory : forEach fs directory = forEach fs directory' := by
  funext f s l
  simp only [forEach, holds_congr_directory h]

theorem apply_congr_directory : apply fs directory = apply fs directory' := by
  funext s e
  have ht : applyTool fs directory = applyTool fs directory' := by
    funext s tool
    simp only [applyTool, forEach_congr_directory h]
  simp only [apply, forEach_congr_directory h, ht]

theorem target?_congr_directory (s : Evaluation) (e : Element) :
    s.target? directory e = s.target? directory' e := by
  simp only [target?, NormalPath.resolve_congr h]

end Directory

end Evaluation

structure Pending.Alike (p q : Pending) : Prop where
  element : p.element = q.element
  directory : NormalPath.ofPath p.directory = NormalPath.ofPath q.directory

theorem Pending.alike_ofElements (h : NormalPath.ofPath directory = NormalPath.ofPath directory')
    (l : List Element) :
    List.Forall₂ Pending.Alike (ofElements directory l) (ofElements directory' l) := by
  induction l with
  | nil => exact .nil
  | cons e l ih => exact .cons ⟨rfl, h⟩ ih

def Inserted (path : NormalPath) (l l' : List NormalPath) : Prop :=
  ∃ before after, l = before ++ path :: after ∧ l' = before ++ after

namespace Inserted

variable {path other : NormalPath} {l l' : List NormalPath}

theorem concat (h : Inserted path l l') (other : NormalPath) :
    Inserted path (l ++ [other]) (l' ++ [other]) := by
  obtain ⟨before, after, rfl, rfl⟩ := h
  exact ⟨before, after ++ [other], by simp, by simp⟩

theorem last (path : NormalPath) (l : List NormalPath) : Inserted path (l ++ [path]) l :=
  ⟨l, [], rfl, (List.append_nil l).symm⟩

theorem mem_iff (h : Inserted path l l') (hne : other ≠ path) : other ∈ l ↔ other ∈ l' := by
  obtain ⟨before, after, rfl, rfl⟩ := h
  simp [hne]

end Inserted

namespace Evaluation

def withSheets (s : Evaluation) (sheets : List NormalPath) : Evaluation :=
  { s with configuration := { s.configuration with propertySheets := sheets } }

structure SameButFor (path : NormalPath) (s t : Evaluation) : Prop where
  eq : s = t.withSheets s.configuration.propertySheets
  sheets : Inserted path s.configuration.propertySheets t.configuration.propertySheets

theorem withSheets_setProperty (s : Evaluation) (sheets : List NormalPath) (name raw : String) :
    (s.withSheets sheets).setProperty name raw = (s.setProperty name raw).withSheets sheets := by
  simp only [withSheets, setProperty, setField]
  repeat' split
  all_goals rfl

namespace SameButFor

variable {path : NormalPath} {s t : Evaluation}

theorem macros (h : SameButFor path s t) : s.macros = t.macros := by
  rw [h.eq]
  rfl

theorem target?_eq (h : SameButFor path s t) (e : Element) :
    s.target? directory e = t.target? directory e := by
  rw [target?, target?, h.macros]

theorem setProperty (h : SameButFor path s t) (name raw : String) :
    SameButFor path (s.setProperty name raw) (t.setProperty name raw) := by
  constructor
  · rw [propertySheets_setProperty, ← withSheets_setProperty, ← h.eq]
  · rw [propertySheets_setProperty, propertySheets_setProperty]
    exact h.sheets

theorem setSetting (h : SameButFor path s t) (tool : String) (setting : Element) :
    SameButFor path (s.setSetting tool setting) (t.setSetting tool setting) := by
  constructor
  · rw [h.eq]
    rfl
  · exact h.sheets

theorem addSheet (h : SameButFor path s t) (other : NormalPath) :
    SameButFor path (s.addSheet other) (t.addSheet other) := by
  constructor
  · rw [h.eq]
    rfl
  · exact h.sheets.concat other

theorem apply (h : SameButFor path s t) (e : Element) :
    Agree (SameButFor path) (s.apply fs directory e) (t.apply fs directory e) :=
  apply_agree (N := fun _ => True) (fun _ _ _ _ => trivial)
    (fun _ _ e _ h => holds_congr h.macros e) (fun _ _ tool setting h => h.setSetting tool setting)
    (fun _ _ _ property _ h => h.setProperty property.name property.text) trivial h

end SameButFor

end Evaluation

/-- The same progress, but for a path that has been visited and whose sheet has been read. -/
structure Progress.SameButFor (path : NormalPath) (s t : Progress) : Prop where
  evaluation : Evaluation.SameButFor path s.evaluation t.evaluation
  visited : Inserted path s.visited t.visited
  fresh : path ∉ t.visited

/-- The path that an import has reached when its element is dealt with. -/
def reaches (fs : FileSystem) (s : Progress) (p : Pending) : List NormalPath :=
  if p.element.name = "Import" ∧
      (s.evaluation.holds fs p.directory p.element).toOption = some true then
    (s.evaluation.target? p.directory p.element).toList
  else []

theorem reaches_import {s : Progress} {e : Element} {path : NormalPath}
    (hc : s.evaluation.holds fs directory e = .ok true) (hi : e.name = "Import")
    (hp : s.evaluation.target? directory e = some path) :
    reaches fs s ⟨directory, e⟩ = [path] := by
  simp [reaches, hc, hi, hp, Except.toOption]

structure PendsAlike (path : NormalPath) (a b : List Pending × Progress) : Prop where
  pending : List.Forall₂ Pending.Alike a.1 b.1
  progress : a.2.SameButFor path b.2

namespace Progress.SameButFor

variable {path other : NormalPath} {s t : Progress} {p q : Pending}

theorem importPath (h : s.SameButFor path t) (hne : other ≠ path) :
    PendsAlike path (s.importPath fs other) (t.importPath fs other) := by
  have hf : path ∉ t.visited ++ [other] := by simp [h.fresh, Ne.symm hne]
  unfold Progress.importPath
  by_cases hv : other ∈ t.visited
  · rw [if_pos ((h.visited.mem_iff hne).2 hv), if_pos hv]
    exact ⟨.nil, h⟩
  · rw [if_neg fun hm => hv ((h.visited.mem_iff hne).1 hm), if_neg hv]
    split
    · exact ⟨.nil, h.evaluation, h.visited.concat other, hf⟩
    · exact ⟨Pending.alike_ofElements rfl _, h.evaluation.addSheet other,
        h.visited.concat other, hf⟩

theorem step (h : s.SameButFor path t) (hpq : p.Alike q) (hr : path ∉ reaches fs s p) :
    Agree (PendsAlike path) (s.step fs p) (t.step fs q) := by
  obtain ⟨directory, e⟩ := p
  obtain ⟨directory', e'⟩ := q
  obtain ⟨rfl, hd⟩ := hpq
  simp only at hd
  have hh : s.evaluation.holds fs directory e = t.evaluation.holds fs directory' e := by
    rw [Evaluation.holds_congr h.evaluation.macros, Evaluation.holds_congr_directory hd]
  have ht : s.evaluation.target? directory e = t.evaluation.target? directory' e := by
    rw [h.evaluation.target?_eq, Evaluation.target?_congr_directory hd]
  cases hc : t.evaluation.holds fs directory' e with
  | error x =>
    rw [Progress.step, Progress.step, hh, hc]
    exact .error x
  | ok holds =>
    cases holds with
    | false =>
      rw [step_skip (hh.trans hc), step_skip hc]
      exact .ok ⟨.nil, h⟩
    | true =>
      by_cases hi : e.name = "Import"
      · rw [step_import (hh.trans hc) hi, step_import hc hi, ht]
        cases hp : t.evaluation.target? directory' e with
        | none => exact .ok ⟨.nil, h⟩
        | some other =>
          rw [reaches_import (hh.trans hc) hi (ht.trans hp), List.mem_singleton] at hr
          exact .ok (h.importPath (Ne.symm hr))
      · by_cases hg : e.name = "ImportGroup"
        · rw [step_group (hh.trans hc) hg, step_group hc hg]
          exact .ok ⟨Pending.alike_ofElements hd _, h⟩
        · rw [step_apply (hh.trans hc) hi hg, step_apply hc hi hg,
            Evaluation.apply_congr_directory hd]
          rcases (h.evaluation.apply e).cases with ⟨a, b, ha, hb, hab⟩ | ⟨x, ha, hb⟩
          · rw [ha, hb]
            exact .ok ⟨.nil, hab, h.visited, h.fresh⟩
          · rw [ha, hb]
            exact .error x

/-- So does a run that does not reach it. -/
theorem evaluate {l l' : List Pending} (h : s.SameButFor path t)
    (hl : List.Forall₂ Pending.Alike l l') (hr : path ∉ trace fs (reaches fs) l s) :
    Agree (Progress.SameButFor path) (evaluate fs l s) (evaluate fs l' t) := by
  induction l, s using evaluate.induct fs generalizing l' t with
  | case1 s =>
    cases hl
    rw [evaluate_nil, evaluate_nil]
    exact .ok h
  | case2 s p rest x hx =>
    cases hl with
    | cons hp _ =>
      rw [trace_of_failure hx] at hr
      rcases (h.step hp hr).cases with ⟨a, b, hs, -, -⟩ | ⟨y, hs, ht⟩
      · rw [hx] at hs
        cases hs
      · rw [evaluate_of_failure hs, evaluate_of_failure ht]
        exact .error y
  | case3 s p rest next s₁ hs ih =>
    cases hl with
    | cons hp hrest =>
      rw [trace_of_step hs, List.mem_append, not_or] at hr
      rcases (h.step hp hr.1).cases with ⟨a, ⟨next', t₁⟩, hs', ht, h₁⟩ | ⟨x, hs', -⟩
      · rw [hs] at hs'
        cases hs'
        rw [evaluate_of_step hs, evaluate_of_step ht]
        exact ih h₁.progress (List.rel_append h₁.pending hrest) hr.2
      · rw [hs] at hs'
        cases hs'

end Progress.SameButFor

theorem visited_of_step {s s' : Progress} {p : Pending} {l : List Pending}
    (h : s.step fs p = .ok (l, s')) {path : NormalPath} (hv : path ∈ s'.visited) :
    path ∈ s.visited ∨ path ∈ reaches fs s p := by
  cases steps_of_step h with
  | skip => exact .inl hv
  | apply => exact .inl hv
  | group => exact .inl hv
  | again => exact .inl hv
  | miss hc hi hp =>
    rw [reaches_import hc hi hp]
    exact List.mem_append.1 hv
  | read hc hi hp =>
    rw [reaches_import hc hi hp]
    exact List.mem_append.1 hv

/-- Every path that has been visited is one that an import has reached. -/
theorem visited_of_evaluate {s s' : Progress} {pending : List Pending}
    (h : evaluate fs pending s = .ok s') {path : NormalPath} (hv : path ∈ s'.visited) :
    path ∈ s.visited ∨ path ∈ trace fs (reaches fs) pending s := by
  have hrun := trace_of_evaluate (reaches fs)
    (R := fun s paths s' => path ∈ s'.visited → path ∈ s.visited ∨ path ∈ paths) ?_ ?_ h
  · exact hrun hv
  · exact fun s hv => .inl hv
  · intro s s₁ s' p l paths hs ih hv
    rw [List.mem_append]
    rcases ih hv with hv | hv
    · exact (visited_of_step hs hv).imp_right .inl
    · exact .inr (.inr hv)

theorem Pending.ofElements_append (directory : String) (l l' : List Element) :
    ofElements directory (l ++ l') = ofElements directory l ++ ofElements directory l' :=
  List.map_append

theorem agree_of_import (fs : FileSystem) (directory : String) (s m : Progress)
    (before after : List Element) (e root : Element) (path : NormalPath)
    (hm : evaluate fs (Pending.ofElements directory before) s = .ok m)
    (hi : e.name = "Import") (hc : m.evaluation.holds fs directory e = .ok true)
    (hp : m.evaluation.target? directory e = some path) (hd : fs.documentAt? path = some root)
    (hdir : NormalPath.ofPath path.parent.toString = NormalPath.ofPath directory)
    (hv : path ∉ s.visited)
    (hr : (trace fs (reaches fs) (Pending.ofElements directory (before ++ e :: after)) s).count
      path ≤ 1) :
    Agree (Progress.SameButFor path)
      (evaluate fs (Pending.ofElements directory (before ++ e :: after)) s)
      (evaluate fs (Pending.ofElements directory (before ++ root.children ++ after)) s) := by
  have hce : Pending.ofElements directory (before ++ e :: after) =
      Pending.ofElements directory before ++ ⟨directory, e⟩ :: Pending.ofElements directory after :=
    Pending.ofElements_append directory before (e :: after)
  have hone : reaches fs m ⟨directory, e⟩ = [path] := reaches_import hc hi hp
  rw [hce, trace_append_of_evaluate hm, List.count_append] at hr
  have hself : path ∈ trace fs (reaches fs)
      (⟨directory, e⟩ :: Pending.ofElements directory after) m :=
    (note_prefix_trace m ⟨directory, e⟩ _).subset (by simp [hone])
  have hbefore : path ∉ trace fs (reaches fs) (Pending.ofElements directory before) s := by
    have := List.count_pos_iff.2 hself
    rw [← List.count_eq_zero]
    omega
  have hfresh : path ∉ m.visited := fun hmem => (visited_of_evaluate hm hmem).elim hv hbefore
  have hs := step_read hc hi hp hfresh hd
  have hafter : path ∉ trace fs (reaches fs)
      (Pending.ofElements path.parent.toString root.children ++
        Pending.ofElements directory after) (m.opened path) := by
    rw [trace_of_step hs, hone, List.count_append, List.count_singleton_self] at hr
    rw [← List.count_eq_zero]
    omega
  have hrun : (m.opened path).SameButFor path m :=
    ⟨⟨rfl, .last path _⟩, .last path _, hfresh⟩
  rw [hce, evaluate_append, hm, Pending.ofElements_append, Pending.ofElements_append,
    List.append_assoc, evaluate_append, hm]
  show Agree _ (evaluate fs _ m) (evaluate fs _ m)
  rw [evaluate_of_step hs]
  exact hrun.evaluate (List.rel_append (Pending.alike_ofElements hdir _)
    (Pending.alike_ofElements rfl _)) hafter

theorem AnyOrder.evaluate_eq_only {names : List String}
    (hstandard : ∀ name ∈ MacroTable.msbuildNames, name ∈ names)
    (hsheets : ∀ path sheet, fs.documentAt? path = some sheet → Clear names sheet)
    {elements : List Element} {s : Progress} (he : ∀ e ∈ elements, Clear names e)
    (hs : s.evaluation.macros.Within names) :
    AnyOrder.evaluate fs (Pending.ofElements directory elements) s =
      .only (MSBuild.evaluate fs (Pending.ofElements directory elements) s) :=
  (followed_only hstandard hsheets).evaluate (fun _ hp => he _ (Pending.mem_ofElements hp)) hs

/-- An import whose condition holds, of a sheet in the directory of the importing file that no
other import reaches, is the same as the elements of the sheet in its place: either both
evaluations fail alike, or their final states have the same macros and the same configuration, but
for the path of the sheet among those that were visited and read. That is so with all conditions
meeting the properties in the order of the macros, and, if the elements and the sheets that can be
read ask only for names that have at most one other spelling among those that are set, with each
condition of either evaluation meeting them in an order of its own. -/
theorem import_in_place (fs : FileSystem) (directory : String) (s m : Progress)
    (before after : List Element) (e root : Element) (path : NormalPath)
    (hm : evaluate fs (Pending.ofElements directory before) s = .ok m)
    (hi : e.name = "Import") (hc : m.evaluation.holds fs directory e = .ok true)
    (hp : m.evaluation.target? directory e = some path) (hd : fs.documentAt? path = some root)
    (hdir : NormalPath.ofPath path.parent.toString = NormalPath.ofPath directory)
    (hv : path ∉ s.visited)
    (hr : (trace fs (reaches fs) (Pending.ofElements directory (before ++ e :: after)) s).count
      path ≤ 1) :
    Agree (Progress.SameButFor path)
      (evaluate fs (Pending.ofElements directory (before ++ e :: after)) s)
      (evaluate fs (Pending.ofElements directory (before ++ root.children ++ after)) s) ∧
    ∀ names : List String, (∀ name ∈ MacroTable.msbuildNames, name ∈ names) →
      (∀ path sheet, fs.documentAt? path = some sheet → Clear names sheet) →
      (∀ e' ∈ before ++ e :: after, Clear names e') → s.evaluation.macros.Within names →
        let importing := AnyOrder.evaluate fs
          (Pending.ofElements directory (before ++ e :: after)) s
        let including := AnyOrder.evaluate fs
          (Pending.ofElements directory (before ++ root.children ++ after)) s
        (∃ r, importing.Yields r) ∧ (∃ r, including.Yields r) ∧
          ∀ r r', importing.Yields r → including.Yields r' →
            Agree (Progress.SameButFor path) r r' := by
  have hagree := agree_of_import fs directory s m before after e root path hm hi hc hp hd hdir hv hr
  refine ⟨hagree, fun names hstandard hsheets he hs => ?_⟩
  have hincluded : ∀ e' ∈ before ++ root.children ++ after, Clear names e' := by
    intro e' hm'
    rw [List.append_assoc, List.mem_append, List.mem_append] at hm'
    rcases hm' with hm' | hm' | hm'
    · exact he e' (List.mem_append_left _ hm')
    · exact (hsheets path root hd).child e' hm'
    · exact he e' (List.mem_append_right _ (List.mem_cons_of_mem _ hm'))
  refine ⟨⟨_, AnyOrder.evaluate_yields _ _ _⟩, ⟨_, AnyOrder.evaluate_yields _ _ _⟩,
    fun r r' hy hy' => ?_⟩
  rw [AnyOrder.evaluate_eq_only hstandard hsheets he hs, Outcomes.yields_only_iff] at hy
  rw [AnyOrder.evaluate_eq_only hstandard hsheets hincluded hs, Outcomes.yields_only_iff] at hy'
  rw [hy, hy']
  exact hagree

def propertyGroup (name text : String) : Element :=
  { name := "PropertyGroup", children := [{ name, text }] }

def conditionalImport : Element :=
  { name := "Import", attributes := [("Project", "b.props"), ("Condition", "'$(A)'=='1'")] }

def importedSheet : FileSystem :=
  ({} : FileSystem).addFile ["w", "b.props"] (text.toList.map fun c => UInt8.ofNat c.toNat)
where
  text : String := "<P><PropertyGroup><B>$(A)2</B></PropertyGroup></P>"

def importedRoot : Element := { name := "P", children := [propertyGroup "B" "$(A)2"] }

theorem eq_importedRoot_of_documentAt? {path : NormalPath} {sheet : Element}
    (h : importedSheet.documentAt? path = some sheet) : sheet = importedRoot := by
  have hall : ∀ path ∈ importedSheet.spellings,
      (importedSheet.documentAt? path).all (· = importedRoot) = true := by decide +kernel
  have hp := hall path (FileSystem.mem_spellings_of_documentAt? h)
  rw [h] at hp
  exact of_decide_eq_true hp

def importedNames : List String := MacroTable.msbuildNames ++ ["A", "B", "C"]

theorem clear_propertyGroup {name : String} (h : MacroTable.nameOf name ∈ importedNames)
    (text : String) : Clear importedNames (propertyGroup name text) := by
  refine .intro (by simp [askedNames, propertyGroup, Element.attribute?]) (fun _ => ?_) ?_
  · rw [propertyGroup, List.forall_mem_singleton]
    exact h
  · rw [propertyGroup, List.forall_mem_singleton]
    exact .intro (by simp [askedNames, Element.attribute?]) (by simp) (by simp)

theorem import_in_place_conditional :
    let start : Progress := { evaluation := .start "Debug|x64" "Debug" "x64" ⟨∅⟩ }
    let before := [propertyGroup "A" "1"]
    let after := [propertyGroup "C" "$(B)3"]
    let path : NormalPath := { rooted := true, names := ["w", "b.props"] }
    ∃ s t,
      evaluate importedSheet (Pending.ofElements "/w" (before ++ conditionalImport :: after))
        start = .ok s ∧
      (AnyOrder.evaluate importedSheet
        (Pending.ofElements "/w" (before ++ [propertyGroup "B" "$(A)2"] ++ after)) start).Yields
          (.ok t) ∧
      s.SameButFor path t ∧ t.evaluation.macros.get? "C" = some "123" := by
  intro start before after path
  obtain ⟨m, hm, hreached⟩ := exists_evaluate_of_within importedSheet 10
    (Pending.ofElements "/w" before) start
    (fun m => m.evaluation.holds importedSheet "/w" conditionalImport = .ok true &&
      m.evaluation.target? "/w" conditionalImport = some path) (by decide +kernel)
  rw [Bool.and_eq_true, decide_eq_true_eq, decide_eq_true_eq] at hreached
  obtain ⟨s, hs, hv⟩ := exists_evaluate_of_within importedSheet 10
    (Pending.ofElements "/w" (before ++ conditionalImport :: after)) start
    (fun s => s.evaluation.macros.get? "C" = some "123") (by decide +kernel)
  have hr := of_traceWithin importedSheet (reaches importedSheet) 10
    (Pending.ofElements "/w" (before ++ conditionalImport :: after)) start
    (fun paths => paths.count path ≤ 1) (by decide +kernel)
  have hclear : ∀ e ∈ before ++ conditionalImport :: after, Clear importedNames e := by
    show ∀ e ∈ [propertyGroup "A" "1", conditionalImport, propertyGroup "C" "$(B)3"], _
    rw [List.forall_mem_cons, List.forall_mem_cons, List.forall_mem_singleton]
    exact ⟨clear_propertyGroup (by decide) _,
      .intro (by decide +kernel) (by decide) (by simp [conditionalImport]),
      clear_propertyGroup (by decide) _⟩
  have hsheets : ∀ path sheet, importedSheet.documentAt? path = some sheet →
      Clear importedNames sheet := by
    intro path sheet h
    rw [eq_importedRoot_of_documentAt? h]
    refine .of_unconditional rfl (by decide) ?_
    rw [importedRoot, List.forall_mem_singleton]
    exact clear_propertyGroup (by decide) _
  obtain ⟨-, ⟨r, hincluded⟩, halike⟩ :=
    (import_in_place importedSheet "/w" start m before after conditionalImport importedRoot path hm
      rfl hreached.1 hreached.2 (by decide +kernel) (by decide +kernel) List.not_mem_nil
      (of_decide_eq_true hr)).2 importedNames (fun _ h => List.mem_append_left _ h) hsheets hclear
      (by decide +kernel)
  have himport := AnyOrder.evaluate_yields importedSheet
    (Pending.ofElements "/w" (before ++ conditionalImport :: after)) start
  rw [hs] at himport
  rcases (halike _ r himport hincluded).cases with ⟨_, t, hs', rfl, hst⟩ | ⟨_, hx, -⟩
  · cases hs'
    refine ⟨s, t, hs, hincluded, hst, ?_⟩
    rw [← hst.evaluation.macros]
    exact of_decide_eq_true hv
  · cases hx

/-- The order in which a condition meets two spellings tells an import from an inclusion. -/
theorem inclusion_differs_on_spellings :
    let start : Progress := { evaluation := .start "Debug|x64" "Debug" "x64" ⟨∅⟩ }
    let before := [propertyGroup "A" "1", propertyGroup "OPT" "1", propertyGroup "opt" "0"]
    let after := [unsettledGroup]
    let path : NormalPath := { rooted := true, names := ["w", "b.props"] }
    (∃ m, evaluate importedSheet (Pending.ofElements "/w" before) start = .ok m ∧
      m.evaluation.holds importedSheet "/w" conditionalImport = .ok true ∧
      m.evaluation.target? "/w" conditionalImport = some path) ∧
    importedSheet.documentAt? path = some importedRoot ∧ path ∉ start.visited ∧
    NormalPath.ofPath path.parent.toString = NormalPath.ofPath "/w" ∧
    (trace importedSheet (reaches importedSheet)
      (Pending.ofElements "/w" (before ++ conditionalImport :: after)) start).count path ≤ 1 ∧
    ∃ s t,
      (AnyOrder.evaluate importedSheet
        (Pending.ofElements "/w" (before ++ conditionalImport :: after)) start).Yields (.ok s) ∧
      (AnyOrder.evaluate importedSheet
        (Pending.ofElements "/w" (before ++ importedRoot.children ++ after)) start).Yields (.ok t) ∧
      s.evaluation.configuration.outputDirectory = "chosen" ∧
      t.evaluation.configuration.outputDirectory = "$(SolutionDir)x64\\Debug\\" := by
  intro start before after path
  obtain ⟨m, hm, hreached⟩ := exists_evaluate_of_within importedSheet 10
    (Pending.ofElements "/w" before) start
    (fun m => m.evaluation.holds importedSheet "/w" conditionalImport = .ok true ∧
      m.evaluation.target? "/w" conditionalImport = some path) (by decide +kernel)
  have hr := of_traceWithin importedSheet (reaches importedSheet) 10
    (Pending.ofElements "/w" (before ++ conditionalImport :: after)) start
    (fun paths => paths.count path ≤ 1) (by decide +kernel)
  obtain ⟨s, hs, hchosen⟩ := exists_evaluate_of_within importedSheet 10
    (Pending.ofElements "/w" (before ++ conditionalImport :: after)) start
    (fun s => s.evaluation.configuration.outputDirectory = "chosen") (by decide +kernel)
  obtain ⟨t, ht, hpassed⟩ := exists_evaluate_of_within importedSheet 10
    (Pending.ofElements "/w" (before ++ importedRoot.children)) start
    (fun t => Condition.holds ⟨t.evaluation.macros.properties.reverse, "/w", importedSheet⟩
        (unsettledGroup.attribute? "Condition") = .ok false ∧
      t.evaluation.configuration.outputDirectory = "$(SolutionDir)x64\\Debug\\")
    (by decide +kernel)
  obtain ⟨hc, hd⟩ := of_decide_eq_true hpassed
  have hfalse :
      (AnyOrder.holds importedSheet "/w" t.evaluation unsettledGroup).Yields (.ok false) :=
    hc ▸ AnyOrder.holds_yields (OrderedMap.perm_reverse _)
  refine ⟨⟨m, hm, of_decide_eq_true hreached⟩, by decide +kernel, List.not_mem_nil,
    by decide +kernel, of_decide_eq_true hr, s, t, hs ▸ AnyOrder.evaluate_yields _ _ _, ?_,
    of_decide_eq_true hchosen, hd⟩
  exact AnyOrder.evaluate_passes_over (p := ⟨"/w", unsettledGroup⟩) ht hfalse

end MSBuild

end StudioMake

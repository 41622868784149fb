import Mathlib.Data.Set.Functor
import StudioMake.Proofs.MSBuild.FileLinking

/-!
# Conditions that meet the properties in any order

A condition that looks for another spelling of a name may meet the properties in any order, and the
next condition in another one. So there are several ways in which a project can be read; the one in
which all conditions meet the properties in the order of the macros is one of them.
-/

set_option autoImplicit false

namespace StudioMake

/-- What can come of a computation that leaves choices open. -/
abbrev Outcomes := ExceptT Failure SetM

namespace Outcomes

variable {α β : Type} {x : Outcomes α} {r : Except Failure α}

def among (results : Set (Except Failure α)) : Outcomes α := ExceptT.mk (m := SetM) results

def only (r : Except Failure α) : Outcomes α := among {r}

def Yields (x : Outcomes α) (r : Except Failure α) : Prop := r ∈ SetM.run (ExceptT.run x)

theorem ext {y : Outcomes α} (h : ∀ r, x.Yields r ↔ y.Yields r) : x = y := Set.ext h

theorem yields_only_iff {r' : Except Failure α} : (only r).Yields r' ↔ r' = r := Iff.rfl

theorem yields_bind_iff {f : α → Outcomes β} {r : Except Failure β} :
    (x >>= f).Yields r ↔
      (∃ a, x.Yields (.ok a) ∧ (f a).Yields r) ∨ ∃ e, x.Yields (.error e) ∧ r = .error e := by
  constructor
  · intro h
    obtain ⟨r', hx, hr⟩ := Set.mem_iUnion₂.1 h
    cases r' with
    | ok a => exact .inl ⟨a, hx, hr⟩
    | error e => exact .inr ⟨e, hx, hr⟩
  · rintro (⟨a, hx, hr⟩ | ⟨e, hx, rfl⟩)
    · exact Set.mem_iUnion₂.2 ⟨.ok a, hx, hr⟩
    · exact Set.mem_iUnion₂.2 ⟨.error e, hx, rfl⟩

theorem Yields.bind {f : α → Outcomes β} {a : α} {r : Except Failure β} (h : x.Yields (.ok a))
    (hr : (f a).Yields r) : (x >>= f).Yields r :=
  yields_bind_iff.2 (.inl ⟨a, h, hr⟩)

theorem Yields.mapM {f : α → Outcomes β} {l : List α} {results : List β}
    (h : List.Forall₂ (fun a b => (f a).Yields (.ok b)) l results) :
    (l.mapM f).Yields (.ok results) := by
  induction h with
  | nil => exact yields_only_iff.2 rfl
  | cons hab _ ih =>
    rw [List.mapM_cons]
    exact hab.bind (ih.bind (yields_only_iff.2 rfl))

/-- A relation between what can come of a computation and one result, kept by sequencing. -/
structure Sequential (K : (α : Type) → Outcomes α → Except Failure α → Prop) : Prop where
  only : ∀ {α : Type} (r : Except Failure α), K α (only r) r
  bind : ∀ {α β : Type} {x : Outcomes α} {r : Except Failure α} {f : α → Outcomes β}
    {g : α → Except Failure β},
    K α x r → (∀ a, r = .ok a → K β (f a) (g a)) → K β (x >>= f) (r >>= g)

theorem sequential_yields : Sequential fun _ x r => x.Yields r where
  only _ := rfl
  bind {_ _ _ r _ _} hx hf := by
    cases r with
    | ok a => exact hx.bind (hf a rfl)
    | error e => exact yields_bind_iff.2 (.inr ⟨e, hx, rfl⟩)

theorem sequential_only : Sequential fun _ x r => x = Outcomes.only r where
  only _ := rfl
  bind {_ _ _ r f g} hx hf := by
    subst hx
    apply ext
    intro r'
    rw [yields_bind_iff]
    cases r with
    | ok a =>
      have hfa : f a = Outcomes.only (g a) := hf a rfl
      constructor
      · rintro (⟨b, hb, hr⟩ | ⟨e, he, -⟩)
        · cases yields_only_iff.1 hb
          rwa [hfa] at hr
        · cases yields_only_iff.1 he
      · intro hr
        exact .inl ⟨a, yields_only_iff.2 rfl, hfa ▸ hr⟩
    | error e =>
      constructor
      · rintro (⟨b, hb, -⟩ | ⟨e', he, rfl⟩)
        · cases yields_only_iff.1 hb
        · cases yields_only_iff.1 he
          rfl
      · rintro rfl
        exact .inr ⟨e, yields_only_iff.2 rfl, rfl⟩

namespace Sequential

variable {K : (α : Type) → Outcomes α → Except Failure α → Prop} (k : Sequential K)

include k

theorem mapM {f : α → Outcomes β} {g : α → Except Failure β} {l : List α}
    (h : ∀ a ∈ l, K _ (f a) (g a)) : K _ (l.mapM f) (l.mapM g) := by
  induction l with
  | nil => exact k.only (.ok [])
  | cons a l ih =>
    rw [List.forall_mem_cons] at h
    rw [List.mapM_cons, List.mapM_cons]
    exact k.bind h.1 fun b _ => k.bind (ih h.2) fun rest _ => k.only (.ok (b :: rest))

theorem map {f : α → β} (h : K _ x r) : K _ (x >>= fun a => pure (f a)) (r.map f) := by
  have hr : r.map f = r >>= fun a => .ok (f a) := by cases r <;> rfl
  rw [hr]
  exact k.bind h fun a _ => k.only (.ok (f a))

theorem foldlM {P : β → Prop} {f : β → α → Outcomes β} {g : β → α → Except Failure β}
    {l : List α} (h : ∀ b, P b → ∀ a ∈ l, K _ (f b a) (g b a))
    (hp : ∀ b, P b → ∀ a ∈ l, ∀ b', g b a = .ok b' → P b') {b : β} (hb : P b) :
    K _ (l.foldlM f b) (l.foldlM g b) := by
  induction l generalizing b with
  | nil => exact k.only (.ok b)
  | cons a l ih =>
    rw [List.foldlM_cons, List.foldlM_cons]
    refine k.bind (h b hb a List.mem_cons_self) fun b' hb' => ?_
    exact ih (fun b hb a ha => h b hb a (List.mem_cons_of_mem _ ha))
      (fun b hb a ha => hp b hb a (List.mem_cons_of_mem _ ha))
      (hp b hb a List.mem_cons_self b' hb')

end Sequential

end Outcomes

namespace MSBuild

open Xml

namespace AnyOrder

section Definitions

variable (fs : FileSystem) (directory : String)

/-- The answers to the condition of an element, one for each order of the properties. -/
def holds (s : Evaluation) (e : Element) : Outcomes Bool :=
  .among {r | ∃ properties : OrderedMap String,
    s.macros.properties.toList.Perm properties.toList ∧
      r = Condition.holds { properties, directory, files := fs } (e.attribute? "Condition")}

def forEach (f : Evaluation → Element → Outcomes Evaluation) (s : Evaluation)
    (l : List Element) : Outcomes Evaluation :=
  l.foldlM
    (fun s e => do
      if ← holds fs directory s e then f s e else return s) s

def applyTool (s : Evaluation) (tool : Element) : Outcomes Evaluation :=
  forEach fs directory
    (fun s setting => pure (s.setSetting (Evaluation.toolOf tool.name) setting)) s tool.children

def apply (s : Evaluation) (e : Element) : Outcomes Evaluation :=
  if e.name = "PropertyGroup" then
    forEach fs directory (fun s property => pure (s.setProperty property.name property.text)) s
      e.children
  else if e.name = "ItemDefinitionGroup" then
    forEach fs directory (applyTool fs directory) s e.children
  else pure s

def enter (s : Progress) (p : Pending) : Outcomes (List Pending × Progress) :=
  if p.element.name = "Import" then
    match p.element.attribute? "Project" with
    | none => pure ([], s)
    | some project =>
      pure (s.importPath fs (.resolve p.directory (s.evaluation.macros.expand project)))
  else if p.element.name = "ImportGroup" then
    pure (Pending.ofElements p.directory (p.element.childrenNamed "Import"), s)
  else do
    let evaluation ← apply fs p.directory s.evaluation p.element
    return ([], { s with evaluation })

def step (s : Progress) (p : Pending) : Outcomes (List Pending × Progress) := do
  if ← holds fs p.directory s.evaluation p.element then enter fs s p else return ([], s)

inductive Evaluates : List Pending → Progress → Except Failure Progress → Prop
  | done {s : Progress} : Evaluates [] s (.ok s)
  | failure {s : Progress} {p : Pending} {rest : List Pending} {e : Failure}
      (h : (step fs s p).Yields (.error e)) : Evaluates (p :: rest) s (.error e)
  | next {s s' : Progress} {p : Pending} {l rest : List Pending} {r : Except Failure Progress}
      (h : (step fs s p).Yields (.ok (l, s'))) (hr : Evaluates (l ++ rest) s' r) :
      Evaluates (p :: rest) s r

def evaluate (pending : List Pending) (s : Progress) : Outcomes Progress :=
  .among {r | Evaluates fs pending s r}

def evaluateItem (macros : MacroTable) (root : Element) (item : ConfigurationItem) :
    Outcomes Evaluation := do
  let s ← evaluate fs (Pending.ofElements directory root.children)
    { evaluation := .start item.name item.configuration item.platform macros }
  return s.evaluation.finish

def isPresent (s : Evaluation) (item : FileItem) : Outcomes Bool := do
  if ← holds fs directory s item.group then holds fs directory s item.element else return false

def excludes (s : Evaluation) (exclusions : List Element) : Outcomes Bool :=
  (exclusions.filter saysTrue).foldlM
    (fun excluded e => do return (← holds fs directory s e) || excluded) false

def isBuilt (item : FileItem) (s : Evaluation) : Outcomes Bool := do
  let present ← isPresent fs directory s item
  let excluded ← excludes fs directory s (item.element.childrenNamed "ExcludedFromBuild")
  return present && !excluded

def linkItem (evaluations : List Evaluation) (item : FileItem) : Outcomes (List LinkedFile) := do
  let built ← evaluations.mapM (isBuilt fs directory item)
  let configurations := evaluations.map Evaluation.configuration
  let excluded :=
    (((configurations.zip built).filter fun entry => !entry.2).map (·.1.name)).eraseDups
  return item.paths.map fun path =>
    { file := item.file directory configurations excluded path, built }

def linkItems (evaluations : List Evaluation) (items : List FileItem) :
    Outcomes (List LinkedFile) := do
  return (← items.mapM (linkItem fs directory evaluations)).flatten

end Definitions

/-- The projects that a document may be read as. -/
def readProject (fs : FileSystem) (l : Location) (macros : MacroTable) (root : Element) :
    Outcomes Project := do
  if describesProject root then
    let evaluations ← (configurationItems root).mapM (evaluateItem fs l.directory
      (l.setMacros (projectName l root) ((global? root "RootNamespace").getD "") macros) root)
    if (configurationItems root).isEmpty then throw (.noConfigurations l.path)
    else
      let linked ← linkItems fs l.directory evaluations (fileItems root)
      return assemble fs l root evaluations linked
  else throw (.noGlobalProperties l.path)

theorem evaluate_nil (fs : FileSystem) (s : Progress) : evaluate fs [] s = pure s := by
  apply Outcomes.ext
  intro r
  constructor
  · rintro ⟨⟩
    rfl
  · rintro ⟨⟩
    exact .done

theorem evaluate_cons (fs : FileSystem) (s : Progress) (p : Pending) (rest : List Pending) :
    evaluate fs (p :: rest) s =
      step fs s p >>= fun next => evaluate fs (next.1 ++ rest) next.2 := by
  apply Outcomes.ext
  intro r
  rw [Outcomes.yields_bind_iff]
  constructor
  · intro h
    cases h with
    | failure h => exact .inr ⟨_, h, rfl⟩
    | next h hr => exact .inl ⟨_, h, hr⟩
  · rintro (⟨_, h, hr⟩ | ⟨e, h, rfl⟩)
    · exact Evaluates.next h hr
    · exact Evaluates.failure h

end AnyOrder

/-- What ties the readings in any order to the one in the order of the macros: `K` holds of each
check of a condition, as long as `N` holds of the elements and `P` of the states. -/
structure Followed (fs : FileSystem) (K : (α : Type) → Outcomes α → Except Failure α → Prop)
    (N : Element → Prop) (P : Evaluation → Prop) : Prop extends Kept fs N P where
  sequential : Outcomes.Sequential K
  holds : ∀ directory s e, N e → P s →
    K _ (AnyOrder.holds fs directory s e) (s.holds fs directory e)

namespace Followed

variable {fs : FileSystem} {directory : String} {s : Evaluation} {e : Element}
  {K : (α : Type) → Outcomes α → Except Failure α → Prop} {N : Element → Prop}
  {P : Evaluation → Prop} (k : Followed fs K N P)

include k

theorem ok {α : Type} (a : α) : K α (pure a) (.ok a) := k.sequential.only (.ok a)

theorem forEach {f : Evaluation → Element → Outcomes Evaluation}
    {g : Evaluation → Element → Except Failure Evaluation} {l : List Element}
    (hl : ∀ e ∈ l, N e) (hf : ∀ s, P s → ∀ e ∈ l, K _ (f s e) (g s e))
    (hp : ∀ s, P s → ∀ e ∈ l, ∀ s', g s e = .ok s' → P s') (hs : P s) :
    K _ (AnyOrder.forEach fs directory f s l) (Evaluation.forEach fs directory g s l) := by
  refine k.sequential.foldlM ?_ ?_ hs
  · intro s hs e he
    refine k.sequential.bind (k.holds directory s e (hl e he) hs) fun b _ => ?_
    cases b with
    | false => exact k.ok s
    | true => exact hf s hs e he
  · intro s hs e he s' h
    obtain ⟨b, -, h⟩ := bind_eq_ok_iff.1 h
    cases b with
    | false =>
      cases h
      exact hs
    | true => exact hp s hs e he s' h

theorem applyTool (he : N e) (hs : P s) :
    K _ (AnyOrder.applyTool fs directory s e) (s.applyTool fs directory e) := by
  refine k.forEach (k.child e he) (fun s _ setting _ => k.ok _) ?_ hs
  intro s hs setting _ s' h
  cases h
  exact k.setSetting s _ setting hs

theorem apply (he : N e) (hs : P s) :
    K _ (AnyOrder.apply fs directory s e) (s.apply fs directory e) := by
  unfold AnyOrder.apply Evaluation.apply
  split
  · next hg =>
    refine k.forEach (k.child e he) (fun s _ property _ => k.ok _) ?_ hs
    intro s hs property hm s' h
    cases h
    exact k.setProperty s e he hg property hm hs
  · split
    · refine k.forEach (k.child e he) (fun s hs tool hm => k.applyTool (k.child e he tool hm) hs)
        ?_ hs
      intro s hs tool _ s' h
      exact Evaluation.applyTool_keeps k.setSetting h hs
    · exact k.ok s

theorem enter {s : Progress} {p : Pending} (hp : N p.element) (hs : P s.evaluation) :
    K _ (AnyOrder.enter fs s p) (s.enter fs p) := by
  unfold AnyOrder.enter Progress.enter
  split
  · cases p.element.attribute? "Project" with
    | none => exact k.ok _
    | some project => exact k.ok _
  · split
    · exact k.ok _
    · exact k.sequential.map (k.apply hp hs)

theorem step {s : Progress} {p : Pending} (hp : N p.element) (hs : P s.evaluation) :
    K _ (AnyOrder.step fs s p) (s.step fs p) := by
  have hbind : s.step fs p =
      s.evaluation.holds fs p.directory p.element >>= fun b =>
        if b = true then s.enter fs p else .ok ([], s) := by
    unfold Progress.step
    split <;> simp only [*] <;> rfl
  rw [hbind]
  refine k.sequential.bind (k.holds _ _ _ hp hs) fun b _ => ?_
  cases b with
  | false => exact k.ok _
  | true => exact k.enter hp hs

theorem evaluate {pending : List Pending} {s : Progress} (hp : ∀ p ∈ pending, N p.element)
    (hs : P s.evaluation) : K _ (AnyOrder.evaluate fs pending s) (evaluate fs pending s) := by
  induction pending, s using MSBuild.evaluate.induct fs with
  | case1 s =>
    rw [AnyOrder.evaluate_nil, MSBuild.evaluate]
    exact k.ok s
  | case2 s p rest e he =>
    have hstep := k.step (hp p List.mem_cons_self) hs
    rw [AnyOrder.evaluate_cons, evaluate_of_failure he]
    rw [he] at hstep
    refine k.sequential.bind (r := .error e) (g := fun _ => .error e) hstep fun _ h => ?_
    cases h
  | case3 s p rest l s' hs' ih =>
    have hstep := k.step (hp p List.mem_cons_self) hs
    rw [AnyOrder.evaluate_cons, evaluate_of_step hs']
    rw [hs'] at hstep
    refine k.sequential.bind (r := .ok (l, s'))
      (g := fun next => MSBuild.evaluate fs (next.1 ++ rest) next.2) hstep ?_
    rintro _ ⟨⟩
    refine ih ?_ (k.toKept.step hs' (hp p List.mem_cons_self) hs)
    intro q hq
    rcases List.mem_append.1 hq with hq | hq
    · exact k.toKept.elements hs' (hp p List.mem_cons_self) hs q hq
    · exact hp q (List.mem_cons_of_mem p hq)

theorem evaluateItem {macros : MacroTable} {root : Element} {item : ConfigurationItem}
    (hr : N root) (hs : P (.start item.name item.configuration item.platform macros)) :
    K _ (AnyOrder.evaluateItem fs directory macros root item)
      (evaluateItem fs directory macros root item) :=
  k.sequential.map (k.evaluate (fun _ hp => k.child root hr _ (Pending.mem_ofElements hp)) hs)

section Linking

variable {item : FileItem} {evaluations : List Evaluation}

theorem isPresent (hg : N item.group) (he : N item.element) (hs : P s) :
    K _ (AnyOrder.isPresent fs directory s item) (item.isPresent fs directory s) := by
  refine k.sequential.bind (k.holds _ _ _ hg hs) fun b _ => ?_
  cases b with
  | false => exact k.ok false
  | true => exact k.holds _ _ _ he hs

theorem excludes {l : List Element} (hl : ∀ e ∈ l, N e) (hs : P s) :
    K _ (AnyOrder.excludes fs directory s l) (FileItem.excludes fs directory s l) := by
  refine k.sequential.foldlM (P := fun _ => True) ?_ (fun _ _ _ _ _ _ => trivial) trivial
  intro excluded _ e he
  exact k.sequential.bind (k.holds _ _ _ (hl e (List.mem_filter.1 he).1) hs) fun _ _ => k.ok _

theorem isBuilt (hg : N item.group) (he : N item.element) (hs : P s) :
    K _ (AnyOrder.isBuilt fs directory item s) (item.isBuilt fs directory s) := by
  refine k.sequential.bind (k.isPresent hg he hs) fun present _ => ?_
  refine k.sequential.bind (k.excludes ?_ hs) fun excluded _ => k.ok _
  exact fun c hc => k.child _ he c (List.mem_filter.1 hc).1

theorem linkItem (hg : N item.group) (he : N item.element) (hs : ∀ s ∈ evaluations, P s) :
    K _ (AnyOrder.linkItem fs directory evaluations item)
      (linkItem fs directory evaluations item) :=
  k.sequential.bind (k.sequential.mapM fun s hm => k.isBuilt hg he (hs s hm)) fun _ _ => k.ok _

theorem linkItems {items : List FileItem}
    (hi : ∀ item ∈ items, N item.group ∧ N item.element) (hs : ∀ s ∈ evaluations, P s) :
    K _ (AnyOrder.linkItems fs directory evaluations items)
      (linkItems fs directory evaluations items) :=
  k.sequential.map (k.sequential.mapM fun item hm => k.linkItem (hi item hm).1 (hi item hm).2 hs)

theorem readProject {macros : MacroTable} {l : Location} {root : Element} (hr : N root)
    (hs : ∀ item : ConfigurationItem, P (.start item.name item.configuration item.platform
      (l.setMacros (projectName l root) ((global? root "RootNamespace").getD "") macros)))
    (hf : ∀ s, P s → P s.finish) :
    K _ (AnyOrder.readProject fs l macros root) (readProject fs l macros root) := by
  rw [readProject_eq_ite, AnyOrder.readProject]
  split
  · refine k.sequential.bind (k.sequential.mapM fun item _ => k.evaluateItem hr (hs item)) ?_
    intro evaluations he
    split
    · exact k.sequential.only _
    · refine k.sequential.bind (k.linkItems ?_ ?_) fun linked _ => k.ok _
      · intro item hm
        obtain ⟨hg, he⟩ := mem_children_of_mem_fileItems hm
        exact ⟨k.child root hr _ hg, k.child _ (k.child root hr _ hg) _ he⟩
      · intro s hm
        obtain ⟨item, -, hi⟩ := exists_of_mem_mapM he hm
        obtain ⟨s', hs', rfl⟩ := map_eq_ok_iff.1 hi
        exact hf _ (k.toKept.evaluate hs'
          (fun _ hp => k.child root hr _ (Pending.mem_ofElements hp)) (hs item))
  · exact k.sequential.only _

end Linking

end Followed

namespace AnyOrder

variable {fs : FileSystem} {directory : String}

theorem holds_yields {s : Evaluation} {e : Element} {properties : OrderedMap String}
    (h : s.macros.properties.toList.Perm properties.toList) :
    (holds fs directory s e).Yields
      (Condition.holds { properties, directory, files := fs } (e.attribute? "Condition")) :=
  ⟨properties, h, rfl⟩

theorem followed_yields (fs : FileSystem) :
    Followed fs (fun _ x r => x.Yields r) (fun _ => True) fun _ => True where
  child _ _ _ _ := trivial
  document _ _ _ := trivial
  setProperty _ _ _ _ _ _ _ := trivial
  setSetting _ _ _ _ := trivial
  addSheet _ _ _ := trivial
  sequential := Outcomes.sequential_yields
  holds _ _ _ _ _ := holds_yields (.refl _)

theorem evaluate_yields (fs : FileSystem) (pending : List Pending) (s : Progress) :
    (evaluate fs pending s).Yields (MSBuild.evaluate fs pending s) :=
  (followed_yields fs).evaluate (fun _ _ => trivial) trivial

/-- The projects that can be put together from final states of all configurations. -/
theorem yields_assemble {l : Location} {macros : MacroTable} {root : Element}
    {evaluations : List Evaluation} {linked : List LinkedFile}
    (hd : describesProject root = true) (hn : configurationItems root ≠ [])
    (he : List.Forall₂
      (fun item s => (evaluateItem fs l.directory
        (l.setMacros (projectName l root) ((global? root "RootNamespace").getD "") macros) root
          item).Yields (.ok s))
      (configurationItems root) evaluations)
    (hl : (linkItems fs l.directory evaluations (fileItems root)).Yields (.ok linked)) :
    (readProject fs l macros root).Yields (.ok (assemble fs l root evaluations linked)) := by
  rw [readProject, if_pos hd]
  refine (Outcomes.Yields.mapM he).bind ?_
  rw [if_neg (by simpa using hn)]
  exact hl.bind (Outcomes.yields_only_iff.2 rfl)

theorem evaluate_passes_over {before : List Pending} {p : Pending} {s m : Progress}
    (hm : MSBuild.evaluate fs before s = .ok m)
    (hc : (holds fs p.directory m.evaluation p.element).Yields (.ok false)) :
    (evaluate fs (before ++ [p]) s).Yields (.ok m) := by
  have hstep : (step fs m p).Yields (.ok ([], m)) := hc.bind (Outcomes.yields_only_iff.2 rfl)
  induction before, s using MSBuild.evaluate.induct fs with
  | case1 s =>
    rw [MSBuild.evaluate] at hm
    cases hm
    exact Evaluates.next hstep .done
  | case2 s q rest e he =>
    rw [evaluate_of_failure he] at hm
    cases hm
  | case3 s q rest l s' hs ih =>
    rw [evaluate_of_step hs] at hm
    have hq : (step fs s q).Yields (.ok (l, s')) :=
      hs ▸ (followed_yields fs).step (p := q) (s := s) trivial trivial
    refine Evaluates.next hq ?_
    show Evaluates fs (l ++ (rest ++ [p])) s' (.ok m)
    rw [← List.append_assoc]
    exact ih hm

theorem readProject_yields (fs : FileSystem) (l : Location) (macros : MacroTable)
    (root : Element) :
    (readProject fs l macros root).Yields (MSBuild.readProject fs l macros root) :=
  (followed_yields fs).readProject trivial (fun _ => trivial) fun _ _ => trivial

end AnyOrder

end MSBuild

end StudioMake

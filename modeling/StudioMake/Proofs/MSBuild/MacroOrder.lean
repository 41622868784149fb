import StudioMake.MacroTable.Vocabulary
import StudioMake.Proofs.MSBuild.AnyOrder
import StudioMake.Proofs.MacroTable.Properties

/-!
# The order of macros

While a project is read, its conditions see the macros under their bare names. As long as no
condition asks for a name that is itself missing and has two other spellings, the order of the
macros does not show in the project.
-/

set_option autoImplicit false

namespace StudioMake

namespace MacroTable

variable {m m' : MacroTable} {names : List String}

/-- Every macro of a table bears one of some names. -/
def Within (names : List String) (m : MacroTable) : Prop :=
  ∀ token ∈ m.tokens, ∃ name ∈ names, bare? token = some name

instance (names : List String) (m : MacroTable) : Decidable (m.Within names) :=
  inferInstanceAs (Decidable (∀ token ∈ m.tokens, _))

theorem Within.set (h : m.Within names) {name : String} (hn : nameOf name ∈ names)
    (value : String) : (m.set name value).Within names := by
  intro t ht
  rw [tokens_set] at ht
  split at ht
  · exact h t ht
  · rcases List.mem_append.1 ht with ht | ht
    · exact h t ht
    · rw [List.mem_singleton.1 ht]
      exact ⟨_, hn, bare?_token name⟩

theorem Within.toList_properties (h : m.Within names) :
    m.properties.toList = m.values.toList.map fun entry => (nameOf entry.1, entry.2) := by
  apply MacroTable.toList_properties
  intro token ht
  obtain ⟨name, -, hb⟩ := h token ht
  rw [hb]
  rfl

theorem Within.mem_of_mem_properties (h : m.Within names) {entry : String × String}
    (hm : entry ∈ m.properties.toList) : entry.1 ∈ names := by
  rw [h.toList_properties] at hm
  obtain ⟨e, he, rfl⟩ := List.mem_map.1 hm
  obtain ⟨name, hn, hb⟩ := h e.1 (List.mem_map_of_mem he)
  simpa [nameOf, hb] using hn

/-- Besides a name itself, at most one of some names is a spelling of it. -/
def Unambiguous (names : List String) (name : String) : Prop :=
  ∀ a ∈ names, a ≠ name → Text.sameIgnoringCase a name = true →
    ∀ b ∈ names, b ≠ name → Text.sameIgnoringCase b name = true → a = b

instance (names : List String) : DecidablePred (Unambiguous names) :=
  fun _ => inferInstanceAs (Decidable (∀ a ∈ names, _))

theorem Within.settled (h : m.Within names) {name : String} (hu : Unambiguous names name) :
    m.properties.Settled name := by
  by_cases hk : name ∈ m.properties.keys
  · exact .inl hk
  · right
    intro a ha b hb hsa hsb
    have hne : ∀ entry ∈ m.properties.toList, entry.1 ≠ name := by
      intro entry he hn
      exact hk (hn ▸ List.mem_map_of_mem he)
    have hkey : a.1 = b.1 := hu a.1 (h.mem_of_mem_properties ha) (hne a ha) hsa b.1
      (h.mem_of_mem_properties hb) (hne b hb) hsb
    have hva := m.properties.mem_toList_iff.1 ha
    have hvb := m.properties.mem_toList_iff.1 hb
    rw [hkey, hvb] at hva
    exact (Option.some.inj hva).symm

structure Reordering (names : List String) (m m' : MacroTable) : Prop where
  perm : m.values.toList.Perm m'.values.toList
  within : m.Within names

namespace Reordering

variable (h : Reordering names m m')

include h

theorem within_right : m'.Within names := by
  intro t ht
  exact h.within t ((OrderedMap.perm_keys h.perm).mem_iff.2 ht)

theorem set {name : String} (hn : nameOf name ∈ names) (value : String) :
    Reordering names (m.set name value) (m'.set name value) :=
  ⟨OrderedMap.perm_insert h.perm _ value, h.within.set hn value⟩

theorem setAll {l : List String} (hl : ∀ name ∈ l, nameOf name ∈ names) (value : String) :
    Reordering names (m.setAll l value) (m'.setAll l value) := by
  induction l generalizing m m' with
  | nil => exact h
  | cons name rest ih =>
    rw [List.forall_mem_cons] at hl
    exact ih (h.set hl.1 value) hl.2

theorem properties : m.properties.toList.Perm m'.properties.toList := by
  rw [h.within.toList_properties, h.within_right.toList_properties]
  exact h.perm.map _

theorem expand (text : String) : m.expand text = m'.expand text := by
  rw [MacroTable.expand, MacroTable.expand, expandFrom_congr]
  intro token _
  exact OrderedMap.find?_eq_of_perm h.perm _

end Reordering

end MacroTable

namespace MSBuild

open Xml

variable {fs : FileSystem} {directory : String} {names : List String}

theorem Agree.mapM {α β : Type} {R : β → β → Prop} {f g : α → Except Failure β} {l : List α}
    (h : ∀ a ∈ l, Agree R (f a) (g a)) : Agree (List.Forall₂ R) (l.mapM f) (l.mapM g) := by
  induction l with
  | nil => exact .ok .nil
  | cons a l ih =>
    rw [List.mapM_cons, List.mapM_cons]
    rcases (h a List.mem_cons_self).cases with ⟨x, y, hx, hy, hxy⟩ | ⟨e, hx, hy⟩
    · rw [hx, hy]
      rcases (ih fun c hc => h c (List.mem_cons_of_mem a hc)).cases with
        ⟨xs, ys, hxs, hys, hr⟩ | ⟨e, hxs, hys⟩
      · rw [hxs, hys]
        exact .ok (.cons hxy hr)
      · rw [hxs, hys]
        exact .error e
    · rw [hx, hy]
      exact .error e

/-- The properties that the condition of an element names. -/
def askedNames (e : Element) : List String :=
  (((e.attribute? "Condition").bind Condition.parse?).map Condition.names).getD []

/-- The conditions in an element ask for unambiguous names, and its property groups set properties
with one of some names. -/
inductive Clear (names : List String) : Element → Prop
  | intro {e : Element}
      (asked : ∀ name ∈ askedNames e, MacroTable.Unambiguous names name)
      (set : e.name = "PropertyGroup" →
        ∀ property ∈ e.children, MacroTable.nameOf property.name ∈ names)
      (children : ∀ c ∈ e.children, Clear names c) : Clear names e

namespace Clear

variable {e : Element}

theorem asked (h : Clear names e) :
    ∀ name ∈ askedNames e, MacroTable.Unambiguous names name := by
  cases h with
  | intro asked _ _ => exact asked

theorem set (h : Clear names e) : e.name = "PropertyGroup" →
    ∀ property ∈ e.children, MacroTable.nameOf property.name ∈ names := by
  cases h with
  | intro _ set _ => exact set

theorem child (h : Clear names e) : ∀ c ∈ e.children, Clear names c := by
  cases h with
  | intro _ _ children => exact children

theorem of_unconditional (hc : e.attribute? "Condition" = none) (hn : e.name ≠ "PropertyGroup")
    (children : ∀ c ∈ e.children, Clear names c) : Clear names e :=
  .intro (by simp [askedNames, hc]) (fun h => absurd h hn) children

theorem childNamed (h : Clear names e) {name : String} :
    ∀ c ∈ e.childrenNamed name, Clear names c :=
  fun c hc => h.child c (List.mem_filter.1 hc).1

end Clear

structure Evaluation.Reordered (names : List String) (s t : Evaluation) : Prop where
  configuration : s.configuration = t.configuration
  macros : MacroTable.Reordering names s.macros t.macros

namespace Evaluation.Reordered

variable {s t : Evaluation} (h : s.Reordered names t)

include h

theorem holds {e : Element} (he : Clear names e) :
    s.holds fs directory e = t.holds fs directory e := by
  refine Condition.holds_eq_of_settled h.macros.properties ?_
  intro text c ht hc name hn
  refine h.macros.within.settled (he.asked name ?_)
  rwa [askedNames, ht, Option.bind_some, hc]

theorem setProperty {name : String} (hn : MacroTable.nameOf name ∈ names)
    (ht : MacroTable.nameOf "TargetDir" ∈ names) (raw : String) :
    (s.setProperty name raw).Reordered names (t.setProperty name raw) := by
  constructor
  · simp only [Evaluation.setProperty, h.configuration, h.macros.expand]
  · simp only [Evaluation.setProperty, h.macros.expand]
    split
    · exact (h.macros.set ht _).set hn _
    · exact h.macros.set hn _

theorem setSetting (tool : String) (setting : Element) :
    (s.setSetting tool setting).Reordered names (t.setSetting tool setting) := by
  refine ⟨?_, h.macros⟩
  simp only [Evaluation.setSetting, h.configuration, h.macros.expand]

theorem addSheet (path : NormalPath) :
    (s.addSheet path).Reordered names (t.addSheet path) := by
  refine ⟨?_, h.macros⟩
  simp only [Evaluation.addSheet, h.configuration]

theorem finish (ho : MacroTable.nameOf "OutDir" ∈ names)
    (ht : MacroTable.nameOf "TargetDir" ∈ names) :
    s.finish.Reordered names t.finish := by
  refine ⟨h.configuration, ?_⟩
  simp only [Evaluation.finish, h.configuration]
  exact (h.macros.set ho _).set ht _

end Evaluation.Reordered

section Reading

variable (hstandard : ∀ name ∈ MacroTable.msbuildNames, name ∈ names)

include hstandard

theorem reordered_start {m m' : MacroTable} (h : MacroTable.Reordering names m m')
    (name configuration platform : String) :
    (Evaluation.start name configuration platform m).Reordered names
      (.start name configuration platform m') := by
  have hc : MacroTable.nameOf "Configuration" ∈ names := hstandard _ (by decide)
  have hp : MacroTable.nameOf "Platform" ∈ names := hstandard _ (by decide)
  have ho : MacroTable.nameOf "OutDir" ∈ names := hstandard _ (by decide)
  have hi : MacroTable.nameOf "IntDir" ∈ names := hstandard _ (by decide)
  have ht : MacroTable.nameOf "TargetDir" ∈ names := hstandard _ (by decide)
  have h₀ : Evaluation.Reordered names
      { configuration := { name, configurationName := configuration, platform }
        macros := (m.set "Configuration" configuration).set "Platform" platform }
      { configuration := { name, configurationName := configuration, platform }
        macros := (m'.set "Configuration" configuration).set "Platform" platform } :=
    ⟨rfl, (h.set hc _).set hp _⟩
  have h₁ := (h₀.setProperty ho ht (Evaluation.defaultDirectories platform).1).setProperty hi ht
    (Evaluation.defaultDirectories platform).2
  refine ⟨?_, h₁.macros⟩
  exact congrArg (fun c : Configuration => { c with attributes := ∅ }) h₁.configuration

theorem reordering_setMacros {m m' : MacroTable} (h : MacroTable.Reordering names m m')
    (l : Location) (name rootNamespace : String) :
    MacroTable.Reordering names (l.setMacros name rootNamespace m)
      (l.setMacros name rootNamespace m') := by
  have hl : ∀ (l : List String),
      (∀ name ∈ l, MacroTable.nameOf name ∈ MacroTable.msbuildNames) →
        ∀ name ∈ l, MacroTable.nameOf name ∈ names :=
    fun l hl name hn => hstandard _ (hl name hn)
  unfold Location.setMacros
  refine MacroTable.Reordering.setAll ?_ (hl _ (by decide)) _
  refine MacroTable.Reordering.setAll ?_ (hl _ (by decide)) _
  refine MacroTable.Reordering.setAll ?_ (hl _ (by decide)) _
  refine MacroTable.Reordering.setAll ?_ (hl _ (by decide)) _
  refine MacroTable.Reordering.setAll ?_ (hl _ (by decide)) _
  exact h.setAll (hl _ (by decide)) _

variable (hsheets : ∀ path sheet, fs.documentAt? path = some sheet → Clear names sheet)

include hsheets

theorem lockstep_reordered : Lockstep fs (Clear names) (Evaluation.Reordered names) where
  child _ h := h.child
  document := hsheets
  holds _ _ _ _ he h := h.holds he
  expand _ _ text h := h.macros.expand text
  setProperty _ _ _ he hg _ hm h := h.setProperty (he.set hg _ hm) (hstandard _ (by decide)) _
  setSetting _ _ _ _ h := h.setSetting _ _
  addSheet _ _ _ h := h.addSheet _

theorem evaluateItem_agree {m m' : MacroTable} (h : MacroTable.Reordering names m m')
    {root : Element} (hr : Clear names root) (directory : String) (item : ConfigurationItem) :
    Agree (Evaluation.Reordered names) (evaluateItem fs directory m root item)
      (evaluateItem fs directory m' root item) := by
  have hp : ∀ p ∈ Pending.ofElements directory root.children, Clear names p.element :=
    fun p hp => hr.child _ (Pending.mem_ofElements hp)
  have ha := (lockstep_reordered hstandard hsheets).evaluate hp
    (s := { evaluation := .start item.name item.configuration item.platform m })
    (t := { evaluation := .start item.name item.configuration item.platform m' })
    ⟨reordered_start hstandard h _ _ _, rfl⟩
  unfold evaluateItem
  rcases ha.cases with ⟨s, t, hs, ht, hst⟩ | ⟨x, hs, ht⟩
  · rw [hs, ht]
    exact .ok (hst.evaluation.finish (hstandard _ (by decide)) (hstandard _ (by decide)))
  · rw [hs, ht]
    exact .error x

end Reading

section Linking

theorem foldlM_congr {ε α β : Type} {f g : β → α → Except ε β} {l : List α}
    (h : ∀ b, ∀ a ∈ l, f b a = g b a) (b : β) : l.foldlM f b = l.foldlM g b := by
  induction l generalizing b with
  | nil => rfl
  | cons a l ih =>
    have hl : ∀ b, l.foldlM f b = l.foldlM g b :=
      ih fun b a' ha => h b a' (List.mem_cons_of_mem a ha)
    rw [List.foldlM_cons, List.foldlM_cons, h b a List.mem_cons_self]
    exact congrArg (g b a >>= ·) (funext hl)

theorem mapM_congr {ε α β γ : Type} {S : α → β → Prop} {f : α → Except ε γ} {g : β → Except ε γ}
    {l : List α} {l' : List β} (h : List.Forall₂ S l l') (hf : ∀ a b, S a b → f a = g b) :
    l.mapM f = l'.mapM g := by
  induction h with
  | nil => rfl
  | cons hab _ ih => rw [List.mapM_cons, List.mapM_cons, hf _ _ hab, ih]

variable {item : FileItem} {evaluations evaluations' : List Evaluation}

theorem configurations_eq (h : List.Forall₂ (Evaluation.Reordered names) evaluations evaluations') :
    evaluations.map Evaluation.configuration = evaluations'.map Evaluation.configuration := by
  induction h with
  | nil => rfl
  | cons hst _ ih => rw [List.map_cons, List.map_cons, hst.configuration, ih]

theorem excludes_eq {s t : Evaluation} (h : s.Reordered names t) {l : List Element}
    (hl : ∀ e ∈ l, Clear names e) :
    FileItem.excludes fs directory s l = FileItem.excludes fs directory t l := by
  refine foldlM_congr ?_ false
  intro excluded e he
  rw [h.holds (hl e (List.mem_filter.1 he).1)]

theorem isBuilt_eq {s t : Evaluation} (h : s.Reordered names t) (hg : Clear names item.group)
    (he : Clear names item.element) :
    item.isBuilt fs directory s = item.isBuilt fs directory t := by
  rw [FileItem.isBuilt, FileItem.isPresent, h.holds hg, h.holds he, excludes_eq h he.childNamed]
  rfl

theorem linkItem_eq (h : List.Forall₂ (Evaluation.Reordered names) evaluations evaluations')
    (hg : Clear names item.group) (he : Clear names item.element) :
    linkItem fs directory evaluations item = linkItem fs directory evaluations' item := by
  have hb : evaluations.mapM (item.isBuilt fs directory) =
      evaluations'.mapM (item.isBuilt fs directory) :=
    mapM_congr h fun _ _ hst => isBuilt_eq hst hg he
  rw [linkItem, linkItem, hb, configurations_eq h]

theorem linkItems_eq (h : List.Forall₂ (Evaluation.Reordered names) evaluations evaluations')
    {items : List FileItem}
    (hi : ∀ item ∈ items, Clear names item.group ∧ Clear names item.element) :
    linkItems fs directory evaluations items = linkItems fs directory evaluations' items := by
  have hs : List.Forall₂ (fun a b => a = b ∧ a ∈ items) items items :=
    List.forall₂_same.2 fun _ hm => ⟨rfl, hm⟩
  have hl : items.mapM (linkItem fs directory evaluations) =
      items.mapM (linkItem fs directory evaluations') := by
    refine mapM_congr hs ?_
    rintro item _ ⟨rfl, hm⟩
    exact linkItem_eq h (hi item hm).1 (hi item hm).2
  rw [linkItems, hl, linkItems]

theorem clear_of_mem_fileItems {root : Element} (hr : Clear names root) :
    ∀ item ∈ fileItems root, Clear names item.group ∧ Clear names item.element := by
  intro item hm
  obtain ⟨hg, he⟩ := mem_children_of_mem_fileItems hm
  exact ⟨hr.child _ hg, (hr.child _ hg).child _ he⟩

end Linking

section AnyOrder

variable (hstandard : ∀ name ∈ MacroTable.msbuildNames, name ∈ names)
  (hsheets : ∀ path sheet, fs.documentAt? path = some sheet → Clear names sheet)

include hstandard hsheets

theorem followed_only : Followed fs (fun _ x r => x = Outcomes.only r) (Clear names)
    fun s => s.macros.Within names where
  child _ h := h.child
  document := hsheets
  setProperty s e he hg property hm h := by
    have hn := he.set hg property hm
    unfold Evaluation.setProperty
    dsimp only
    split
    · exact MacroTable.Within.set (h.set (hstandard _ (by decide)) _) hn _
    · exact h.set hn _
  setSetting _ _ _ h := h
  addSheet _ _ h := h
  sequential := Outcomes.sequential_only
  holds directory s e he h := by
    have hsettled : ∀ text c, e.attribute? "Condition" = some text →
        Condition.parse? text = some c → ∀ name ∈ c.names, s.macros.properties.Settled name := by
      intro text c ht hc name hn
      refine h.settled (he.asked name ?_)
      rwa [askedNames, ht, Option.bind_some, hc]
    apply Outcomes.ext
    intro r
    constructor
    · rintro ⟨properties, hp, rfl⟩
      exact (Condition.holds_eq_of_settled hp hsettled).symm
    · rintro rfl
      exact AnyOrder.holds_yields (.refl _)

/-- So there is one way to read a project in which all is clear. -/
theorem AnyOrder.readProject_eq_only {m : MacroTable} (hm : m.Within names) (l : Location)
    {root : Element} (hr : Clear names root) :
    AnyOrder.readProject fs l m root = .only (MSBuild.readProject fs l m root) := by
  have hl := reordering_setMacros hstandard ⟨.refl _, hm⟩ l (projectName l root)
    ((global? root "RootNamespace").getD "")
  refine (followed_only hstandard hsheets).readProject hr ?_ ?_
  · intro item
    exact (reordered_start hstandard hl _ _ _).macros.within
  · intro s hs
    have hsame : s.Reordered names s := ⟨rfl, .refl _, hs⟩
    exact (hsame.finish (hstandard _ (by decide)) (hstandard _ (by decide))).macros.within

end AnyOrder

theorem readProject_eq {m m' : MacroTable} (l : Location) (root : Element)
    (hstandard : ∀ name ∈ MacroTable.msbuildNames, name ∈ names)
    (hsheets : ∀ path sheet, fs.documentAt? path = some sheet → Clear names sheet)
    (h : MacroTable.Reordering names m m') (hr : Clear names root) :
    readProject fs l m root = readProject fs l m' root := by
  have hl := reordering_setMacros hstandard h l (projectName l root)
    ((global? root "RootNamespace").getD "")
  have he := Agree.mapM (l := configurationItems root) fun item _ =>
    evaluateItem_agree hstandard hsheets hl hr l.directory item
  unfold readProject
  rcases he.cases with ⟨evaluations, evaluations', hs, ht, hst⟩ | ⟨x, hs, ht⟩
  · simp only [hs, ht]
    have hlinked : linkItems fs l.directory evaluations (fileItems root) =
        linkItems fs l.directory evaluations' (fileItems root) :=
      linkItems_eq hst (clear_of_mem_fileItems hr)
    have hconf := configurations_eq hst
    simp only [bind, Except.bind, hlinked, hconf]
  · simp only [hs, ht]

/-- A name has one value in all orders of the properties exactly if it is settled: it is set itself,
or all its spellings that are set have the same value. A condition has one answer in all orders if
the names in it are settled. So the order of the macros does not show in a project, in whatever
directory and file system, if it and the sheets that can be read ask only for names that have at
most one other spelling among those that are set: with the macros in any order, and with each
condition meeting them in an order of its own, there is one project or failure. -/
theorem orders_agree_on_settled_names (fs : FileSystem) (directory : String) :
    (∀ (m : OrderedMap String) (name : String),
      m.Settled name ↔ ∀ m' : OrderedMap String, m.toList.Perm m'.toList →
        Condition.Scope.property ⟨m', directory, fs⟩ name =
          Condition.Scope.property ⟨m, directory, fs⟩ name) ∧
    (∀ (c : Condition) (m m' : OrderedMap String), m.toList.Perm m'.toList →
      (∀ name ∈ c.names, m.Settled name) →
        Condition.eval ⟨m, directory, fs⟩ c = Condition.eval ⟨m', directory, fs⟩ c) ∧
    ∀ (names : List String) (l : Location) (m m' : MacroTable) (root : Element),
      (∀ name ∈ MacroTable.msbuildNames, name ∈ names) →
      (∀ path sheet, fs.documentAt? path = some sheet → Clear names sheet) → Clear names root →
      m.Within names → m.values.toList.Perm m'.values.toList →
        readProject fs l m root = readProject fs l m' root ∧
        ∀ r, ((AnyOrder.readProject fs l m root).Yields r ↔ r = readProject fs l m root) ∧
          ((AnyOrder.readProject fs l m' root).Yields r ↔ r = readProject fs l m root) := by
  refine ⟨Condition.Scope.settled_iff directory fs,
    fun _ _ _ h hs => Condition.eval_eq_of_settled h hs, ?_⟩
  intro names l m m' root hstandard hsheets hr hw hp
  have h : MacroTable.Reordering names m m' := ⟨hp, hw⟩
  have heq := readProject_eq l root hstandard hsheets h hr
  refine ⟨heq, fun r => ?_⟩
  rw [AnyOrder.readProject_eq_only hstandard hsheets hw l hr,
    AnyOrder.readProject_eq_only hstandard hsheets h.within_right l hr, ← heq]
  exact ⟨Outcomes.yields_only_iff, Outcomes.yields_only_iff⟩

def optionalProject (condition : String) (properties : List Element) : Element :=
  { name := "Project"
    attributes := [("ToolsVersion", "4.0")]
    children :=
      [{ name := "ItemGroup"
         children :=
          [{ name := "ProjectConfiguration", attributes := [("Include", "Debug|Win32")] }] },
       { name := "PropertyGroup", children := properties },
       { name := "PropertyGroup"
         attributes := [("Condition", condition)]
         children := [{ name := "OutDir", text := "chosen" }] }] }

def settledProject : Element :=
  optionalProject "'$(RootNamespace)'=='app' and '$(mode)'=='fast'"
    [{ name := "RootNamespace", text := "App" }]

def modes : MacroTable := ⟨.ofList [("$(MODE)", "FAST"), ("$(Level)", "3")]⟩

def reversedModes : MacroTable := ⟨.ofList [("$(Level)", "3"), ("$(MODE)", "FAST")]⟩

def settledNames : List String := MacroTable.msbuildNames ++ ["RootNamespace", "MODE", "Level"]

theorem clear_settledProject : Clear settledNames settledProject := by
  refine .of_unconditional rfl (by decide) ?_
  rw [settledProject, optionalProject, List.forall_mem_cons, List.forall_mem_cons,
    List.forall_mem_singleton]
  refine ⟨.of_unconditional rfl (by decide) ?_, .intro (by decide) (fun _ => by decide) ?_,
    .intro (by decide +kernel) (fun _ => by decide) ?_⟩
  all_goals
    rw [List.forall_mem_singleton]
    exact .of_unconditional rfl (by decide) (by simp)

theorem clear_documents_empty (path : NormalPath) (sheet : Element)
    (h : ({} : FileSystem).documentAt? path = some sheet) : Clear names sheet :=
  absurd (FileSystem.mem_spellings_of_documentAt? h) List.not_mem_nil

def outputDirectories (p : Project) : List String :=
  p.configurations.map Configuration.outputDirectory

theorem orders_agree_on_settled_names_spelled :
    ∃ p, readProject {} (.ofPath "/work" "App.vcxproj") modes settledProject = .ok p ∧
      readProject {} (.ofPath "/work" "App.vcxproj") reversedModes settledProject = .ok p ∧
      (∀ r, (AnyOrder.readProject {} (.ofPath "/work" "App.vcxproj") reversedModes
        settledProject).Yields r ↔ r = .ok p) ∧
      outputDirectories p = ["chosen"] := by
  obtain ⟨p, hp, hd⟩ := exists_readProject_of_within 10 {} (.ofPath "/work" "App.vcxproj") modes
    settledProject (fun p => outputDirectories p = ["chosen"]) (by decide +kernel)
  have h := (orders_agree_on_settled_names {} "/work").2.2 settledNames
    (.ofPath "/work" "App.vcxproj") modes reversedModes settledProject
    (fun name hn => List.mem_append_left _ hn) clear_documents_empty clear_settledProject
    (by decide) (by decide)
  rw [hp] at h
  exact ⟨p, hp, h.1.symm, fun r => (h.2 r).2, of_decide_eq_true hd⟩

/-- A group that asks for a name in a third letter case than the two in which it may be set. -/
def unsettledGroup : Element :=
  { name := "PropertyGroup"
    attributes := [("Condition", "'$(Opt)'=='1'")]
    children := [{ name := "OutDir", text := "chosen" }] }

def unsettledProject : Element := optionalProject "'$(Opt)'=='1'" []

def spellings : MacroTable := ⟨.ofList [("$(OPT)", "1"), ("$(opt)", "0")]⟩

def reversedSpellings : MacroTable := ⟨.ofList [("$(opt)", "0"), ("$(OPT)", "1")]⟩

/-- The first one of two spellings decides a condition, and with it a project. -/
theorem orders_differ_on_spellings :
    spellings.values.toList.Perm reversedSpellings.values.toList ∧
      spellings.properties.toList.Perm reversedSpellings.properties.toList ∧
      (∃ c, Condition.parse? "'$(Opt)'=='1'" = some c ∧
        Condition.eval ⟨spellings.properties, "/work", {}⟩ c = true ∧
        Condition.eval ⟨reversedSpellings.properties, "/work", {}⟩ c = false) ∧
      ∃ p p',
        readProject {} (.ofPath "/work" "App.vcxproj") spellings unsettledProject = .ok p ∧
        readProject {} (.ofPath "/work" "App.vcxproj") reversedSpellings unsettledProject = .ok p' ∧
        outputDirectories p = ["chosen"] ∧
        outputDirectories p' = ["$(SolutionDir)Debug\\"] := by
  refine ⟨by decide, by decide, ?_, ?_⟩
  · exact ⟨.equal [.property "Opt"] [.text "1"], by decide +kernel, by decide, by decide⟩
  · obtain ⟨p, hp, hd⟩ := exists_readProject_of_within 10 {} (.ofPath "/work" "App.vcxproj")
      spellings unsettledProject (fun p => outputDirectories p = ["chosen"]) (by decide +kernel)
    obtain ⟨p', hp', hd'⟩ := exists_readProject_of_within 10 {} (.ofPath "/work" "App.vcxproj")
      reversedSpellings unsettledProject
      (fun p => outputDirectories p = ["$(SolutionDir)Debug\\"]) (by decide +kernel)
    exact ⟨p, p', hp, hp', of_decide_eq_true hd, of_decide_eq_true hd'⟩

end MSBuild

end StudioMake

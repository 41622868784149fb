import StudioMake.Proofs.MacroTable.Expansion
import StudioMake.Proofs.MSBuild.ImportTraversal
import StudioMake.Proofs.MSBuild.Metadata
import StudioMake.Proofs.MSBuild.Trace

/-!
# Settings that refer to themselves

A setting that ends in a reference to itself adds its entries to those that it had, wherever it is
written: in one group, in several, or in imported sheets. The reference looks for the setting under
the name that is written, and the setting is kept under the name of the tool's own; for the command
of a build event these differ, and the reference finds nothing.
-/

set_option autoImplicit false

namespace StudioMake.MSBuild

open Xml Text OrderedMap

structure Write where
  tool : String
  setting : Element
deriving DecidableEq

namespace Evaluation

section Writes

variable (fs : FileSystem) (directory : String) (s : Evaluation)

def enabled (l : List Element) : List Element :=
  l.filter fun e => (s.holds fs directory e).toOption = some true

def toolWrites (tool : Element) : List Write :=
  (s.enabled fs directory tool.children).map fun setting => ⟨toolOf tool.name, setting⟩

def writes (e : Element) : List Write :=
  if e.name = "ItemDefinitionGroup" then
    (s.enabled fs directory e.children).flatMap (s.toolWrites fs directory)
  else []

end Writes

end Evaluation

def writesOf (fs : FileSystem) (s : Progress) (p : Pending) : List Write :=
  (s.evaluation.enabled fs p.directory [p.element]).flatMap
    (s.evaluation.writes fs p.directory)

/-- A state follows from another by writing some settings in order, whatever properties are set
and sheets added in between. -/
inductive Performs : Evaluation → List Write → Evaluation → Prop
  | nil (s : Evaluation) : Performs s [] s
  | property {s s' : Evaluation} {w : List Write} (h : Performs s w s') (name raw : String) :
      Performs s w (s'.setProperty name raw)
  | sheet {s s' : Evaluation} {w : List Write} (h : Performs s w s') (path : NormalPath) :
      Performs s w (s'.addSheet path)
  | setting {s s' : Evaluation} {w : List Write} (h : Performs s w s') (x : Write) :
      Performs s (w ++ [x]) (s'.setSetting x.tool x.setting)

variable {fs : FileSystem} {directory : String}

namespace Performs

variable {s s₁ s' : Evaluation} {w w' : List Write}

theorem trans (h : Performs s w s₁) (h' : Performs s₁ w' s') : Performs s (w ++ w') s' := by
  induction h' with
  | nil => rwa [List.append_nil]
  | property _ name raw ih => exact ih.property name raw
  | sheet _ path ih => exact ih.sheet path
  | setting _ x ih =>
    rw [← List.append_assoc]
    exact ih.setting x

end Performs

namespace Evaluation

variable {f : Evaluation → Element → Except Failure Evaluation} {s s' : Evaluation}
  {l : List Element} {e : Element}

theorem enabled_cons (e : Element) (l : List Element) : s.enabled fs directory (e :: l) =
    if (s.holds fs directory e).toOption = some true then e :: s.enabled fs directory l
    else s.enabled fs directory l := by
  simp [enabled, List.filter_cons]

theorem enabled_congr {t : Evaluation} (h : s.macros = t.macros) :
    s.enabled fs directory l = t.enabled fs directory l := by
  simp only [enabled, holds_congr h]

theorem forEach_performs {start : Evaluation} (note : Element → List Write)
    (hf : ∀ {s s'} e, s.macros = start.macros → f s e = .ok s' →
      Performs s (note e) s' ∧ s'.macros = start.macros)
    (hs : s.macros = start.macros) (h : forEach fs directory f s l = .ok s') :
    Performs s ((start.enabled fs directory l).flatMap note) s' ∧ s'.macros = start.macros := by
  induction l generalizing s with
  | nil =>
    cases h
    exact ⟨.nil _, hs⟩
  | cons e l ih =>
    rw [forEach_cons, holds_congr hs] at h
    rw [enabled_cons]
    split at h
    · cases h
    · next hc =>
      rw [hc, Except.toOption, if_neg (by decide)]
      exact ih hs h
    · next hc =>
      rw [hc, Except.toOption, if_pos rfl, List.flatMap_cons]
      split at h
      · cases h
      · next s₁ h₁ =>
        obtain ⟨hp, hm⟩ := hf e hs h₁
        obtain ⟨hp', hm'⟩ := ih hm h
        exact ⟨hp.trans hp', hm'⟩

theorem applyTool_performs (h : s.applyTool fs directory e = .ok s') :
    Performs s (s.toolWrites fs directory e) s' ∧ s'.macros = s.macros := by
  have hp := forEach_performs (fun setting => [⟨toolOf e.name, setting⟩]) ?_ rfl h
  · rwa [← List.map_eq_flatMap] at hp
  · intro s₁ s₂ setting hm h₁
    cases h₁
    exact ⟨(Performs.nil s₁).setting ⟨toolOf e.name, setting⟩, hm⟩

theorem applyTool_of_unconditional (s : Evaluation)
    (hc : ∀ c ∈ e.children, c.attribute? "Condition" = none) :
    ∃ s', s.applyTool fs directory e = .ok s' ∧
      Performs s (e.children.map fun setting => ⟨toolOf e.name, setting⟩) s' := by
  have hall : s.enabled fs directory e.children = e.children := by
    rw [enabled, List.filter_eq_self]
    intro c hm
    rw [s.holds_of_unconditional (hc c hm)]
    rfl
  cases ha : s.applyTool fs directory e with
  | ok s' =>
    have hw := (applyTool_performs ha).1
    rw [toolWrites, hall] at hw
    exact ⟨s', rfl, hw⟩
  | error x =>
    refine (forEach_fails (N := (· ∈ e.children)) (Q := fun _ => False) ?_ ?_ (fun _ => id) ha).elim
    · intro s₁ c y hm hx
      rw [s₁.holds_of_unconditional (hc c hm)] at hx
      cases hx
    · intro _ _ _ _ hx
      cases hx

theorem forEach_properties (h : forEach fs directory
      (fun s property => .ok (s.setProperty property.name property.text)) s l = .ok s') :
    Performs s [] s' := by
  induction l generalizing s with
  | nil =>
    cases h
    exact .nil _
  | cons e l ih =>
    rw [forEach_cons] at h
    split at h
    · cases h
    · exact ih h
    · exact ((Performs.nil s).property e.name e.text).trans (ih h)

theorem apply_performs (h : s.apply fs directory e = .ok s') :
    Performs s (s.writes fs directory e) s' := by
  unfold apply at h
  split at h
  · next hp =>
    rw [writes, if_neg (by simp [hp])]
    exact forEach_properties h
  · split at h
    · next hg =>
      rw [writes, if_pos hg]
      refine (forEach_performs _ ?_ rfl h).1
      intro s₁ s₂ tool hm h₁
      obtain ⟨hw, hm'⟩ := applyTool_performs h₁
      rw [toolWrites, enabled_congr hm] at hw
      exact ⟨hw, hm'.trans hm⟩
    · next hg =>
      cases h
      rw [writes, if_neg hg]
      exact .nil s

end Evaluation

theorem writesOf_skip {s : Progress} {e : Element}
    (hc : s.evaluation.holds fs directory e = .ok false) : writesOf fs s ⟨directory, e⟩ = [] := by
  rw [writesOf, Evaluation.enabled_cons, hc, Except.toOption, if_neg (by decide)]
  rfl

theorem writesOf_holds {s : Progress} {e : Element}
    (hc : s.evaluation.holds fs directory e = .ok true) :
    writesOf fs s ⟨directory, e⟩ = s.evaluation.writes fs directory e := by
  rw [writesOf, Evaluation.enabled_cons, hc, Except.toOption, if_pos rfl, Evaluation.enabled,
    List.filter_nil, List.flatMap_singleton]

theorem step_performs {s s' : Progress} {p : Pending} {l : List Pending}
    (h : s.step fs p = .ok (l, s')) :
    Performs s.evaluation (writesOf fs s p) s'.evaluation := by
  cases steps_of_step h with
  | skip hc =>
    rw [writesOf_skip hc]
    exact .nil _
  | apply hc _ _ ha =>
    rw [writesOf_holds hc]
    exact Evaluation.apply_performs ha
  | group hc hg =>
    rw [writesOf_holds hc, Evaluation.writes, if_neg (by simp [hg])]
    exact .nil _
  | again hc hi =>
    rw [writesOf_holds hc, Evaluation.writes, if_neg (by simp [hi])]
    exact .nil _
  | miss hc hi =>
    rw [writesOf_holds hc, Evaluation.writes, if_neg (by simp [hi])]
    exact .nil _
  | read hc hi =>
    rw [writesOf_holds hc, Evaluation.writes, if_neg (by simp [hi])]
    exact (Performs.nil _).sheet _

/-- A run performs the writes of its trace. -/
theorem evaluate_performs {pending : List Pending} {s s' : Progress}
    (h : evaluate fs pending s = .ok s') :
    Performs s.evaluation (trace fs (writesOf fs) pending s) s'.evaluation :=
  trace_of_evaluate (writesOf fs) (R := fun s w s' => Performs s.evaluation w s'.evaluation)
    (fun s => .nil s.evaluation) (fun hs hp => (step_performs hs).trans hp) h

def Write.key (x : Write) : String × String :=
  (x.tool, Evaluation.settingName x.tool x.setting.name)

/-- The value that a tool has for a setting. -/
def Evaluation.kept? (s : Evaluation) (key : String × String) : Option String :=
  setting? s.configuration.tools key.1 key.2

/-- The names and texts of the settings that are kept where a tool keeps the setting `name`. -/
def writesUnder (tool name : String) (w : List Write) : List (String × String) :=
  (w.filter fun x => x.key = (tool, Evaluation.settingName tool name)).map fun x =>
    (x.setting.name, x.setting.text)

namespace Evaluation

theorem kept?_setProperty (s : Evaluation) (name raw : String) (key : String × String) :
    (s.setProperty name raw).kept? key = s.kept? key := by
  simp only [kept?, setProperty, setField]
  repeat' split
  all_goals rfl

theorem kept?_setSetting (s : Evaluation) (x : Write) (key : String × String) :
    (s.setSetting x.tool x.setting).kept? key =
      if key = x.key then
        some (s.macros.expand (expandMetadata (trim x.setting.text)
          ((s.configuration.tools.find? x.tool).getD ∅)))
      else s.kept? key := by
  simp only [kept?, setSetting, setting?_setSetting, Write.key, Prod.ext_iff, trimmedText]

theorem find?_settings (s : Evaluation) (tool name : String) :
    ((s.configuration.tools.find? tool).getD ∅).find? name = s.kept? (tool, name) := by
  rw [kept?, setting?]
  cases s.configuration.tools.find? tool <;> rfl

/-- The command of a build event, which is kept under another name than the one that is written. -/
def IsEventCommand (tool name : String) : Prop :=
  name = "Command" ∧ tool ∈ [Tool.preBuildEvent, Tool.preLinkEvent, Tool.postBuildEvent]

instance (tool name : String) : Decidable (IsEventCommand tool name) :=
  inferInstanceAs (Decidable (_ ∧ _))

theorem settingName_eq (tool name : String) :
    settingName tool name = if IsEventCommand tool name then "CommandLine" else name := by
  simp [settingName, IsEventCommand]

theorem settingName_eq_self_iff {tool name : String} :
    settingName tool name = name ↔ ¬ IsEventCommand tool name := by
  rw [settingName_eq]
  split
  · next h =>
    obtain ⟨rfl, ht⟩ := h
    simp [IsEventCommand, ht]
  · next h => simp [h]

theorem settingName_ne {tool name : String} (h : IsEventCommand tool name) (other : String) :
    settingName tool other ≠ name := by
  rw [settingName_eq, h.1]
  split
  · decide
  · next ho =>
    rintro rfl
    exact ho ⟨rfl, h.2⟩

end Evaluation

namespace Performs

variable {s s' : Evaluation} {w : List Write}

theorem kept?_eq {key : String × String} (h : Performs s w s') (hk : ∀ x ∈ w, x.key ≠ key) :
    s'.kept? key = s.kept? key := by
  induction h with
  | nil => rfl
  | property _ name raw ih => rw [Evaluation.kept?_setProperty, ih hk]
  | sheet _ path ih => exact ih hk
  | setting _ x ih =>
    rw [List.forall_mem_append, List.forall_mem_singleton] at hk
    rw [Evaluation.kept?_setSetting, if_neg (Ne.symm hk.2), ih hk.1]

end Performs

def accumulating (name first : String) (more : List String) : List (String × String) :=
  (name, first) :: more.map fun text => (name, followedBy text name)

/-- The entries that the texts of a setting add up to: those of all texts, the last text first, but
for the command of an event only those of the last text. -/
def collected (tool name : String) (texts : List String) : List String :=
  if Evaluation.IsEventCommand tool name then (texts.getLast?.map splitList).getD []
  else texts.reverse.flatMap splitList

theorem collected_concat (tool name : String) (texts : List String) (text : String) :
    collected tool name (texts ++ [text]) = splitList text ++
      if Evaluation.IsEventCommand tool name then [] else collected tool name texts := by
  unfold collected
  split <;> simp

def Evaluation.Accumulates (s : Evaluation) (tool name : String) (texts : List String) : Prop :=
  ∃ value, s.kept? (tool, settingName tool name) = some value ∧
    ¬ ['$', '('] <:+: value.toList ∧ splitList value = collected tool name texts

namespace Evaluation

variable {s : Evaluation} {x : Write} {tool name text : String} {texts : List String}

theorem accumulates_first (hx : x.key = (tool, settingName tool name))
    (ht : IsPlain x.setting.text) :
    (s.setSetting x.tool x.setting).Accumulates tool name [x.setting.text] := by
  have hm := no_macro_of_plain ((s.configuration.tools.find? x.tool).getD ∅) ht
  refine ⟨_, ?_, hm, ?_⟩
  · rw [kept?_setSetting, if_pos hx.symm, MacroTable.expand_of_no_opening hm]
  · rw [splitList_expandMetadata_of_plain ht, ← List.nil_append [x.setting.text], collected_concat]
    simp [collected]

theorem accumulates_next (h : s.Accumulates tool name texts)
    (hx : x.key = (tool, settingName tool name)) (hs : x.setting.text = followedBy text name)
    (ht : IsPlain text) (hn : ')' ∉ name.toList)
    (hnone : IsEventCommand tool name → s.kept? (tool, name) = none) :
    (s.setSetting x.tool x.setting).Accumulates tool name (texts ++ [text]) := by
  obtain ⟨value, hv, hplain, he⟩ := h
  have htool : x.tool = tool := congrArg Prod.fst hx
  have hread : ((s.configuration.tools.find? x.tool).getD ∅).find? name =
      if IsEventCommand tool name then none else some value := by
    rw [find?_settings, htool]
    split
    · next hc => exact hnone hc
    · next hc => rwa [settingName_eq_self_iff.2 hc] at hv
  have hm : ¬ ['$', '('] <:+: (expandMetadata (trim x.setting.text)
      ((s.configuration.tools.find? x.tool).getD ∅)).toList := by
    rw [hs]
    apply no_macro_of_followedBy ht hn
    rw [hread]
    split
    · decide
    · exact hplain
  refine ⟨_, ?_, hm, ?_⟩
  · rw [kept?_setSetting, if_pos hx.symm, MacroTable.expand_of_no_opening hm]
  · rw [hs, splitList_expandMetadata_followedBy ht hn, collected_concat, hread]
    split
    · rw [Option.getD_none, splitList_empty]
    · rw [Option.getD_some, he]

end Evaluation

theorem writesUnder_concat (tool name : String) (w : List Write) (x : Write) :
    writesUnder tool name (w ++ [x]) = writesUnder tool name w ++
      if x.key = (tool, Evaluation.settingName tool name) then [(x.setting.name, x.setting.text)]
      else [] := by
  by_cases h : x.key = (tool, Evaluation.settingName tool name)
  · simp [writesUnder, h]
  · simp [writesUnder, h]

theorem eq_accumulating_concat {name first : String} {more : List String}
    {l : List (String × String)} {setting : String × String}
    (h : l ++ [setting] = accumulating name first more) :
    (more = [] ∧ l = [] ∧ setting = (name, first)) ∨
      ∃ init text, more = init ++ [text] ∧ l = accumulating name first init ∧
        setting = (name, followedBy text name) := by
  rcases List.eq_nil_or_concat more with rfl | ⟨init, text, rfl⟩
  · have hc : l ++ [setting] = [] ++ [(name, first)] := h
    obtain ⟨hl, hs⟩ := List.append_inj' hc rfl
    exact .inl ⟨rfl, hl, List.singleton_inj.1 hs⟩
  · rw [List.concat_eq_append] at h
    have hc : accumulating name first (init ++ [text]) =
        accumulating name first init ++ [(name, followedBy text name)] := by simp [accumulating]
    obtain ⟨hl, hs⟩ := List.append_inj' (h.trans hc) rfl
    exact .inr ⟨init, text, List.concat_eq_append, hl, List.singleton_inj.1 hs⟩

theorem Write.key_ne {tool name : String} (h : Evaluation.IsEventCommand tool name)
    (x : Write) : x.key ≠ (tool, name) := by
  intro hx
  obtain ⟨rfl, hn⟩ := Prod.ext_iff.1 hx
  exact Evaluation.settingName_ne h _ hn

theorem Performs.accumulates {s s' : Evaluation} {w : List Write} {tool name first : String}
    {more : List String} (h : Performs s w s') (hn : ')' ∉ name.toList)
    (hplain : ∀ text ∈ first :: more, IsPlain text)
    (hnone : Evaluation.IsEventCommand tool name → s.kept? (tool, name) = none)
    (hw : writesUnder tool name w = accumulating name first more) :
    s'.Accumulates tool name (first :: more) := by
  induction h generalizing more with
  | nil => cases hw
  | property _ name raw ih =>
    obtain ⟨value, hv, h⟩ := ih hplain hw
    exact ⟨value, (Evaluation.kept?_setProperty _ name raw _).trans hv, h⟩
  | sheet _ path ih => exact ih hplain hw
  | setting h x ih =>
    rw [writesUnder_concat] at hw
    by_cases hx : x.key = (tool, Evaluation.settingName tool name)
    · rw [if_pos hx] at hw
      rcases eq_accumulating_concat hw with ⟨rfl, -, hs⟩ | ⟨init, text, rfl, hl, hs⟩
      · obtain rfl : x.setting.text = first := congrArg Prod.snd hs
        exact Evaluation.accumulates_first hx (hplain _ List.mem_cons_self)
      · rw [← List.cons_append, List.forall_mem_append, List.forall_mem_singleton] at hplain
        apply Evaluation.accumulates_next (ih hplain.1 hl) hx (congrArg Prod.snd hs) hplain.2 hn
        intro hc
        rw [h.kept?_eq fun y _ => y.key_ne hc, hnone hc]
    · rw [if_neg hx, List.append_nil] at hw
      obtain ⟨value, hv, h⟩ := ih hplain hw
      refine ⟨value, ?_, h⟩
      rw [Evaluation.kept?_setSetting, if_neg (Ne.symm hx), hv]

/-- A setting that is written with a text and after that with references to itself has in the end
the entries of all its texts, the last text first: for the settings below one element of a tool if
they have no conditions, and for those in any groups and sheets unless the evaluation comes to a
condition that does not parse. The command of a build event is the exception: its reference finds
nothing, and it has the entries of the last text alone. -/
theorem settings_accumulate (fs : FileSystem) (tool name first : String) (more : List String)
    (hn : ')' ∉ name.toList) (hplain : ∀ text ∈ first :: more, IsPlain text) :
    (∀ (directory : String) (s : Evaluation) (e : Element), Evaluation.toolOf e.name = tool →
      (∀ c ∈ e.children, c.attribute? "Condition" = none) →
      (Evaluation.IsEventCommand tool name → s.kept? (tool, name) = none) →
      writesUnder tool name (e.children.map (Write.mk tool)) = accumulating name first more →
      ∃ s', s.applyTool fs directory e = .ok s' ∧ s'.Accumulates tool name (first :: more)) ∧
    ∀ (pending : List Pending) (s : Progress),
      (Evaluation.IsEventCommand tool name → s.evaluation.kept? (tool, name) = none) →
      writesUnder tool name (trace fs (writesOf fs) pending s) = accumulating name first more →
      (∃ s', evaluate fs pending s = .ok s' ∧
        s'.evaluation.Accumulates tool name (first :: more)) ∨
      ∃ e text, Occurs fs pending e ∧ e.attribute? "Condition" = some text ∧
        evaluate fs pending s = .error (.malformedCondition text) := by
  constructor
  · rintro directory s e rfl hc hnone hw
    obtain ⟨s', hs, hp⟩ := s.applyTool_of_unconditional hc
    exact ⟨s', hs, hp.accumulates hn hplain hnone hw⟩
  · intro pending s hnone hw
    rcases evaluate_ends fs pending s with ⟨s', hs⟩ | hx
    · exact .inl ⟨s', hs, (evaluate_performs hs).accumulates hn hplain hnone hw⟩
    · exact .inr hx

def delayedProject : Element :=
  { name := "Project"
    children :=
      [group "a; b",
       { name := "Import", attributes := [("Project", "s.props")] },
       group "c;;%(DelayLoadDLLs)"] }
where
  group (text : String) : Element :=
    { name := "ItemDefinitionGroup"
      children := [{ name := "Link", children := [{ name := "DelayLoadDLLs", text }] }] }

def delayedSheet : FileSystem :=
  ({} : FileSystem).addFile ["w", "s.props"] (text.toList.map fun c => UInt8.ofNat c.toNat)
where
  text : String :=
    "<P><ItemDefinitionGroup><Link><DelayLoadDLLs>d;e;%(DelayLoadDLLs)</DelayLoadDLLs></Link>" ++
    "</ItemDefinitionGroup></P>"

theorem settings_accumulate_imported :
    let start : Progress := { evaluation := .start "Debug|Win32" "Debug" "Win32" ⟨∅⟩ }
    ∃ s' value,
      evaluate delayedSheet (Pending.ofElements "/w" delayedProject.children) start = .ok s' ∧
      s'.evaluation.kept? (Tool.linker, "DelayLoadDLLs") = some value ∧
      splitList value = ["c", "d", "e", "a", "b"] := by
  intro start
  have hw := of_traceWithin delayedSheet (writesOf delayedSheet) 10
    (Pending.ofElements "/w" delayedProject.children) start
    (fun w => writesUnder Tool.linker "DelayLoadDLLs" w =
      accumulating "DelayLoadDLLs" "a; b" ["d;e", "c;"]) (by decide +kernel)
  obtain ⟨s₁, h₁, -⟩ := exists_evaluate_of_within delayedSheet 10
    (Pending.ofElements "/w" delayedProject.children) start (fun _ => true) (by decide +kernel)
  rcases (settings_accumulate delayedSheet Tool.linker "DelayLoadDLLs" "a; b" ["d;e", "c;"]
      (by decide) (by decide)).2 _ start (by decide) (of_decide_eq_true hw) with
    ⟨s', hs, value, hv, -, he⟩ | ⟨_, _, -, -, hx⟩
  · refine ⟨s', value, hs, hv, ?_⟩
    rw [he]
    decide +kernel
  · rw [h₁] at hx
    cases hx

def twoCommands : Element :=
  { name := "Project", children := [group "echo a", group "echo b;%(Command)"] }
where
  group (text : String) : Element :=
    { name := "ItemDefinitionGroup"
      children := [{ name := "PostBuildEvent", children := [{ name := "Command", text }] }] }

/-- The command of a build event does not accumulate: the second one replaces the first. -/
theorem command_replaced :
    let start : Progress := { evaluation := .start "Debug|Win32" "Debug" "Win32" ⟨∅⟩ }
    let pending := Pending.ofElements "/work" twoCommands.children
    writesUnder Tool.postBuildEvent "Command" (trace {} (writesOf {}) pending start) =
        accumulating "Command" "echo a" ["echo b"] ∧
      ∃ s' value, evaluate {} pending start = .ok s' ∧
        s'.evaluation.kept? (Tool.postBuildEvent, "CommandLine") = some value ∧
        splitList value = ["echo b"] ∧
        splitList value ≠ ["echo a", "echo b"].reverse.flatMap splitList := by
  intro start pending
  have hw := of_traceWithin {} (writesOf {}) 10 pending start
    (fun w => writesUnder Tool.postBuildEvent "Command" w =
      accumulating "Command" "echo a" ["echo b"]) (by decide +kernel)
  obtain ⟨s', hs, hp⟩ := exists_evaluate_of_within {} 10 pending start
    (fun s => s.evaluation.kept? (Tool.postBuildEvent, "CommandLine") = some "echo b")
    (by decide +kernel)
  exact ⟨of_decide_eq_true hw, s', "echo b", hs, of_decide_eq_true hp, by decide +kernel,
    by decide +kernel⟩

end StudioMake.MSBuild

import StudioMake.Proofs.VisualStudio.SheetPrecedence

/-!
# Tools merged in order

The tool children of an element are merged into the tools that are there already. Each setting is
that of the last attribute that writes it, and tools and settings keep their places: new ones come
behind the old ones as they are met.
-/

set_option autoImplicit false

namespace StudioMake.VisualStudio

open Xml OrderedMap

variable {tool name : String}

def childWrites (child : Element) : List (String × String × String) :=
  match child.attribute? "Name" with
  | none => []
  | some tool => (child.attributes.filter fun item => item.1 ≠ "Name").map fun item => (tool, item)

def toolWrites (e : Element) : List (String × String × String) :=
  (e.childrenNamed "Tool").flatMap childWrites

/-- The last text that an element writes for a setting of a tool. -/
def lastWrite? (tool name : String) (e : Element) : Option String :=
  lastSome? (fun write => if write.1 = tool ∧ write.2.1 = name then some write.2.2 else none)
    (toolWrites e)

/-- The names under which an element writes settings of a tool, in document order. -/
def writtenNames (tool : String) (e : Element) : List String :=
  ((toolWrites e).filter fun write => write.1 = tool).map fun write => write.2.1

/-- The tools that an element names, with settings or without, in document order. -/
def namedTools (e : Element) : List String :=
  (e.childrenNamed "Tool").filterMap fun child => child.attribute? "Name"

def settingNames (tools : Tools) (tool : String) : List String :=
  ((tools.find? tool).map keys).getD []

def withoutTools (e : Element) : Element :=
  { e with children := e.children.filter fun child => child.name ≠ "Tool" }

theorem lastSome?_childWrites (child : Element) :
    lastSome? (fun write => if write.1 = tool ∧ write.2.1 = name then some write.2.2 else none)
      (childWrites child) = toolValue? tool name child := by
  unfold childWrites toolValue?
  cases child.attribute? "Name" with
  | none => rfl
  | some other =>
    dsimp only
    rw [lastSome?_comp]
    by_cases h : other = tool
    · simp only [h, true_and, if_true]
      rfl
    · rw [if_neg fun he => h (Option.some.inj he), lastSome?_eq_none_iff]
      exact fun item _ => if_neg fun hi => h hi.1

theorem lastWrite?_eq (tool name : String) (e : Element) :
    lastWrite? tool name e = written? tool name e := by
  rw [lastWrite?, toolWrites, lastSome?_flatMap, written?]
  congr 1
  funext child
  exact lastSome?_childWrites child

theorem keys_addTool (macros : MacroTable) (tools : Tools) (child : Element) :
    (addTool macros tools child).keys = addNew tools.keys (child.attribute? "Name").toList := by
  unfold addTool
  cases child.attribute? "Name" with
  | none => rw [Option.toList_none, addNew_nil]
  | some other => exact keys_upsert_eq_addNew tools other _

theorem keys_collectTools (macros : MacroTable) (e : Element) (tools : Tools) :
    (collectTools macros e tools).keys = addNew tools.keys (namedTools e) := by
  rw [namedTools, List.filterMap_eq_flatMap_toList]
  exact get_foldl_eq_addNew keys (fun tools child => keys_addTool macros tools child) _ tools

theorem settingNames_addTool (macros : MacroTable) (tools : Tools) (child : Element) :
    settingNames (addTool macros tools child) tool = addNew (settingNames tools tool)
      (((childWrites child).filter fun write => write.1 = tool).map fun write => write.2.1) := by
  unfold addTool childWrites
  cases child.attribute? "Name" with
  | none => exact (addNew_nil _).symm
  | some other =>
    by_cases h : tool = other
    · subst h
      have hold : ((tools.find? tool).getD ∅).keys = settingNames tools tool := by
        unfold settingNames
        cases tools.find? tool <;> rfl
      have hall : ∀ l : List (String × String),
          (l.map fun item => (tool, item)).filter (fun write => write.1 = tool) =
            l.map fun item => (tool, item) :=
        fun l => List.filter_eq_self.2 (List.forall_mem_map.2 fun item _ => decide_eq_true rfl)
      rw [settingNames, find?_upsert, if_pos rfl, Option.map_some, Option.getD_some,
        keys_insertAll, hold, hall, toolSettings, List.map_map, List.map_map]
      rfl
    · have hnone : ∀ l : List (String × String),
          (l.map fun item => (other, item)).filter (fun write => write.1 = tool) = [] :=
        fun l => List.filter_eq_nil_iff.2 (List.forall_mem_map.2 fun item _ =>
          fun he => h (of_decide_eq_true he).symm)
      rw [settingNames, find?_upsert, if_neg h, hnone, List.map_nil, addNew_nil, settingNames]

theorem settingNames_collectTools (macros : MacroTable) (e : Element) (tools : Tools) :
    settingNames (collectTools macros e tools) tool =
      addNew (settingNames tools tool) (writtenNames tool e) := by
  rw [writtenNames, toolWrites, List.filter_flatMap, List.map_flatMap]
  exact get_foldl_eq_addNew (fun tools => settingNames tools tool)
    (fun tools child => settingNames_addTool macros tools child) _ tools

theorem childrenNamed_withoutTools (e : Element) (h : name ≠ "Tool") :
    (withoutTools e).childrenNamed name = e.childrenNamed name := by
  rw [withoutTools, Element.childrenNamed, List.filter_filter, Element.childrenNamed]
  refine List.filter_congr fun child _ => ?_
  by_cases hc : child.name = name <;> simp [hc, h]

/-- The tool children of an element are merged in document order. A setting is the expanded text
of the last attribute that writes it, and the old one where none does; old tools and settings keep
their places, and new ones come behind them in the order in which they are met, a tool also if
nothing is written for it. Macros are only read: those that a sheet or a configuration leaves do not
depend on its tools. So the children can be merged in two parts, one after the other. -/
theorem tools_merged_in_order (macros : MacroTable) (e : Element) (tools : Tools) :
    (∀ tool name, (collectTools macros e tools).setting? tool name =
      ((lastWrite? tool name e).map macros.expand).or (tools.setting? tool name)) ∧
    (collectTools macros e tools).keys = addNew tools.keys (namedTools e) ∧
    (∀ tool, settingNames (collectTools macros e tools) tool =
      addNew (settingNames tools tool) (writtenNames tool e)) ∧
    (∀ a : Assembly, (a.addSheet e).macros = (a.addSheet (withoutTools e)).macros) ∧
    (ownAssembly macros e).macros = (ownAssembly macros (withoutTools e)).macros ∧
    ∀ more : List Element,
      collectTools macros { e with children := e.children ++ more } tools =
        collectTools macros { e with children := more } (collectTools macros e tools) := by
  refine ⟨fun tool name => ?_, keys_collectTools macros e tools,
    fun tool => settingNames_collectTools macros e tools, fun a => ?_, rfl, fun more => ?_⟩
  · rw [setting?_collectTools, lastWrite?_eq]
  · rw [Assembly.addSheet, Assembly.addSheet, childrenNamed_withoutTools e (by decide)]
  · rw [collectTools, Element.childrenNamed, List.filter_append, List.foldl_append]
    rfl

end StudioMake.VisualStudio

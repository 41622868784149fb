import StudioMake.Proofs.VisualStudio.SheetTraversal

/-!
# Which sheet wins

The sheets of a configuration are added one after the other, a sheet after the sheets of its own
list. What a configuration ends with is what the last of them writes, and what its own element
writes where no sheet does.
-/

set_option autoImplicit false

namespace StudioMake

namespace VisualStudio

open Xml

namespace Visits

/-- The sheets read, each with what became of its own list. -/
def nodes : Visits → List (NormalPath × Element × Visits)
  | nil => []
  | again _ rest => rest.nodes
  | unreadable _ rest => rest.nodes
  | read path sheet below rest => (path, sheet, below) :: (below.nodes ++ rest.nodes)

/-- For each entry of a list the sheets that are first reached from it. -/
def blocks : Visits → List (List (NormalPath × Element))
  | nil => []
  | again _ rest => [] :: rest.blocks
  | unreadable _ rest => [] :: rest.blocks
  | read path sheet below rest => (below.sheets ++ [(path, sheet)]) :: rest.blocks

theorem flatten_blocks (v : Visits) : v.blocks.flatten = v.sheets := by
  induction v with
  | nil => rfl
  | again _ _ ih => exact ih
  | unreadable _ _ ih => exact ih
  | read path sheet below rest _ ih =>
    rw [blocks, List.flatten_cons, ih, sheets, List.append_assoc, List.singleton_append]

theorem mem_sheets_iff {v : Visits} {path : NormalPath} {sheet : Element} :
    (path, sheet) ∈ v.sheets ↔ ∃ below, (path, sheet, below) ∈ v.nodes := by
  induction v with
  | nil => simp [sheets, nodes]
  | again _ _ ih => exact ih
  | unreadable _ _ ih => exact ih
  | read p s below rest ihb ih =>
    rw [sheets, nodes, List.mem_append, List.mem_cons, ihb, ih]
    constructor
    · intro h
      rcases h with ⟨b, hb⟩ | h | ⟨b, hb⟩
      · exact ⟨b, List.mem_cons_of_mem _ (List.mem_append_left _ hb)⟩
      · cases h
        exact ⟨below, List.mem_cons_self⟩
      · exact ⟨b, List.mem_cons_of_mem _ (List.mem_append_right _ hb)⟩
    · intro h
      obtain ⟨b, hb⟩ := h
      rw [List.mem_cons, List.mem_append] at hb
      rcases hb with hb | hb | hb
      · cases hb
        exact .inr (.inl rfl)
      · exact .inl ⟨b, hb⟩
      · exact .inr (.inr ⟨b, hb⟩)

theorem sublist_of_mem_nodes {v below : Visits} {path : NormalPath} {sheet : Element}
    (h : (path, sheet, below) ∈ v.nodes) :
    (below.sheets ++ [(path, sheet)]).Sublist v.sheets := by
  induction v with
  | nil => cases h
  | again _ _ ih => exact ih h
  | unreadable _ _ ih => exact ih h
  | read p s b rest ihb ih =>
    rw [nodes, List.mem_cons, List.mem_append] at h
    rcases h with h | h | h
    · cases h
      exact (List.Sublist.refl _).append (List.singleton_sublist.2 List.mem_cons_self)
    · exact (ihb h).trans (List.sublist_append_left _ _)
    · exact (ih h).trans ((List.sublist_cons_self _ _).trans (List.sublist_append_right _ _))

theorem sublist_of_mem_append {x y : NormalPath × Element} {l m : List (NormalPath × Element)}
    (hx : x ∈ l) (hy : y ∈ m) : [x, y].Sublist (l ++ m) :=
  (List.singleton_sublist.2 hx).append (List.singleton_sublist.2 hy)

theorem pairwise_blocks (v : Visits) :
    v.blocks.Pairwise fun before after =>
      ∀ x ∈ before, ∀ y ∈ after, [x, y].Sublist v.sheets := by
  rw [← flatten_blocks]
  induction v.blocks with
  | nil => exact .nil
  | cons block blocks ih =>
    constructor
    · intro after ha x hx y hy
      exact sublist_of_mem_append hx (List.mem_flatten.2 ⟨after, ha, hy⟩)
    · apply ih.imp
      intro before after h x hx y hy
      exact (h x hx y hy).trans (List.sublist_append_right _ _)

end Visits

theorem Applies.below_of_mem_nodes {fs : FileSystem} {directory : String} {entries : List String}
    {reached : List NormalPath} {a a' : Assembly} {v below : Visits} {path : NormalPath}
    {sheet : Element} (h : Applies fs directory entries reached a v a')
    (hm : (path, sheet, below) ∈ v.nodes) :
    ∃ reached b b', Applies fs path.parent.toString
      (Text.splitList (sheet.attributeD "InheritedPropertySheets")) reached b below b' := by
  induction h with
  | nil => cases hm
  | again _ _ _ ih => exact ih hm
  | unreadable _ _ _ _ ih => exact ih hm
  | read _ _ _ hb _ ihb ih =>
    rw [Visits.nodes, List.mem_cons, List.mem_append] at hm
    rcases hm with hm | hm | hm
    · cases hm
      exact ⟨_, _, _, hb⟩
    · exact ihb hm
    · exact ih hm

/-- The sheets are read in the order of their lists: a sheet after everything that its own list
brings, and what an entry of a list brings before what a later entry of it brings. -/
structure InOrder (fs : FileSystem) (v : Visits) : Prop where
  nodup : (v.sheets.map Prod.fst).Nodup
  mem_sheets {path : NormalPath} {sheet : Element} :
    (path, sheet) ∈ v.sheets ↔ ∃ below, (path, sheet, below) ∈ v.nodes
  below_applied {path : NormalPath} {sheet : Element} {below : Visits}
    (h : (path, sheet, below) ∈ v.nodes) :
    ∃ reached a a', Applies fs path.parent.toString
      (Text.splitList (sheet.attributeD "InheritedPropertySheets")) reached a below a'
  below_first {path : NormalPath} {sheet : Element} {below : Visits}
    (h : (path, sheet, below) ∈ v.nodes) :
    ∀ item ∈ below.sheets, [item, (path, sheet)].Sublist v.sheets
  entries_in_turn : ∀ list ∈ v :: v.nodes.map fun node => node.2.2,
    list.blocks.Pairwise fun before after =>
      ∀ x ∈ before, ∀ y ∈ after, [x, y].Sublist v.sheets

theorem Traversal.inOrder {fs : FileSystem} {directory : String} {macros : MacroTable}
    {e : Element} {v : Visits} {a : Assembly} (h : Traversal fs directory macros e v a) :
    InOrder fs v where
  nodup := Applies.nodup_sheets h List.nodup_nil
  mem_sheets := Visits.mem_sheets_iff
  below_applied := h.below_of_mem_nodes
  below_first := by
    intro path sheet below hm item hi
    have hs := Visits.sublist_of_mem_nodes hm
    exact (Visits.sublist_of_mem_append hi List.mem_cons_self).trans hs
  entries_in_turn := by
    intro list hl
    rcases List.mem_cons.1 hl with rfl | hl
    · exact list.pairwise_blocks
    · obtain ⟨⟨path, sheet, below⟩, hm, rfl⟩ := List.mem_map.1 hl
      have hs := (List.sublist_append_left _ _).trans (Visits.sublist_of_mem_nodes hm)
      apply below.pairwise_blocks.imp
      intro before after h x hx y hy
      exact (h x hx y hy).trans hs

/-- The settings of a configuration are those of the last sheet that writes them, and of its own
element where none does; its directories likewise. Nothing that anyone writes is lost, and what
the element alone decides is untouched by sheets. -/
theorem last_sheet_wins (fs : FileSystem) (directory : String) (macros : MacroTable)
    (e : Element) :
    let c := (readConfiguration fs directory macros e).1
    ∃ (v : Visits) (a : Assembly),
      Traversal fs directory macros e v a ∧
      (∀ v' a', Traversal fs directory macros e v' a' → v' = v ∧ a' = a) ∧
      InOrder fs v ∧
      a = v.sheets.foldl (fun a item => a.addSheet item.2) (ownAssembly macros e) ∧
      c.tools = a.tools ∧
      (∀ tool name, c.tools.setting? tool name =
        (lastSome? (fun item => (written? tool name item.2).map item.1.expand)
          (withMacros (ownAssembly macros e).macros (v.sheets.map Prod.snd))).or
            ((written? tool name e).map (ownAssembly macros e).macros.expand)) ∧
      (∀ tool name, c.tools.setting? tool name = none ↔
        (∀ item ∈ v.sheets, written? tool name item.2 = none) ∧ written? tool name e = none) ∧
      (∀ tool, tool ∈ c.tools.keys ↔ (∃ item ∈ v.sheets, Names tool item.2) ∨ Names tool e) ∧
      c.outputDirectory = a.macros.expand
        ((lastSome? (fun item => item.2.attribute? "OutputDirectory") v.sheets).getD
          (ownOutput macros e)) ∧
      c.intermediateDirectory = a.macros.expand
        ((lastSome? (fun item => item.2.attribute? "IntermediateDirectory") v.sheets).getD
          (ownIntermediate macros e)) ∧
      c.name = e.attributeD "Name" ∧
      c.type = .ofAttribute (e.attributeD "ConfigurationType") ∧
      c.characterSet = .ofAttribute (e.attributeD "CharacterSet") ∧
      ∀ name, c.attributes.find? name = (lastValue? name e.attributes).map
        (readConfiguration fs directory macros e).2.expand := by
  obtain ⟨v, a, h, hs⟩ := exists_traversal fs directory macros e
  have ha : a = (v.sheets.map Prod.snd).foldl Assembly.addSheet (ownAssembly macros e) := by
    rw [List.foldl_map]
    exact h.assembly_eq
  simp only [readConfiguration, hs]
  refine ⟨v, a, h, ?_, h.inOrder, h.assembly_eq, rfl, h.setting?, ?_, h.mem_keys, ?_, ?_, rfl,
    trivial, trivial, ?_⟩
  · intro v' a' h'
    exact Applies.unique h' h
  · intro tool name
    rw [h.setting?, Option.or_eq_none_iff, lastSome?_withMacros_eq_none_iff, Option.map_eq_none_iff,
      List.forall_mem_map]
  · congr 1
    rw [ha, outputDirectory_addSheets, lastSome?_comp, outputDirectory_ownAssembly]
  · congr 1
    rw [ha, intermediateDirectory_addSheets, lastSome?_comp, intermediateDirectory_ownAssembly]
  · intro name
    rw [OrderedMap.ofList, find?_insertAll, lastValue?_map]
    exact Option.or_none

end VisualStudio

end StudioMake

import StudioMake.Proofs.VisualStudio.SheetSettings

/-!
# The traversal of property sheets

The sheets of a configuration form a forest: every entry of a list of sheets leads to a path, and a
sheet that is read there has a list of its own. `Applies` follows the lists by recursion, and the
pending work of `addSheets` does the same.
-/

set_option autoImplicit false

namespace StudioMake

theorem FileSystem.unread_append_le (fs : FileSystem) (visited more : List NormalPath) :
    fs.unread (visited ++ more) ≤ fs.unread visited := by
  induction more generalizing visited with
  | nil => simp
  | cons p more ih =>
    have hp := fs.unread_concat_le visited p
    have hm := ih (visited ++ [p])
    rw [List.append_assoc, List.singleton_append] at hm
    omega

namespace VisualStudio

open Xml

/-- What became of the entries of a list of sheets, one after the other. -/
inductive Visits where
  | nil
  /-- The path had been reached before. -/
  | again (path : NormalPath) (rest : Visits)
  /-- No sheet can be read at the path. -/
  | unreadable (path : NormalPath) (rest : Visits)
  /-- The sheet at the path was read; `below` is what became of its own list. -/
  | read (path : NormalPath) (sheet : Element) (below rest : Visits)

namespace Visits

/-- Every path that an entry leads to, in the order in which the entries have their turn. -/
def looked : Visits → List NormalPath
  | nil => []
  | again path rest => path :: rest.looked
  | unreadable path rest => path :: rest.looked
  | read path _ below rest => path :: (below.looked ++ rest.looked)

def firsts : Visits → List NormalPath
  | nil => []
  | again _ rest => rest.firsts
  | unreadable path rest => path :: rest.firsts
  | read path _ below rest => path :: (below.firsts ++ rest.firsts)

def sheets : Visits → List (NormalPath × Element)
  | nil => []
  | again _ rest => rest.sheets
  | unreadable _ rest => rest.sheets
  | read path sheet below rest => below.sheets ++ (path, sheet) :: rest.sheets

end Visits

/-- The entries of a list are dealt with in order. A sheet that is read for the first time is added
after its own list, whose entries are seen from the directory of the sheet. -/
inductive Applies (fs : FileSystem) : String → List String → List NormalPath → Assembly → Visits →
    Assembly → Prop
  | nil {directory : String} {reached : List NormalPath} {a : Assembly} :
      Applies fs directory [] reached a .nil a
  | again {directory entry : String} {entries : List String} {reached : List NormalPath}
      {a a' : Assembly} {path : NormalPath} {rest : Visits}
      (hp : a.sheetPath directory entry = path) (hr : path ∈ reached)
      (h : Applies fs directory entries reached a rest a') :
      Applies fs directory (entry :: entries) reached a (.again path rest) a'
  | unreadable {directory entry : String} {entries : List String} {reached : List NormalPath}
      {a a' : Assembly} {path : NormalPath} {rest : Visits}
      (hp : a.sheetPath directory entry = path) (hr : path ∉ reached)
      (hd : fs.documentAt? path = none)
      (h : Applies fs directory entries (reached ++ [path]) a rest a') :
      Applies fs directory (entry :: entries) reached a (.unreadable path rest) a'
  | read {directory entry : String} {entries : List String} {reached : List NormalPath}
      {a a₁ a' : Assembly} {path : NormalPath} {sheet : Element} {below rest : Visits}
      (hp : a.sheetPath directory entry = path) (hr : path ∉ reached)
      (hd : fs.documentAt? path = some sheet)
      (hb : Applies fs path.parent.toString
        (Text.splitList (sheet.attributeD "InheritedPropertySheets")) (reached ++ [path]) a below
        a₁)
      (h : Applies fs directory entries (reached ++ path :: below.firsts) (a₁.addSheet sheet)
        rest a') :
      Applies fs directory (entry :: entries) reached a (.read path sheet below rest) a'

variable {fs : FileSystem} {directory : String} {entries : List String}
  {reached : List NormalPath} {a a' : Assembly} {v : Visits}

/-- The recursion leaves no choice. -/
theorem Applies.unique {v' : Visits} {b : Assembly}
    (h : Applies fs directory entries reached a v a')
    (h' : Applies fs directory entries reached a v' b) : v = v' ∧ a' = b := by
  induction h generalizing v' b with
  | nil =>
    cases h'
    exact ⟨rfl, rfl⟩
  | again hp hr _ ih =>
    subst hp
    cases h' with
    | again hp' _ h' =>
      obtain ⟨rfl, rfl⟩ := ih h'
      exact ⟨by rw [hp'], rfl⟩
    | unreadable hp' hr' => exact absurd (hp' ▸ hr) hr'
    | read hp' hr' => exact absurd (hp' ▸ hr) hr'
  | unreadable hp hr hd _ ih =>
    subst hp
    cases h' with
    | again hp' hr' => exact absurd (hp' ▸ hr') hr
    | unreadable hp' _ _ h' =>
      subst hp'
      obtain ⟨rfl, rfl⟩ := ih h'
      exact ⟨rfl, rfl⟩
    | read hp' _ hd' =>
      rw [← hp', hd] at hd'
      cases hd'
  | read hp hr hd _ _ ihb ih =>
    subst hp
    cases h' with
    | again hp' hr' => exact absurd (hp' ▸ hr') hr
    | unreadable hp' _ hd' =>
      rw [← hp', hd] at hd'
      cases hd'
    | read hp' _ hd' hb' h' =>
      subst hp'
      rw [hd] at hd'
      cases hd'
      obtain ⟨rfl, rfl⟩ := ihb hb'
      obtain ⟨rfl, rfl⟩ := ih h'
      exact ⟨rfl, rfl⟩

section Pending

variable {entry : String} {path : NormalPath} {pending : List Pending}

theorem addSheets_again (hp : a.sheetPath directory entry = path) (hr : path ∈ reached) :
    addSheets fs (.visit directory entry :: pending) reached a =
      addSheets fs pending reached a := by
  rw [addSheets, if_pos (hp ▸ hr)]

theorem addSheets_unreadable (hp : a.sheetPath directory entry = path) (hr : path ∉ reached)
    (hd : fs.documentAt? path = none) :
    addSheets fs (.visit directory entry :: pending) reached a =
      addSheets fs pending (reached ++ [path]) a := by
  rw [addSheets, if_neg (hp ▸ hr), hp, Pending.ofPath, hd]
  rfl

theorem addSheets_read {sheet : Element} (hp : a.sheetPath directory entry = path)
    (hr : path ∉ reached) (hd : fs.documentAt? path = some sheet) :
    addSheets fs (.visit directory entry :: pending) reached a =
      addSheets fs
        ((Text.splitList (sheet.attributeD "InheritedPropertySheets")).map
          (.visit path.parent.toString) ++ .add sheet :: pending)
        (reached ++ [path]) a := by
  rw [addSheets, if_neg (hp ▸ hr), hp, Pending.ofPath, hd]
  simp only [Pending.ofList, List.append_assoc, List.singleton_append]

theorem addSheets_add (sheet : Element) :
    addSheets fs (.add sheet :: pending) reached a =
      addSheets fs pending reached (a.addSheet sheet) := by
  rw [addSheets]

end Pending

/-- The recursion ends for every list of sheets: each sheet that is read leaves fewer readable
paths unvisited. The pending work of `addSheets` comes to the same end. -/
theorem exists_applies (fs : FileSystem) (directory : String) (entries : List String)
    (reached : List NormalPath) (a : Assembly) :
    ∃ v a', Applies fs directory entries reached a v a' ∧
      ∀ pending, addSheets fs (entries.map (.visit directory) ++ pending) reached a =
        addSheets fs pending (reached ++ v.firsts) a' := by
  match entries with
  | [] =>
    refine ⟨.nil, a, .nil, ?_⟩
    intro pending
    simp [Visits.firsts]
  | entry :: entries =>
    by_cases hr : a.sheetPath directory entry ∈ reached
    · obtain ⟨v, a', h, hs⟩ := exists_applies fs directory entries reached a
      refine ⟨_, a', .again rfl hr h, ?_⟩
      intro pending
      rw [List.map_cons, List.cons_append, addSheets_again rfl hr, hs]
      rfl
    · cases hd : fs.documentAt? (a.sheetPath directory entry) with
      | none =>
        obtain ⟨v, a', h, hs⟩ := exists_applies fs directory entries
          (reached ++ [a.sheetPath directory entry]) a
        refine ⟨_, a', .unreadable rfl hr hd h, ?_⟩
        intro pending
        rw [List.map_cons, List.cons_append, addSheets_unreadable rfl hr hd, hs, Visits.firsts,
          List.append_assoc, List.singleton_append]
      | some sheet =>
        obtain ⟨below, a₁, hb, hbs⟩ := exists_applies fs
          (a.sheetPath directory entry).parent.toString
          (Text.splitList (sheet.attributeD "InheritedPropertySheets"))
          (reached ++ [a.sheetPath directory entry]) a
        obtain ⟨v, a', h, hs⟩ := exists_applies fs directory entries
          (reached ++ a.sheetPath directory entry :: below.firsts) (a₁.addSheet sheet)
        refine ⟨_, a', .read rfl hr hd hb h, ?_⟩
        intro pending
        rw [List.map_cons, List.cons_append, addSheets_read rfl hr hd, hbs, addSheets_add,
          List.append_assoc, List.singleton_append, hs, Visits.firsts, List.append_assoc,
          List.cons_append]
termination_by (fs.unread reached, entries.length)
decreasing_by
  · exact Prod.Lex.right _ (Nat.lt_succ_self _)
  · exact FileSystem.follow_lt _ (Nat.lt_succ_self _)
  · exact Prod.Lex.left _ _ (FileSystem.unread_concat_lt_of_documentAt? hr hd)
  · apply Prod.Lex.left
    have hlt := FileSystem.unread_concat_lt_of_documentAt? hr hd
    have hle := fs.unread_append_le (reached ++ [a.sheetPath directory entry]) below.firsts
    rw [List.append_assoc, List.singleton_append] at hle
    omega

theorem nodup_concat {path : NormalPath} (hr : reached.Nodup) (h : path ∉ reached) :
    (reached ++ [path]).Nodup := by
  rw [List.nodup_append]
  refine ⟨hr, by simp, ?_⟩
  intro p hp q hq he
  rw [List.mem_singleton.1 hq] at he
  exact h (he ▸ hp)

theorem Applies.nodup_firsts (h : Applies fs directory entries reached a v a')
    (hr : reached.Nodup) : (reached ++ v.firsts).Nodup := by
  induction h with
  | nil =>
    rw [Visits.firsts, List.append_nil]
    exact hr
  | again _ _ _ ih => exact ih hr
  | unreadable _ hp _ _ ih =>
    have h := ih (nodup_concat hr hp)
    rw [List.append_assoc, List.singleton_append] at h
    exact h
  | read _ hp _ _ _ ihb ih =>
    have hb := ihb (nodup_concat hr hp)
    rw [List.append_assoc, List.singleton_append] at hb
    have h := ih hb
    rw [List.append_assoc, List.cons_append] at h
    exact h

def fresh (reached l : List NormalPath) : List NormalPath := (l.filter (· ∉ reached)).eraseDups

theorem fresh_cons_of_mem {path : NormalPath} (h : path ∈ reached) (l : List NormalPath) :
    fresh reached (path :: l) = fresh reached l := by
  simp [fresh, h]

theorem fresh_cons_of_not_mem {path : NormalPath} (h : path ∉ reached) (l : List NormalPath) :
    fresh reached (path :: l) = path :: fresh (reached ++ [path]) l := by
  rw [fresh, List.filter_cons_of_pos (by simp [h]), List.eraseDups_cons, List.filter_filter, fresh]
  congr 2
  apply List.filter_congr
  intro q _
  by_cases hq : q = path
  · simp [hq]
  · simp [hq]

theorem fresh_append (reached l m : List NormalPath) :
    fresh reached (l ++ m) = fresh reached l ++ fresh (reached ++ fresh reached l) m := by
  induction l generalizing reached with
  | nil => simp [fresh]
  | cons path l ih =>
    by_cases h : path ∈ reached
    · rw [List.cons_append, fresh_cons_of_mem h, fresh_cons_of_mem h]
      exact ih reached
    · rw [List.cons_append, fresh_cons_of_not_mem h, fresh_cons_of_not_mem h, ih,
        List.append_assoc, List.singleton_append, List.cons_append]

theorem Applies.firsts_eq (h : Applies fs directory entries reached a v a') :
    v.firsts = fresh reached v.looked := by
  induction h with
  | nil => rfl
  | again _ hr _ ih =>
    rw [Visits.looked, fresh_cons_of_mem hr]
    exact ih
  | unreadable _ hr _ _ ih => rw [Visits.looked, Visits.firsts, fresh_cons_of_not_mem hr, ih]
  | read _ hr _ _ _ ihb ih =>
    rw [Visits.looked, Visits.firsts, fresh_cons_of_not_mem hr, fresh_append, ih, ← ihb,
      List.append_assoc, List.singleton_append]

theorem Applies.sheets_perm (h : Applies fs directory entries reached a v a') :
    (v.sheets.map Prod.fst).Perm (v.firsts.filter fun p => (fs.documentAt? p).isSome) := by
  induction h with
  | nil => exact .nil
  | again _ _ _ ih => exact ih
  | unreadable _ _ hd _ ih =>
    rw [Visits.firsts, List.filter_cons_of_neg (by simp [hd])]
    exact ih
  | read _ _ hd _ _ ihb ih =>
    rw [Visits.firsts, List.filter_cons_of_pos (by simp [hd]), List.filter_append, Visits.sheets,
      List.map_append, List.map_cons]
    exact List.perm_middle.trans ((ihb.append ih).cons _)

theorem Applies.nodup_sheets (h : Applies fs directory entries reached a v a')
    (hr : reached.Nodup) : (v.sheets.map Prod.fst).Nodup := by
  have hfirsts := (List.nodup_append.1 (h.nodup_firsts hr)).2.1
  exact h.sheets_perm.nodup_iff.2 (hfirsts.filter _)

theorem Applies.documentAt?_of_mem (h : Applies fs directory entries reached a v a')
    {path : NormalPath} {sheet : Element} (hm : (path, sheet) ∈ v.sheets) :
    fs.documentAt? path = some sheet := by
  induction h with
  | nil => cases hm
  | again _ _ _ ih => exact ih hm
  | unreadable _ _ _ _ ih => exact ih hm
  | read _ _ hd _ _ ihb ih =>
    rcases List.mem_append.1 hm with hm | hm
    · exact ihb hm
    · rcases List.mem_cons.1 hm with hm | hm
      · cases hm
        exact hd
      · exact ih hm

theorem Applies.assembly_eq (h : Applies fs directory entries reached a v a') :
    a' = v.sheets.foldl (fun a item => a.addSheet item.2) a := by
  induction h with
  | nil => rfl
  | again _ _ _ ih => exact ih
  | unreadable _ _ _ _ ih => exact ih
  | read _ _ _ _ _ ihb ih =>
    rw [Visits.sheets, List.foldl_append, List.foldl_cons, ← ihb]
    exact ih

def Traversal (fs : FileSystem) (directory : String) (macros : MacroTable) (e : Element)
    (v : Visits) (a : Assembly) : Prop :=
  Applies fs directory (Text.splitList (e.attributeD "InheritedPropertySheets")) []
    (ownAssembly macros e) v a

theorem exists_traversal (fs : FileSystem) (directory : String) (macros : MacroTable)
    (e : Element) :
    ∃ v a, Traversal fs directory macros e v a ∧
      addSheets fs (Pending.ofList directory (e.attributeD "InheritedPropertySheets")) []
        (ownAssembly macros e) = (v.firsts, a) := by
  obtain ⟨v, a, h, hs⟩ := exists_applies fs directory
    (Text.splitList (e.attributeD "InheritedPropertySheets")) [] (ownAssembly macros e)
  have hs := hs []
  rw [List.append_nil, List.nil_append, addSheets] at hs
  exact ⟨v, a, h, hs⟩

theorem Traversal.setting? {fs : FileSystem} {directory : String} {macros : MacroTable}
    {e : Element} {v : Visits} {a : Assembly} (h : Traversal fs directory macros e v a)
    (tool name : String) :
    a.tools.setting? tool name =
      (lastSome? (fun item => (written? tool name item.2).map item.1.expand)
        (withMacros (ownAssembly macros e).macros (v.sheets.map Prod.snd))).or
          ((written? tool name e).map (ownAssembly macros e).macros.expand) := by
  have hempty : (∅ : Tools).setting? tool name = none := rfl
  rw [Applies.assembly_eq h, ← List.foldl_map, setting?_addSheets, tools_ownAssembly,
    setting?_collectTools, hempty, Option.or_none]

theorem Traversal.mem_keys {fs : FileSystem} {directory : String} {macros : MacroTable}
    {e : Element} {v : Visits} {a : Assembly} (h : Traversal fs directory macros e v a)
    (tool : String) :
    tool ∈ a.tools.keys ↔ (∃ item ∈ v.sheets, Names tool item.2) ∨ Names tool e := by
  have hnames : (∃ sheet ∈ v.sheets.map Prod.snd, Names tool sheet) ↔
      ∃ item ∈ v.sheets, Names tool item.2 := by
    constructor
    · rintro ⟨_, hm, hn⟩
      obtain ⟨item, hi, rfl⟩ := List.mem_map.1 hm
      exact ⟨item, hi, hn⟩
    · rintro ⟨item, hi, hn⟩
      exact ⟨item.2, List.mem_map_of_mem hi, hn⟩
  rw [Applies.assembly_eq h, ← List.foldl_map, mem_keys_addSheets, hnames, tools_ownAssembly,
    mem_keys_collectTools]
  simp

/-- Property sheets are followed to an end in every file system, in one way only. The paths reached
are listed once each, in the order of their first look-up, and every sheet that can be read at one
of them is added exactly once. So the tools are those of the element itself, to which each of these
sheets adds its own with the macros of its turn: a setting has the value that the last sheet to
write it gives it, and a tool is there if one of them or the element names it. -/
theorem sheets_added_once (fs : FileSystem) (directory : String) (macros : MacroTable)
    (e : Element) :
    let c := (readConfiguration fs directory macros e).1
    let own := ownAssembly macros e
    ∃ (v : Visits) (a : Assembly),
      Traversal fs directory macros e v a ∧
      (∀ v' a', Traversal fs directory macros e v' a' → v' = v ∧ a' = a) ∧
      c.propertySheets = v.looked.eraseDups ∧
      c.propertySheets.Nodup ∧
      (v.sheets.map Prod.fst).Nodup ∧
      (∀ path sheet, (path, sheet) ∈ v.sheets ↔
        path ∈ c.propertySheets ∧ fs.documentAt? path = some sheet) ∧
      a = v.sheets.foldl (fun a item => a.addSheet item.2) own ∧
      c.tools = a.tools ∧
      c.tools = (withMacros own.macros (v.sheets.map Prod.snd)).foldl
        (fun tools item => collectTools item.1 item.2 tools) (collectTools own.macros e ∅) ∧
      (∀ tool name, c.tools.setting? tool name =
        (lastSome? (fun item => (written? tool name item.2).map item.1.expand)
          (withMacros own.macros (v.sheets.map Prod.snd))).or
            ((written? tool name e).map own.macros.expand)) ∧
      ∀ tool, tool ∈ c.tools.keys ↔ (∃ item ∈ v.sheets, Names tool item.2) ∨ Names tool e := by
  intro c own
  obtain ⟨v, a, h, hs⟩ := exists_traversal fs directory macros e
  have hsheets : c.propertySheets = v.firsts := by
    simp only [c, readConfiguration, hs]
  have htools : c.tools = a.tools := by
    simp only [c, readConfiguration, hs]
  have hnodup : v.firsts.Nodup := h.nodup_firsts List.nodup_nil
  have hperm := h.sheets_perm
  rw [hsheets, htools]
  refine ⟨v, a, h, ?_, ?_, hnodup, h.nodup_sheets List.nodup_nil, ?_, h.assembly_eq, rfl, ?_,
    h.setting?, h.mem_keys⟩
  · intro v' a' h'
    exact Applies.unique h' h
  · rw [h.firsts_eq, fresh, List.filter_eq_self.2 (by simp)]
  · intro path sheet
    constructor
    · intro hm
      have hp := hperm.mem_iff.1 (List.mem_map_of_mem hm)
      exact ⟨(List.mem_filter.1 hp).1, h.documentAt?_of_mem hm⟩
    · intro hm
      obtain ⟨hp, hd⟩ := hm
      have hp : path ∈ v.sheets.map Prod.fst :=
        hperm.mem_iff.2 (List.mem_filter.2 ⟨hp, by simp [hd]⟩)
      obtain ⟨item, hi, rfl⟩ := List.mem_map.1 hp
      have hd' := h.documentAt?_of_mem hi
      rw [hd] at hd'
      cases hd'
      exact hi
  · rw [h.assembly_eq, ← List.foldl_map, tools_addSheets, tools_ownAssembly]

def trailSheet (list letter : String) (more : List Element) : Element :=
  { name := "S"
    attributes := [("InheritedPropertySheets", list)]
    children :=
      { name := "UserMacro"
        attributes := [("Name", "T"), ("Value", "$(T)" ++ letter)] } :: more ++
        [{ name := "Tool", attributes := [("Name", "L"), (letter, "$(T)")] }] }

def nextMacro : Element :=
  { name := "UserMacro", attributes := [("Name", "N"), ("Value", "c")] }

/-- The first sheet lists the second and, by a macro that the last one sets, the third. Both list
the last one, and besides the second lists itself and the third the first. -/
def linkedSheets : FileSystem :=
  { entries :=
      [(["w", "a"], text "b;$(N)" "a" ""),
       (["w", "b"], text "d;b" "b" ""),
       (["w", "c"], text "d;a" "c" ""),
       (["w", "d"], text "" "d" "<UserMacro Name='N' Value='c'/>")] }
where
  text (list letter more : String) : FileSystem.Entry :=
    .file ((["<S InheritedPropertySheets='", list, "'><UserMacro Name='T' Value='$(T)", letter,
      "'/>", more, "<Tool Name='L' ", letter, "='$(T)'/></S>"].flatMap String.toList).map
        fun c => UInt8.ofNat c.toNat)

def linkedConfiguration : Element :=
  { name := "Configuration"
    attributes :=
      [("Name", "Debug|Win32"),
       ("InheritedPropertySheets", "a;gone;d")] }

def linkedMacros : MacroTable := ⟨.ofList [("$(T)", ""), ("$(N)", "gone")]⟩

def linkedPath (name : String) : NormalPath := { rooted := true, names := ["w", name] }

def sheetA : Element := trailSheet "b;$(N)" "a" []

def sheetB : Element := trailSheet "d;b" "b" []

def sheetC : Element := trailSheet "d;a" "c" []

def sheetD : Element := trailSheet "" "d" [nextMacro]

def linkedVisits : Visits :=
  .read (linkedPath "a") sheetA
    (.read (linkedPath "b") sheetB
      (.read (linkedPath "d") sheetD .nil (.again (linkedPath "b") .nil))
      (.read (linkedPath "c") sheetC
        (.again (linkedPath "d") (.again (linkedPath "a") .nil)) .nil))
    (.unreadable (linkedPath "gone") (.again (linkedPath "d") .nil))

def linkedAssembly (sheets : List Element) : Assembly :=
  sheets.foldl Assembly.addSheet (ownAssembly linkedMacros linkedConfiguration)

theorem traversal_linkedSheets :
    Traversal linkedSheets "/w" linkedMacros linkedConfiguration linkedVisits
      (linkedAssembly [sheetD, sheetB, sheetC, sheetA]) := by
  have hlist : Text.splitList (linkedConfiguration.attributeD "InheritedPropertySheets") =
      ["a", "gone", "d"] := by decide +kernel
  have ha : Text.splitList (sheetA.attributeD "InheritedPropertySheets") =
      ["b", "$(N)"] := by decide +kernel
  have hb : Text.splitList (sheetB.attributeD "InheritedPropertySheets") =
      ["d", "b"] := by decide +kernel
  have hc : Text.splitList (sheetC.attributeD "InheritedPropertySheets") =
      ["d", "a"] := by decide +kernel
  have hd : Text.splitList (sheetD.attributeD "InheritedPropertySheets") = [] := by
    decide +kernel
  have hbelowD : Applies linkedSheets (linkedPath "d").parent.toString
      (Text.splitList (sheetD.attributeD "InheritedPropertySheets"))
      [linkedPath "a", linkedPath "b", linkedPath "d"] (linkedAssembly []) .nil
      (linkedAssembly []) := by
    rw [hd]
    exact .nil
  have hbelowB : Applies linkedSheets (linkedPath "b").parent.toString
      (Text.splitList (sheetB.attributeD "InheritedPropertySheets"))
      [linkedPath "a", linkedPath "b"] (linkedAssembly [])
      (.read (linkedPath "d") sheetD .nil (.again (linkedPath "b") .nil))
      (linkedAssembly [sheetD]) := by
    rw [hb]
    exact .read (by decide +kernel) (by decide) (by decide +kernel) hbelowD
      (.again (by decide +kernel) (by decide) .nil)
  have hbelowC : Applies linkedSheets (linkedPath "c").parent.toString
      (Text.splitList (sheetC.attributeD "InheritedPropertySheets"))
      [linkedPath "a", linkedPath "b", linkedPath "d", linkedPath "c"]
      (linkedAssembly [sheetD, sheetB])
      (.again (linkedPath "d") (.again (linkedPath "a") .nil))
      (linkedAssembly [sheetD, sheetB]) := by
    rw [hc]
    exact .again (by decide +kernel) (by decide) (.again (by decide +kernel) (by decide) .nil)
  have hbelowA : Applies linkedSheets (linkedPath "a").parent.toString
      (Text.splitList (sheetA.attributeD "InheritedPropertySheets")) [linkedPath "a"]
      (linkedAssembly [])
      (.read (linkedPath "b") sheetB
        (.read (linkedPath "d") sheetD .nil (.again (linkedPath "b") .nil))
        (.read (linkedPath "c") sheetC
          (.again (linkedPath "d") (.again (linkedPath "a") .nil)) .nil))
      (linkedAssembly [sheetD, sheetB, sheetC]) := by
    rw [ha]
    exact .read (by decide +kernel) (by decide) (by decide +kernel) hbelowB
      (.read (by decide +kernel) (by decide) (by decide +kernel) hbelowC .nil)
  unfold Traversal linkedVisits
  rw [hlist]
  exact .read (by decide +kernel) (by decide) (by decide +kernel) hbelowA
    (.unreadable (by decide +kernel) (by decide) (by decide +kernel)
      (.again (by decide +kernel) (by decide) .nil))

theorem sheets_added_once_linked :
    let c := (readConfiguration linkedSheets "/w" linkedMacros linkedConfiguration).1
    c.propertySheets = ["a", "b", "d", "c", "gone"].map linkedPath ∧
      ["d", "b", "c", "a"].map (c.tools.setting? "L") =
        [some "d", some "db", some "dbc", some "dbca"] := by
  intro c
  obtain ⟨v, a, -, hunique, hsheets, -, -, -, -, htools, -, -, -⟩ :=
    sheets_added_once linkedSheets "/w" linkedMacros linkedConfiguration
  obtain ⟨rfl, rfl⟩ := hunique _ _ traversal_linkedSheets
  constructor
  · exact hsheets.trans (by decide +kernel)
  · have h : c.tools = (linkedAssembly [sheetD, sheetB, sheetC, sheetA]).tools := htools
    rw [h]
    decide +kernel

end VisualStudio

end StudioMake

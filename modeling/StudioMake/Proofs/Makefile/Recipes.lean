import StudioMake.Proofs.Makefile.Reading

/-!
# Reading recipes

What GNU make takes for the recipes of a makefile: lines that start with a tab, after a line that
names the targets before a colon. In a text made of tidy statements these are the targets of the
rules that hold a recipe.
-/

set_option autoImplicit false

namespace StudioMake.Makefile

section Reading

def isRecipeLine (line : String) : Bool := line.toList.head? = some '\t'

def targetsOf (line : String) : List String :=
  words (((Text.splitOnce? ':' line).map Prod.fst).getD "")

def targetsOfLines : List String → List String
  | [] => []
  | line :: rest =>
    (if !isRecipeLine line && rest.head?.any isRecipeLine then targetsOf line else []) ++
      targetsOfLines rest

/-- The targets to which a text gives a recipe. -/
def recipeTargets (text : String) : List String := targetsOfLines (logicalLines text)

def Statement.recipeTarget? : Statement → Option String
  | .rule target _ recipe => if recipe = [] then none else some target
  | .object target _ recipe => if recipe = [] then none else some target
  | _ => none

end Reading

section Tidy

/-- A text that stands on a line of its own: nothing in it ends the line, and no backslash joins it
to the next one. -/
structure IsLine (text : String) : Prop where
  newline_notMem : '\n' ∉ text.toList
  backslash : text.toList.getLast? ≠ some '\\'

instance : DecidablePred IsLine := fun text =>
  decidable_of_iff ('\n' ∉ text.toList ∧ text.toList.getLast? ≠ some '\\')
    ⟨fun h => ⟨h.1, h.2⟩, fun h => ⟨h.newline_notMem, h.backslash⟩⟩

structure IsTarget (name : String) : Prop where
  isWord : IsWord name
  colon_notMem : ':' ∉ name.toList

instance : DecidablePred IsTarget := fun name =>
  decidable_of_iff (IsWord name ∧ ':' ∉ name.toList)
    ⟨fun h => ⟨h.1, h.2⟩, fun h => ⟨h.isWord, h.colon_notMem⟩⟩

structure IsItem (name : String) : Prop where
  isWord : IsWord name
  backslash_notMem : '\\' ∉ name.toList

instance : DecidablePred IsItem := fun name =>
  decidable_of_iff (IsWord name ∧ '\\' ∉ name.toList)
    ⟨fun h => ⟨h.1, h.2⟩, fun h => ⟨h.isWord, h.backslash_notMem⟩⟩

namespace Statement

/-- A statement none of whose parts breaks the line on which it stands or hides its target. -/
def Tidy : Statement → Prop
  | .blank => True
  | .comment text => IsLine ("# " ++ text)
  | .heading text => IsLine ("# " ++ text)
  | .assign name assignment value =>
    IsVariable name ∧ IsLine (Statement.assign name assignment value).text
  | .assignWords name words => IsVariable name ∧ ∀ w ∈ words, IsItem w
  | .assignFor target name value =>
    IsTarget target ∧ IsLine (Statement.assignFor target name value).text
  | .group target fixed members =>
    IsTarget target ∧ IsLine (Statement.group target fixed members).text
  | .rule target prerequisites recipe =>
    IsTarget target ∧ IsLine (target ++ ":" ++ words prerequisites) ∧
      ∀ line ∈ recipe, IsLine ("\t" ++ line)
  | .object target source recipe =>
    IsTarget target ∧ IsLine (target ++ " : " ++ source) ∧ ∀ line ∈ recipe, IsLine ("\t" ++ line)

instance : DecidablePred Tidy
  | .blank => inferInstanceAs (Decidable True)
  | .comment _ => inferInstanceAs (Decidable (IsLine _))
  | .heading _ => inferInstanceAs (Decidable (IsLine _))
  | .assign _ _ _ => inferInstanceAs (Decidable (_ ∧ _))
  | .assignWords _ _ => inferInstanceAs (Decidable (_ ∧ _))
  | .assignFor _ _ _ => inferInstanceAs (Decidable (_ ∧ _))
  | .group _ _ _ => inferInstanceAs (Decidable (_ ∧ _))
  | .rule _ _ _ => inferInstanceAs (Decidable (_ ∧ _ ∧ _))
  | .object _ _ _ => inferInstanceAs (Decidable (_ ∧ _ ∧ _))

def lines : Statement → List String
  | .heading text => ["#", "# " ++ text, "#"]
  | .assignWords name ws => [name ++ " :=" ++ words ws]
  | .rule target prerequisites recipe =>
    (target ++ ":" ++ words prerequisites) :: recipe.map ("\t" ++ ·)
  | .object target source recipe => (target ++ " : " ++ source) :: recipe.map ("\t" ++ ·)
  | s => [s.text]

end Statement

end Tidy

section Lines

variable {line head target : String} {recipe : List String}

theorem IsLine.logicalLines_eq (h : IsLine line) (rest : String) :
    logicalLines (line ++ "\n" ++ rest) = line :: logicalLines rest := by
  simp [logicalLines, pieces_line h.newline_notMem, joinLines_cons h.backslash]

theorem logicalLines_recipe (hh : IsLine head) (hr : ∀ line ∈ recipe, IsLine ("\t" ++ line))
    (rest : String) :
    logicalLines (head ++ Statement.recipeText recipe ++ "\n" ++ rest) =
      head :: recipe.map ("\t" ++ ·) ++ logicalLines rest := by
  induction recipe generalizing head with
  | nil =>
    have ht : head ++ Statement.recipeText [] = head := by simp [Statement.recipeText]
    rw [ht, hh.logicalLines_eq]
    rfl
  | cons line recipe ih =>
    have ht : head ++ Statement.recipeText (line :: recipe) ++ "\n" ++ rest =
        head ++ "\n" ++ ("\t" ++ line ++ Statement.recipeText recipe ++ "\n" ++ rest) := by
      rw [← String.toList_inj]
      simp [Statement.recipeText]
    rw [ht, hh.logicalLines_eq, ih (hr line List.mem_cons_self)
      fun l hl => hr l (List.mem_cons_of_mem line hl)]
    rfl

theorem Statement.Tidy.logicalLines_eq {s : Statement} (h : s.Tidy) (rest : String) :
    logicalLines (s.text ++ "\n" ++ rest) = s.lines ++ logicalLines rest := by
  cases s with
  | blank => exact IsLine.logicalLines_eq (by decide) rest
  | comment text => exact IsLine.logicalLines_eq h rest
  | heading text =>
    have hsign : IsLine "#" := by decide
    have ht : (Statement.heading text).text ++ "\n" ++ rest =
        "#" ++ "\n" ++ ("# " ++ text ++ "\n" ++ ("#" ++ "\n" ++ rest)) := by
      rw [← String.toList_inj]
      simp [Statement.text]
    rw [ht, hsign.logicalLines_eq, IsLine.logicalLines_eq h, hsign.logicalLines_eq]
    rfl
  | assign name assignment value => exact h.2.logicalLines_eq rest
  | assignWords name ws =>
    have hn : '\n' ∉ name.toList := fun hm => absurd (h.1.isWord.not_isSpace _ hm) (by decide)
    exact logicalLines_assignWords hn (fun w hw => ⟨(h.2 w hw).isWord, (h.2 w hw).2⟩) rest
  | assignFor target name value => exact h.2.logicalLines_eq rest
  | group target fixed members => exact h.2.logicalLines_eq rest
  | rule target prerequisites recipe => exact logicalLines_recipe h.2.1 h.2.2 rest
  | object target source recipe => exact logicalLines_recipe h.2.1 h.2.2 rest

end Lines

section Targets

variable {line target : String} {lines rest : List String}

theorem IsWord.isRecipeLine_eq (h : IsWord target) (text : String) :
    isRecipeLine (target ++ text) = false := by
  obtain ⟨c, front, hc⟩ := List.exists_cons_of_ne_nil h.toList_ne_nil
  have hs : isSpace c = false := h.not_isSpace c (by simp [hc])
  have ht : c ≠ '\t' := by
    rintro rfl
    cases hs
  simp [isRecipeLine, hc, ht]

theorem targetsOf_rule (h : IsTarget target) (text : String) :
    targetsOf (target ++ ":" ++ text) = [target] := by
  have hc : Text.cut? ':' (target ++ ":" ++ text).toList = some (target.toList, text.toList) := by
    simpa using Text.cut?_append h.colon_notMem text.toList
  simp only [targetsOf, Text.splitOnce?, hc, Option.map_some, Option.getD_some,
    String.ofList_toList, h.isWord.words_eq]

theorem targetsOf_object (h : IsTarget target) (text : String) :
    targetsOf (target ++ " : " ++ text) = [target] := by
  have hn : ':' ∉ (target ++ " ").toList := by simpa using h.colon_notMem
  have hc : Text.cut? ':' (target ++ " : " ++ text).toList =
      some ((target ++ " ").toList, ' ' :: text.toList) := by
    simpa using Text.cut?_append hn (' ' :: text.toList)
  have hw : words (target ++ " ") = [target] := by
    have he : words "" = [] := by decide
    rw [← String.append_empty (s := target ++ " "), words_append_space, h.isWord.words_eq, he]
    rfl
  simp only [targetsOf, Text.splitOnce?, hc, Option.map_some, Option.getD_some,
    String.ofList_toList, hw]

def StartsAnew (lines : List String) : Prop := lines.head?.any isRecipeLine = false

theorem targetsOfLines_append (h : ∀ line ∈ lines, isRecipeLine line = false)
    (hr : StartsAnew rest) : targetsOfLines (lines ++ rest) = targetsOfLines rest := by
  induction lines with
  | nil => rfl
  | cons line lines ih =>
    have hl := fun l hl => h l (List.mem_cons_of_mem line hl)
    have hnext : (lines ++ rest).head?.any isRecipeLine = false := by
      cases lines with
      | nil => exact hr
      | cons next lines => exact hl next List.mem_cons_self
    rw [List.cons_append, targetsOfLines, hnext, ih hl, Bool.and_false]
    rfl

theorem targetsOfLines_recipe (recipe : List String) (hr : StartsAnew rest) :
    targetsOfLines (line :: recipe.map ("\t" ++ ·) ++ rest) =
      (if isRecipeLine line = true ∨ recipe = [] then [] else targetsOf line) ++
        targetsOfLines rest := by
  have htab : ∀ text, isRecipeLine ("\t" ++ text) = true := by
    intro text
    simp [isRecipeLine]
  have hrest : targetsOfLines (recipe.map ("\t" ++ ·) ++ rest) = targetsOfLines rest := by
    induction recipe with
    | nil => rfl
    | cons text recipe ih =>
      rw [List.map_cons, List.cons_append, targetsOfLines, htab, ih]
      rfl
  rw [List.cons_append, targetsOfLines, hrest]
  cases recipe with
  | nil =>
    rw [List.map_nil, List.nil_append, hr, Bool.and_false, if_pos (Or.inr rfl)]
    rfl
  | cons text recipe => cases isRecipeLine line <;> simp [htab]

theorem Statement.Tidy.targetsOfLines_eq {s : Statement} (h : s.Tidy) (hr : StartsAnew rest) :
    targetsOfLines (s.lines ++ rest) = s.recipeTarget?.toList ++ targetsOfLines rest ∧
      StartsAnew (s.lines ++ rest) := by
  have hsingle : ∀ line, isRecipeLine line = false →
      targetsOfLines ([line] ++ rest) = targetsOfLines rest ∧ StartsAnew ([line] ++ rest) := by
    intro line hl
    exact ⟨targetsOfLines_append (by simpa using hl) hr, hl⟩
  have hrecipe : ∀ (target line : String) (recipe : List String), isRecipeLine line = false →
      targetsOf line = [target] →
      targetsOfLines (line :: recipe.map ("\t" ++ ·) ++ rest) =
        (if recipe = [] then none else some target).toList ++ targetsOfLines rest ∧
      StartsAnew (line :: recipe.map ("\t" ++ ·) ++ rest) := by
    intro target line recipe hl ht
    refine ⟨?_, hl⟩
    rw [targetsOfLines_recipe recipe hr, hl, ht]
    by_cases hn : recipe = [] <;> simp [hn]
  cases s with
  | blank => exact hsingle "" rfl
  | comment text => exact hsingle _ (by simp [Statement.text, isRecipeLine])
  | heading text =>
    have hsign : isRecipeLine "#" = false := by decide
    have htext : isRecipeLine ("# " ++ text) = false := by simp [isRecipeLine]
    refine ⟨targetsOfLines_append ?_ hr, hsign⟩
    simp [Statement.lines, hsign, htext]
  | assign name assignment value =>
    refine hsingle _ ?_
    simp only [Statement.text, String.append_assoc]
    exact h.1.isWord.isRecipeLine_eq _
  | assignWords name ws =>
    refine hsingle _ ?_
    rw [String.append_assoc]
    exact h.1.isWord.isRecipeLine_eq _
  | assignFor target name value =>
    refine hsingle _ ?_
    simp only [Statement.text, String.append_assoc]
    exact h.1.isWord.isRecipeLine_eq _
  | group target fixed members =>
    refine hsingle _ ?_
    simp only [Statement.text, String.append_assoc]
    exact h.1.isWord.isRecipeLine_eq _
  | rule target prerequisites recipe =>
    refine hrecipe target _ recipe ?_ (targetsOf_rule h.1 _)
    rw [String.append_assoc]
    exact h.1.isWord.isRecipeLine_eq _
  | object target source recipe =>
    refine hrecipe target _ recipe ?_ (targetsOf_object h.1 _)
    rw [String.append_assoc]
    exact h.1.isWord.isRecipeLine_eq _

theorem targetsOfLines_render {l : List Statement} (h : ∀ s ∈ l, s.Tidy) :
    targetsOfLines (logicalLines (render l)) = l.filterMap Statement.recipeTarget? ∧
      StartsAnew (logicalLines (render l)) := by
  induction l with
  | nil => exact ⟨by decide, by unfold StartsAnew; decide⟩
  | cons s l ih =>
    obtain ⟨hl, hr⟩ := ih fun t ht => h t (List.mem_cons_of_mem s ht)
    have hs := h s List.mem_cons_self
    rw [render_cons, hs.logicalLines_eq]
    obtain ⟨htargets, hstart⟩ := hs.targetsOfLines_eq hr
    refine ⟨?_, hstart⟩
    rw [htargets, hl, List.filterMap_cons]
    cases s.recipeTarget? <;> rfl

/-- The text of tidy statements gives a recipe to the targets of those that hold one. -/
theorem recipeTargets_render {l : List Statement} (h : ∀ s ∈ l, s.Tidy) :
    recipeTargets (render l) = l.filterMap Statement.recipeTarget? :=
  (targetsOfLines_render h).1

end Targets

end StudioMake.Makefile

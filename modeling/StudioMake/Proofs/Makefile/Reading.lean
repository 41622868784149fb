import StudioMake.Proofs.Makefile.References
import StudioMake.Proofs.Text.Pieces

/-!
# Reading assignments

What GNU make makes of lines that assign variables by `:=` and `+=`. Lines that end in a backslash
are joined first. A text with any other kind of line has no reading here.

`readFrom_assignWords` and `readFrom_append` say what the two kinds of statement do to the
variables, whatever statements follow.
-/

set_option autoImplicit false

namespace StudioMake.Makefile

section Lines

/-- Joins a line that ends in a backslash with the next one; the blanks around become one. -/
def joinLines : List (List Char) → List (List Char)
  | [] => []
  | line :: rest =>
    match line.getLast?, joinLines rest with
    | some '\\', next :: more =>
      (Text.dropEndWhile isSpace line.dropLast ++ ' ' :: next.dropWhile isSpace) :: more
    | _, lines => line :: lines

def logicalLines (text : String) : List String :=
  (joinLines (Text.pieces (· == '\n') text.toList)).map String.ofList

def isUnquoted (c : Char) : Bool := c ∉ ['#', '\\', '\n']

/-- Reads a line that assigns a variable: a name, one blank, and `:=` or `+=`. Only a variable that
is there can be added to. -/
def readAssignment (v : OrderedMap String) (line : String) : Option (OrderedMap String) := do
  let (name, assignment) ← Text.splitOnce? ' ' line
  if IsVariable name then
    match Text.dropLead? ":=" assignment, Text.dropLead? "+=" assignment with
    | some text, _ => (expand v (trimStart text)).map (v.insert name)
    | none, some text => do
      let old ← v.find? name
      let value ← expand v (trimStart text)
      return v.insert name (appendText old value)
    | none, none => none
  else none

def readLine (v : OrderedMap String) (line : String) : Option (OrderedMap String) :=
  if Consists isSpace line then some v
  else if Consists isUnquoted line then readAssignment v line
  else none

def readFrom (v : OrderedMap String) (text : String) : Option (OrderedMap String) :=
  (logicalLines text).foldlM readLine v

def readVariables (text : String) : Option (OrderedMap String) := readFrom ∅ text

end Lines

section Joining

structure Solid (line : List Char) : Prop where
  newline_notMem : '\n' ∉ line
  last : ∃ c, line.getLast? = some c ∧ isSpace c = false ∧ c ≠ '\\'

theorem Solid.append {a b : List Char} (ha : '\n' ∉ a) (hb : Solid b) : Solid (a ++ b) := by
  obtain ⟨c, hc, hs⟩ := hb.last
  refine ⟨by simp [ha, hb.newline_notMem], c, ?_, hs⟩
  rw [List.getLast?_append, hc]
  rfl

theorem joinLines_cons {line : List Char} (h : line.getLast? ≠ some '\\')
    (rest : List (List Char)) : joinLines (line :: rest) = line :: joinLines rest := by
  rw [joinLines]
  split
  · next hb _ => exact absurd hb h
  · rfl

theorem Solid.dropEndWhile_blank {line : List Char} (h : Solid line) :
    Text.dropEndWhile isSpace (line ++ [' ']) = line := by
  obtain ⟨c, hc, hs, -⟩ := h.last
  obtain ⟨front, rfl⟩ := List.getLast?_eq_some_iff.1 hc
  rw [Text.dropEndWhile_concat, if_pos (by decide), Text.dropEndWhile_concat, if_neg (by simp [hs])]

theorem joinLines_backslash {line : List Char} (h : Solid line) {rest : List (List Char)}
    {next : List Char} {more : List (List Char)} (hr : joinLines rest = next :: more) :
    joinLines ((line ++ [' ', '\\']) :: rest) =
      (line ++ ' ' :: next.dropWhile isSpace) :: more := by
  have hb : (line ++ [' ', '\\']).getLast? = some '\\' := by simp
  have hl : (line ++ [' ', '\\']).dropLast = line ++ [' '] := by simp
  simp only [joinLines, hb, hr, hl, h.dropEndWhile_blank]

theorem solid_of_isWord {w : String} (h : IsWord w) (hb : '\\' ∉ w.toList) : Solid w.toList := by
  have hn := h.toList_ne_nil
  refine ⟨fun hm => absurd (h.not_isSpace _ hm) (by decide), w.toList.getLast hn,
    List.getLast?_eq_some_getLast hn, h.not_isSpace _ (List.getLast_mem hn), fun he => ?_⟩
  exact hb (he ▸ List.getLast_mem hn)

theorem pieces_line {line : List Char} (h : '\n' ∉ line) (rest : List Char) :
    Text.pieces (· == '\n') (line ++ '\n' :: rest) = line :: Text.pieces (· == '\n') rest := by
  rw [Text.pieces_append (by decide), Text.pieces_of_notMem h, List.singleton_append]

theorem joinLines_words {head : List Char} {ws : List String} (hh : Solid head)
    (hw : ∀ w ∈ ws, IsWord w ∧ '\\' ∉ w.toList) (rest : List Char) :
    joinLines (Text.pieces (· == '\n')
        (head ++ ws.flatMap (fun w => ' ' :: '\\' :: '\n' :: ' ' :: w.toList) ++ '\n' :: rest)) =
      (head ++ ws.flatMap fun w => ' ' :: w.toList) ::
        joinLines (Text.pieces (· == '\n') rest) := by
  induction ws generalizing head with
  | nil =>
    obtain ⟨c, hc, -, hb⟩ := hh.last
    simp only [List.flatMap_nil, List.append_nil]
    rw [pieces_line hh.newline_notMem, joinLines_cons (by simpa [hc] using hb)]
  | cons w ws ih =>
    obtain ⟨hword, hb⟩ := hw w List.mem_cons_self
    have hs : Solid ([' '] ++ w.toList) := Solid.append (by decide) (solid_of_isWord hword hb)
    have hr := ih hs fun x hx => hw x (List.mem_cons_of_mem w hx)
    have hn : '\n' ∉ head ++ [' ', '\\'] := by simp [hh.newline_notMem]
    have ht : head ++ (w :: ws).flatMap (fun w => ' ' :: '\\' :: '\n' :: ' ' :: w.toList) ++
        '\n' :: rest = head ++ [' ', '\\'] ++ '\n' :: ([' '] ++ w.toList ++
          ws.flatMap (fun w => ' ' :: '\\' :: '\n' :: ' ' :: w.toList) ++ '\n' :: rest) := by
      simp
    rw [ht, pieces_line hn, joinLines_backslash hh hr]
    simp [hword.dropWhile_append, isSpace]

end Joining

theorem logicalLines_line {line : String} (h : Solid line.toList) (rest : String) :
    logicalLines (line ++ "\n" ++ rest) = line :: logicalLines rest := by
  obtain ⟨c, hc, -, hb⟩ := h.last
  have hl : line.toList.getLast? ≠ some '\\' := by simpa [hc] using hb
  simp [logicalLines, pieces_line h.newline_notMem, joinLines_cons hl]

theorem logicalLines_assignWords {name : String} {ws : List String} (hn : '\n' ∉ name.toList)
    (hw : ∀ w ∈ ws, IsWord w ∧ '\\' ∉ w.toList) (rest : String) :
    logicalLines ((Statement.assignWords name ws).text ++ "\n" ++ rest) =
      (name ++ " :=" ++ Statement.words ws) :: logicalLines rest := by
  have hh : Solid (name.toList ++ [' ', ':', '=']) :=
    Solid.append hn ⟨by decide, '=', by decide, by decide, by decide⟩
  have ht : ((Statement.assignWords name ws).text ++ "\n" ++ rest).toList =
      name.toList ++ [' ', ':', '='] ++
        ws.flatMap (fun w => ' ' :: '\\' :: '\n' :: ' ' :: w.toList) ++ '\n' :: rest.toList := by
    simp [Statement.text, List.flatMap_map]
  have hl : String.ofList (name.toList ++ [' ', ':', '='] ++ ws.flatMap fun w => ' ' :: w.toList) =
      name ++ " :=" ++ Statement.words ws := by
    simp [← String.toList_inj, Statement.words, List.flatMap_map]
  rw [logicalLines, ht, joinLines_words hh hw, List.map_cons, hl]
  rfl

section Assigning

theorem Consists.unquoted {p : Char → Bool} {s : String} (h : Consists p s)
    (hp : ['#', '\\', '\n'].all (fun c => !p c) = true) : Consists isUnquoted s := by
  refine h.mono fun c hc => ?_
  rw [isUnquoted, decide_eq_true_eq]
  intro hm
  have hn := List.all_eq_true.1 hp c hm
  rw [hc] at hn
  cases hn

variable {v : OrderedMap String} {name : String}

theorem IsVariable.isWord (h : IsVariable name) : IsWord name :=
  ⟨h.ne_empty, fun c hc => isSpace_of_isTargetChar (h.consists c hc)⟩

theorem readLine_eq (h : IsVariable name) {assignment : String}
    (ha : Consists isUnquoted assignment) :
    readLine v (name ++ " " ++ assignment) = readAssignment v (name ++ " " ++ assignment) := by
  have hblank : ¬ Consists isSpace (name ++ " " ++ assignment) := by
    obtain ⟨c, hc⟩ := List.exists_mem_of_ne_nil _ h.isWord.toList_ne_nil
    intro hs
    exact absurd (hs c (by simp [hc])) (by simp [h.isWord.not_isSpace c hc])
  have hname : Consists isUnquoted name := h.consists.unquoted (by decide)
  have hline : Consists isUnquoted (name ++ " " ++ assignment) :=
    (hname.append (by decide)).append ha
  rw [readLine, if_neg hblank, if_pos hline]

theorem splitOnce?_name (h : IsVariable name) (assignment : String) :
    Text.splitOnce? ' ' (name ++ " " ++ assignment) = some (name, assignment) := by
  have hn : ' ' ∉ name.toList := fun hm => absurd (h.isWord.not_isSpace ' ' hm) (by decide)
  simp [Text.splitOnce?, Text.cut?_append hn]

theorem readLine_define (h : IsVariable name) {text value : String} (ht : Consists isUnquoted text)
    (hv : expand v (trimStart text) = some value) :
    readLine v (name ++ " :=" ++ text) = some (v.insert name value) := by
  have ha : Consists isUnquoted (":=" ++ text) := Consists.append (by decide) ht
  rw [show name ++ " :=" ++ text = name ++ " " ++ (":=" ++ text) by simp [← String.toList_inj],
    readLine_eq h ha, readAssignment, splitOnce?_name h]
  simp [h, Text.dropLead?_append, hv]

theorem readLine_append (h : IsVariable name) {text value old : String}
    (ht : Consists isUnquoted text) (ho : v.find? name = some old)
    (hv : expand v (trimStart text) = some value) :
    readLine v (name ++ " +=" ++ text) = some (v.insert name (appendText old value)) := by
  have ha : Consists isUnquoted ("+=" ++ text) := Consists.append (by decide) ht
  have hn : Text.dropLead? ":=" ("+=" ++ text) = none := by simp [Text.dropLead?]
  rw [show name ++ " +=" ++ text = name ++ " " ++ ("+=" ++ text) by simp [← String.toList_inj],
    readLine_eq h ha, readAssignment, splitOnce?_name h]
  simp [h, hn, Text.dropLead?_append, ho, hv]

end Assigning

section Statements

variable {v : OrderedMap String} {name : String}

theorem mem_toList_unwords {c : Char} {l : List String} (h : c ∈ (unwords l).toList) :
    c = ' ' ∨ ∃ w ∈ l, c ∈ w.toList := by
  induction l with
  | nil => cases h
  | cons a l ih =>
    cases l with
    | nil => exact .inr ⟨a, List.mem_cons_self, h⟩
    | cons b l =>
      rw [unwords, String.intercalate_cons_cons, String.toList_append, String.toList_append,
        List.mem_append, List.mem_append] at h
      rcases h with (h | h) | h
      · exact .inr ⟨a, List.mem_cons_self, h⟩
      · exact .inl (List.mem_singleton.1 h)
      · rcases ih h with hc | ⟨w, hw, hc⟩
        · exact .inl hc
        · exact .inr ⟨w, List.mem_cons_of_mem a hw, hc⟩

theorem Statement.words_cons (a : String) (l : List String) :
    Statement.words (a :: l) = " " ++ unwords (a :: l) := by
  induction l generalizing a with
  | nil => simp [Statement.words, unwords]
  | cons b l ih =>
    have hb : Statement.words (a :: b :: l) = " " ++ a ++ Statement.words (b :: l) := by
      simp [Statement.words]
    rw [hb, ih, unwords, unwords, String.intercalate_cons_cons]
    simp [String.append_assoc]

theorem trimStart_blank (s : String) : trimStart (" " ++ s) = trimStart s := by
  simp [trimStart, isSpace]

theorem trimStart_words {l : List String} (h : ∀ w ∈ l, IsWord w) :
    trimStart (Statement.words l) = unwords l := by
  cases l with
  | nil => rfl
  | cons a l =>
    have ha := h a List.mem_cons_self
    have hu : ∃ tail, unwords (a :: l) = a ++ tail := by
      cases l with
      | nil => exact ⟨"", String.append_empty.symm⟩
      | cons b l =>
        exact ⟨" " ++ unwords (b :: l), by
          rw [unwords, String.intercalate_cons_cons, String.append_assoc]; rfl⟩
    obtain ⟨tail, hu⟩ := hu
    rw [Statement.words_cons, trimStart_blank, hu, trimStart, String.toList_append,
      ha.dropWhile_append, ← String.toList_append, String.ofList_toList]

theorem readFrom_assignWords (h : IsVariable name) {ws : List String}
    (hw : ∀ w ∈ ws, w ≠ "" ∧ Consists isPlain w) (rest : List Statement) :
    readFrom v (render (.assignWords name ws :: rest)) =
      readFrom (v.insert name (unwords ws)) (render rest) := by
  have hword : ∀ w ∈ ws, IsWord w ∧ '\\' ∉ w.toList := fun w hm =>
    ⟨(hw w hm).2.literal.isWord (hw w hm).1, (hw w hm).2.notMem (by decide)⟩
  have hn : '\n' ∉ name.toList := fun hm => absurd (h.isWord.not_isSpace _ hm) (by decide)
  have hu : Consists isUnquoted (Statement.words ws) := by
    cases ws with
    | nil => decide
    | cons a l =>
      rw [Statement.words_cons]
      refine Consists.append (by decide) fun c hc => ?_
      rcases mem_toList_unwords hc with rfl | ⟨w, hm, hc⟩
      · decide
      · exact (hw w hm).2.unquoted (by decide) c hc
  have he : expand v (trimStart (Statement.words ws)) = some (unwords ws) := by
    rw [trimStart_words fun w hm => (hword w hm).1]
    refine expand_of_no_dollar fun hm => ?_
    rcases mem_toList_unwords hm with hc | ⟨w, hl, hc⟩
    · cases hc
    · exact (hw w hl).2.notMem (by decide) hc
  rw [readFrom, render_cons, logicalLines_assignWords hn hword, List.foldlM_cons,
    readLine_define h hu he]
  rfl

theorem readFrom_append (h : IsVariable name) {text value old : String}
    (hs : Solid text.toList) (ht : Consists isUnquoted text) (ho : v.find? name = some old)
    (hv : expand v (trimStart text) = some value) (rest : List Statement) :
    readFrom v (render (.assign name .append text :: rest)) =
      readFrom (v.insert name (appendText old value)) (render rest) := by
  have hn : '\n' ∉ name.toList := fun hm => absurd (h.isWord.not_isSpace _ hm) (by decide)
  have hline : (Statement.assign name .append text).text = name ++ " +=" ++ (" " ++ text) := by
    simp [Statement.text, Assignment.symbol, ← String.toList_inj]
  have hsolid : Solid (name ++ " +=" ++ (" " ++ text)).toList := by
    rw [← String.append_assoc, String.toList_append]
    exact Solid.append (by simpa using hn) hs
  have hu : Consists isUnquoted (" " ++ text) := Consists.append (by decide) ht
  rw [readFrom, render_cons, hline, logicalLines_line hsolid, List.foldlM_cons,
    readLine_append h hu ho ((trimStart_blank text).symm ▸ hv)]
  rfl

end Statements

end StudioMake.Makefile

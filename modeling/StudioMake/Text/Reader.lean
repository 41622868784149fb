import StudioMake.Text.Split

/-!
# Readers

A reader takes something from the start of a text and leaves a shorter rest, or fails. In a choice
the first reader that succeeds counts. A repetition goes on while its step succeeds and ends before
a step that fails, however much of it has been read. `Reads` is the view of a reader: every
combinator has one lemma for it.
-/

set_option autoImplicit false

namespace StudioMake.Text

theorem length_dropWhile_le (p : Char → Bool) (l : List Char) :
    (l.dropWhile p).length ≤ l.length := by
  induction l with
  | nil => simp
  | cons c rest ih => rw [List.dropWhile_cons]; split <;> simp; omega

def skipBlanks (l : List Char) : List Char := l.dropWhile isBlank

theorem length_skipBlanks_le (l : List Char) : (skipBlanks l).length ≤ l.length :=
  length_dropWhile_le isBlank l

theorem skipBlanks_append {blanks : List Char} (h : ∀ c ∈ blanks, isBlank c = true)
    (l : List Char) : skipBlanks (blanks ++ l) = skipBlanks l := by
  induction blanks with
  | nil => rfl
  | cons c rest ih =>
    rw [List.cons_append, skipBlanks, List.dropWhile_cons_of_pos (h c (by simp))]
    exact ih fun d hd => h d (List.mem_cons_of_mem c hd)

theorem eq_append_skipBlanks (l : List Char) :
    ∃ blanks, (∀ c ∈ blanks, isBlank c = true) ∧ l = blanks ++ skipBlanks l := by
  induction l with
  | nil => exact ⟨[], by simp, rfl⟩
  | cons c rest ih =>
    by_cases hc : isBlank c = true
    · obtain ⟨blanks, hb, he⟩ := ih
      refine ⟨c :: blanks, ?_, ?_⟩
      · intro d hd
        rcases List.mem_cons.1 hd with rfl | hd
        · exact hc
        · exact hb d hd
      · rw [skipBlanks, List.dropWhile_cons_of_pos hc, List.cons_append]
        exact congrArg (c :: ·) he
    · exact ⟨[], by simp, by rw [skipBlanks, List.dropWhile_cons_of_neg hc]; rfl⟩

theorem skipBlanks_cons_of_not {c : Char} (h : isBlank c = false) (l : List Char) :
    skipBlanks (c :: l) = c :: l := by
  simp [skipBlanks, h]

theorem skipBlanks_skipBlanks (l : List Char) : skipBlanks (skipBlanks l) = skipBlanks l := by
  obtain ⟨blanks, hb, he⟩ := eq_append_skipBlanks l
  have hs := skipBlanks_append hb (skipBlanks l)
  rw [← he] at hs
  exact hs.symm

abbrev Reading (α : Type) (l : List Char) :=
  Option (α × { rest : List Char // rest.length < l.length })

def Reader (α : Type) := (l : List Char) → Reading α l

namespace Reader

variable {α β γ : Type}

/-- The reader takes `a` from the start of `l` and leaves `rest`. -/
def Reads (r : Reader α) (l : List Char) (a : α) (rest : List Char) : Prop :=
  ∃ h, r l = some (a, ⟨rest, h⟩)

theorem Reads.length_lt {r : Reader α} {l rest : List Char} {a : α} (h : r.Reads l a rest) :
    rest.length < l.length := h.1

theorem eq_none_iff {r : Reader α} {l : List Char} :
    r l = none ↔ ∀ a rest, ¬ r.Reads l a rest := by
  constructor
  · rintro h a rest ⟨_, hr⟩
    rw [h] at hr
    cases hr
  · intro h
    cases hr : r l with
    | none => rfl
    | some read => exact absurd ⟨read.2.property, hr⟩ (h read.1 read.2.val)

def just (c : Char) : Reader Unit
  | [] => none
  | d :: rest => if d = c then some ((), ⟨rest, by simp⟩) else none

theorem reads_just {c : Char} {u : Unit} {l rest : List Char} :
    (just c).Reads l u rest ↔ l = c :: rest := by
  cases l with
  | nil => simp [Reads, just]
  | cons d l =>
    by_cases hd : d = c
    · simp only [Reads, just, hd, if_true, Option.some.injEq, Prod.mk.injEq, true_and,
        Subtype.mk.injEq, List.cons.injEq, List.length_cons]
      constructor
      · intro h
        rcases h with ⟨_, h⟩
        exact h
      · rintro rfl
        exact ⟨by omega, rfl⟩
    · simp [Reads, just, hd]

def upTo (sep : Char) : Reader (List Char) := fun l =>
  match h : cut? sep l with
  | none => none
  | some (a, rest) => some (a, ⟨rest, length_of_cut? h⟩)

theorem reads_upTo {sep : Char} {l a rest : List Char} :
    (upTo sep).Reads l a rest ↔ l = a ++ sep :: rest ∧ sep ∉ a := by
  unfold Reads upTo
  constructor
  · intro h
    rcases h with ⟨_, h⟩
    split at h
    · cases h
    · next hc =>
      cases h
      exact eq_of_cut? hc
  · intro h
    rcases h with ⟨rfl, hn⟩
    have hc := cut?_append hn rest
    refine ⟨by simp; omega, ?_⟩
    split
    · next h => rw [hc] at h; cases h
    · next h => rw [hc] at h; cases h; rfl

def run (p : Char → Bool) : Reader (List Char)
  | [] => none
  | c :: rest =>
    if p c then
      some (c :: rest.takeWhile p, ⟨rest.dropWhile p, by
        have := length_dropWhile_le p rest
        simp only [List.length_cons]
        omega⟩)
    else none

theorem reads_run {p : Char → Bool} {l a rest : List Char} :
    (run p).Reads l a rest ↔ a ≠ [] ∧ a = l.takeWhile p ∧ rest = l.dropWhile p := by
  cases l with
  | nil =>
    simp only [Reads, run, List.takeWhile_nil, reduceCtorEq, exists_false, false_iff]
    intro h
    rcases h with ⟨hn, ha, -⟩
    exact hn ha
  | cons c l =>
    have hl := length_dropWhile_le p l
    by_cases hc : p c = true
    · simp only [Reads, run, hc, if_true, List.takeWhile_cons_of_pos, List.dropWhile_cons_of_pos,
        Option.some.injEq, Prod.mk.injEq, Subtype.mk.injEq, List.length_cons]
      constructor
      · intro h
        rcases h with ⟨_, rfl, rfl⟩
        simp
      · intro h
        rcases h with ⟨_, rfl, rfl⟩
        exact ⟨by omega, rfl, rfl⟩
    · rw [List.takeWhile_cons_of_neg hc]
      simp only [Reads, run, hc, if_false, Bool.false_eq_true, reduceCtorEq, exists_false,
        false_iff]
      intro h
      rcases h with ⟨hn, ha, -⟩
      exact hn ha

def map (f : α → β) (r : Reader α) : Reader β := fun l => (r l).map fun read => (f read.1, read.2)

theorem reads_map {f : α → β} {r : Reader α} {l rest : List Char} {b : β} :
    (r.map f).Reads l b rest ↔ ∃ a, r.Reads l a rest ∧ b = f a := by
  unfold Reads map
  constructor
  · intro h
    rcases h with ⟨h, hr⟩
    obtain ⟨⟨a, m⟩, ha, he⟩ := Option.map_eq_some_iff.1 hr
    cases he
    exact ⟨a, ⟨h, ha⟩, rfl⟩
  · intro h
    rcases h with ⟨a, ⟨h, ha⟩, rfl⟩
    exact ⟨h, by rw [ha]; rfl⟩

def filter (p : α → Bool) (r : Reader α) : Reader α := fun l => (r l).filter fun read => p read.1

theorem reads_filter {p : α → Bool} {r : Reader α} {l rest : List Char} {a : α} :
    (r.filter p).Reads l a rest ↔ r.Reads l a rest ∧ p a = true := by
  unfold Reads filter
  simp only [Option.filter_eq_some_iff, exists_and_right]

def andThen (r : Reader α) (s : Reader β) : Reader (α × β) := fun l =>
  match r l with
  | none => none
  | some (a, between) =>
    (s between.val).map fun read =>
      ((a, read.1), ⟨read.2.val, Nat.lt_trans read.2.property between.property⟩)

theorem reads_andThen {r : Reader α} {s : Reader β} {l rest : List Char} {a : α} {b : β} :
    (r.andThen s).Reads l (a, b) rest ↔ ∃ m, r.Reads l a m ∧ s.Reads m b rest := by
  unfold Reads andThen
  constructor
  · intro h
    rcases h with ⟨_, h⟩
    split at h
    · cases h
    · next a' m hr =>
      obtain ⟨⟨b', k⟩, hs, he⟩ := Option.map_eq_some_iff.1 h
      cases he
      exact ⟨m.val, ⟨m.property, hr⟩, ⟨k.property, hs⟩⟩
  · intro h
    rcases h with ⟨m, ⟨hm, hr⟩, ⟨hk, hs⟩⟩
    exact ⟨Nat.lt_trans hk hm, by simp [hr, hs]⟩

def left (r : Reader α) (s : Reader β) : Reader α := (r.andThen s).map Prod.fst

theorem reads_left {r : Reader α} {s : Reader β} {l rest : List Char} {a : α} :
    (r.left s).Reads l a rest ↔ ∃ b m, r.Reads l a m ∧ s.Reads m b rest := by
  simp only [left, reads_map, Prod.exists, reads_andThen]
  constructor
  · intro h
    rcases h with ⟨a, b, ⟨m, hr, hs⟩, rfl⟩
    exact ⟨b, m, hr, hs⟩
  · intro h
    rcases h with ⟨b, m, hr, hs⟩
    exact ⟨a, b, ⟨m, hr, hs⟩, rfl⟩

def right (r : Reader α) (s : Reader β) : Reader β := (r.andThen s).map Prod.snd

theorem reads_right {r : Reader α} {s : Reader β} {l rest : List Char} {b : β} :
    (r.right s).Reads l b rest ↔ ∃ a m, r.Reads l a m ∧ s.Reads m b rest := by
  simp only [right, reads_map, Prod.exists, reads_andThen]
  constructor
  · intro h
    rcases h with ⟨a, b, ⟨m, hr, hs⟩, rfl⟩
    exact ⟨a, m, hr, hs⟩
  · intro h
    rcases h with ⟨a, m, hr, hs⟩
    exact ⟨a, b, ⟨m, hr, hs⟩, rfl⟩

def delimited (r : Reader α) (opening : Reader β) (closing : Reader γ) : Reader α :=
  (opening.right r).left closing

def orElse (r s : Reader α) : Reader α := fun l =>
  match r l with
  | some read => some read
  | none => s l

theorem reads_orElse {r s : Reader α} {l rest : List Char} {a : α} :
    (r.orElse s).Reads l a rest ↔ r.Reads l a rest ∨ r l = none ∧ s.Reads l a rest := by
  unfold Reads orElse
  cases r l <;> simp

def padded (r : Reader α) : Reader α := fun l =>
  (r (skipBlanks l)).map fun read =>
    (read.1, ⟨skipBlanks read.2.val, Nat.lt_of_le_of_lt (length_skipBlanks_le _)
      (Nat.lt_of_lt_of_le read.2.property (length_skipBlanks_le l))⟩)

theorem reads_padded {r : Reader α} {l rest : List Char} {a : α} :
    r.padded.Reads l a rest ↔ ∃ m, r.Reads (skipBlanks l) a m ∧ rest = skipBlanks m := by
  unfold Reads padded
  constructor
  · intro h
    rcases h with ⟨_, h⟩
    obtain ⟨⟨a', m⟩, hr, he⟩ := Option.map_eq_some_iff.1 h
    cases he
    exact ⟨m.val, ⟨m.property, hr⟩, rfl⟩
  · intro h
    rcases h with ⟨m, ⟨hm, hr⟩, rfl⟩
    have h₁ := length_skipBlanks_le m
    have h₂ := length_skipBlanks_le l
    exact ⟨by omega, by simp [hr]⟩

theorem padded_orElse (r s : Reader α) : (r.orElse s).padded = r.padded.orElse s.padded := by
  funext l
  cases hr : r (skipBlanks l) <;> simp [padded, orElse, hr]

def foldFrom (step : Reader β) (join : α → β → α) (a : α) (l : List Char) :
    α × { rest : List Char // rest.length ≤ l.length } :=
  match step l with
  | none => (a, ⟨l, Nat.le_refl _⟩)
  | some (b, rest) =>
    have := rest.property
    let (joined, rest') := foldFrom step join (join a b) rest.val
    (joined, ⟨rest'.val, Nat.le_trans rest'.property (Nat.le_of_lt rest.property)⟩)
termination_by l.length

def foldl (first : Reader α) (step : Reader β) (join : α → β → α) : Reader α := fun l =>
  (first l).map fun read =>
    let joined := foldFrom step join read.1 read.2.val
    (joined.1, ⟨joined.2.val, Nat.lt_of_le_of_lt joined.2.property read.2.property⟩)

/-- Some steps in a row lead from `a` and `l` to `b` and `rest`. -/
inductive Steps (step : Reader β) (join : α → β → α) (a : α) (l : List Char) :
    α → List Char → Prop
  | refl : Steps step join a l a l
  | snoc {b : α} {m rest : List Char} {x : β} :
      Steps step join a l b m → step.Reads m x rest → Steps step join a l (join b x) rest

theorem Steps.cons {step : Reader β} {join : α → β → α} {a b : α} {l m rest : List Char} {x : β}
    (hx : step.Reads l x m) (h : Steps step join (join a x) m b rest) :
    Steps step join a l b rest := by
  induction h with
  | refl => exact Steps.snoc .refl hx
  | snoc _ hy ih => exact ih.snoc hy

theorem Steps.length_le {step : Reader β} {join : α → β → α} {a b : α} {l rest : List Char}
    (h : Steps step join a l b rest) : rest.length ≤ l.length := by
  induction h with
  | refl => exact Nat.le_refl _
  | snoc _ hx ih =>
    have := hx.length_lt
    omega

theorem foldFrom_of_none {step : Reader β} {join : α → β → α} {a : α} {l : List Char}
    (h : step l = none) : foldFrom step join a l = (a, ⟨l, Nat.le_refl _⟩) := by
  unfold foldFrom
  split
  · rfl
  · next hs => rw [h] at hs; cases hs

theorem foldFrom_of_reads {step : Reader β} {join : α → β → α} {a : α} {l m : List Char} {x : β}
    (h : step.Reads l x m) :
    (foldFrom step join a l).1 = (foldFrom step join (join a x) m).1 ∧
      (foldFrom step join a l).2.val = (foldFrom step join (join a x) m).2.val := by
  obtain ⟨_, h⟩ := h
  conv => enter [1, 1]; unfold foldFrom
  conv => enter [2, 1]; unfold foldFrom
  split
  · next hs => rw [h] at hs; cases hs
  · next hs =>
    rw [h] at hs
    cases hs
    exact ⟨rfl, rfl⟩

theorem steps_foldFrom (step : Reader β) (join : α → β → α) (a : α) (l : List Char) :
    Steps step join a l (foldFrom step join a l).1 (foldFrom step join a l).2.val ∧
      step (foldFrom step join a l).2.val = none := by
  cases hs : step l with
  | none =>
    rw [foldFrom_of_none hs]
    exact ⟨.refl, hs⟩
  | some read =>
    have hr : step.Reads l read.1 read.2.val := ⟨read.2.property, hs⟩
    have := read.2.property
    have ih := steps_foldFrom step join (join a read.1) read.2.val
    rw [(foldFrom_of_reads hr).1, (foldFrom_of_reads hr).2]
    exact ⟨Steps.cons hr ih.1, ih.2⟩
termination_by l.length

theorem foldFrom_of_steps {step : Reader β} {join : α → β → α} {a b : α} {l rest : List Char}
    (h : Steps step join a l b rest) :
    (foldFrom step join a l).1 = (foldFrom step join b rest).1 ∧
      (foldFrom step join a l).2.val = (foldFrom step join b rest).2.val := by
  induction h with
  | refl => exact ⟨rfl, rfl⟩
  | @snoc c _ _ _ _ hx ih =>
    have hj := @foldFrom_of_reads _ _ step join c _ _ _ hx
    exact ⟨ih.1.trans hj.1, ih.2.trans hj.2⟩

theorem reads_foldl {first : Reader α} {step : Reader β} {join : α → β → α} {l rest : List Char}
    {b : α} :
    (first.foldl step join).Reads l b rest ↔
      ∃ a m, first.Reads l a m ∧ Steps step join a m b rest ∧ step rest = none := by
  constructor
  · intro h
    rcases h with ⟨_, h⟩
    obtain ⟨⟨a, m⟩, hf, he⟩ := Option.map_eq_some_iff.1 h
    cases he
    exact ⟨a, m.val, ⟨m.property, hf⟩, steps_foldFrom step join a m.val⟩
  · intro h
    rcases h with ⟨a, m, ⟨hm, hf⟩, hs, hn⟩
    have he := foldFrom_of_steps hs
    rw [foldFrom_of_none hn] at he
    have hl := (foldFrom step join a m).2.property
    rw [he.2] at hl
    refine ⟨Nat.lt_of_le_of_lt hl hm, ?_⟩
    simp only [foldl, hf, Option.map_some, Option.some.injEq, Prod.mk.injEq, Subtype.mk.injEq]
    exact he

def below (r : Reader α) (n : Nat) : Reader α := fun l => if l.length < n then r l else none

theorem reads_below {r : Reader α} {n : Nat} {l rest : List Char} {a : α} :
    (r.below n).Reads l a rest ↔ l.length < n ∧ r.Reads l a rest := by
  unfold Reads below
  split <;> simp [*]

/-- The reader that `body` makes of itself. What it reads of itself is shorter than the text. -/
def recursive (body : Reader α → Reader α) : Reader α
  | l => body (fun l' => if l'.length < l.length then recursive body l' else none) l
termination_by l => l.length

theorem reads_recursive {body : Reader α → Reader α} {l rest : List Char} {a : α} :
    (recursive body).Reads l a rest ↔ (body ((recursive body).below l.length)).Reads l a rest := by
  unfold Reads
  rw [recursive]
  rfl

end Reader

end StudioMake.Text

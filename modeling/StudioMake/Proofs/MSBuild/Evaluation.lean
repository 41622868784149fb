import StudioMake.MSBuild.Evaluation

/-!
# Steps and runs of an evaluation

An evaluation changes its state in three ways only: it sets a property, writes a setting of a tool,
or adds a sheet. What all three keep, a step keeps, and so does a whole run. The only failure is a
condition that does not parse.
-/

set_option autoImplicit false

namespace StudioMake.MSBuild

open Xml

variable {fs : FileSystem} {directory : String}

/-- Two outcomes agree: they are the same failure, or states related by `R`. -/
inductive Agree {α : Type} (R : α → α → Prop) : Except Failure α → Except Failure α → Prop
  | ok {a b : α} (h : R a b) : Agree R (.ok a) (.ok b)
  | error (x : Failure) : Agree R (.error x) (.error x)

namespace Agree

variable {α : Type} {R : α → α → Prop} {x y : Except Failure α}

theorem cases (h : Agree R x y) :
    (∃ a b, x = .ok a ∧ y = .ok b ∧ R a b) ∨ ∃ e, x = .error e ∧ y = .error e := by
  cases h with
  | ok h => exact .inl ⟨_, _, rfl, rfl, h⟩
  | error e => exact .inr ⟨e, rfl, rfl⟩

theorem keeps {P : α → Prop} {a : α} (h : Agree (fun a b => a = b ∧ P a) x y) (hx : x = .ok a) :
    P a := by
  subst hx
  cases h with
  | ok h => exact h.2

end Agree

namespace Evaluation

theorem holds_of_unconditional (s : Evaluation) {e : Element}
    (h : e.attribute? "Condition" = none) : s.holds fs directory e = .ok true := by
  rw [holds, h]
  rfl

theorem holds_congr {s t : Evaluation} (h : s.macros = t.macros) (e : Element) :
    s.holds fs directory e = t.holds fs directory e := by
  rw [holds, holds, h]

theorem failure_of_holds {s : Evaluation} {e : Element} {x : Failure}
    (h : s.holds fs directory e = .error x) :
    ∃ text, e.attribute? "Condition" = some text ∧ x = .malformedCondition text := by
  unfold holds Condition.holds at h
  cases ha : e.attribute? "Condition" with
  | none =>
    rw [ha] at h
    cases h
  | some text =>
    rw [ha] at h
    simp only at h
    split at h
    · cases h
    · split at h
      · cases h
      · cases h
        exact ⟨text, rfl, rfl⟩

section ForEach

variable {f : Evaluation → Element → Except Failure Evaluation} {s s' : Evaluation}
  {l : List Element}

theorem forEach_cons (e : Element) :
    forEach fs directory f s (e :: l) =
      match s.holds fs directory e with
      | .error x => .error x
      | .ok false => forEach fs directory f s l
      | .ok true =>
        match f s e with
        | .error x => .error x
        | .ok s' => forEach fs directory f s' l := by
  rw [forEach, List.foldlM_cons]
  cases hc : s.holds fs directory e with
  | error x => rfl
  | ok b =>
    cases b with
    | false => rfl
    | true =>
      change (f s e >>= fun s' => forEach fs directory f s' l) = _
      cases f s e <;> rfl

theorem forEach_agree {R : Evaluation → Evaluation → Prop}
    (hc : ∀ s t, ∀ e ∈ l, R s t → s.holds fs directory e = t.holds fs directory e)
    (hf : ∀ s t, ∀ e ∈ l, R s t → Agree R (f s e) (f t e)) {t : Evaluation} (h : R s t) :
    Agree R (forEach fs directory f s l) (forEach fs directory f t l) := by
  induction l generalizing s t with
  | nil => exact .ok h
  | cons e l ih =>
    have hr : ∀ {s t}, R s t → Agree R (forEach fs directory f s l) (forEach fs directory f t l) :=
      ih (fun s t e' he => hc s t e' (List.mem_cons_of_mem e he))
        (fun s t e' he => hf s t e' (List.mem_cons_of_mem e he))
    rw [forEach_cons, forEach_cons, ← hc s t e List.mem_cons_self h]
    cases s.holds fs directory e with
    | error x => exact .error x
    | ok holds =>
      cases holds with
      | false => exact hr h
      | true =>
        rcases (hf s t e List.mem_cons_self h).cases with ⟨s₁, t₁, hs, ht, h₁⟩ | ⟨x, hs, ht⟩
        · rw [hs, ht]
          exact hr h₁
        · rw [hs, ht]
          exact .error x

theorem forEach_fails {N : Element → Prop} {Q : Failure → Prop} {x : Failure}
    (hc : ∀ s e x, N e → holds fs directory s e = .error x → Q x)
    (hf : ∀ s e x, N e → f s e = .error x → Q x) (hl : ∀ e ∈ l, N e)
    (h : forEach fs directory f s l = .error x) : Q x := by
  induction l generalizing s with
  | nil => cases h
  | cons e l ih =>
    have he : N e := hl e List.mem_cons_self
    have hr : ∀ {s}, forEach fs directory f s l = .error x → Q x :=
      ih fun c hm => hl c (List.mem_cons_of_mem e hm)
    rw [forEach_cons] at h
    split at h
    · next hx =>
      cases h
      exact hc _ _ _ he hx
    · exact hr h
    · split at h
      · next hx =>
        cases h
        exact hf _ _ _ he hx
      · exact hr h

end ForEach

section Apply

variable {s s' : Evaluation} {e : Element}

section Agree

variable {N : Element → Prop} {R : Evaluation → Evaluation → Prop} {t : Evaluation}
  (hn : ∀ e, N e → ∀ c ∈ e.children, N c)
  (hc : ∀ s t e, N e → R s t → s.holds fs directory e = t.holds fs directory e)
  (hw : ∀ s t tool setting, R s t → R (s.setSetting tool setting) (t.setSetting tool setting))

include hn hc hw

theorem applyTool_agree (he : N e) (h : R s t) :
    Agree R (s.applyTool fs directory e) (t.applyTool fs directory e) := by
  refine forEach_agree (fun s t c hm => hc s t c (hn e he c hm)) ?_ h
  intro s₁ t₁ setting _ h₁
  exact .ok (hw _ _ _ _ h₁)

theorem apply_agree
    (hp : e.name = "PropertyGroup" → ∀ s t, ∀ property ∈ e.children, R s t →
      R (s.setProperty property.name property.text) (t.setProperty property.name property.text))
    (he : N e) (h : R s t) : Agree R (s.apply fs directory e) (t.apply fs directory e) := by
  have hce : ∀ s t, ∀ c ∈ e.children, R s t → s.holds fs directory c = t.holds fs directory c :=
    fun s t c hm => hc s t c (hn e he c hm)
  unfold apply
  split
  · next hg =>
    refine forEach_agree hce ?_ h
    intro s₁ t₁ property hm h₁
    exact .ok (hp hg s₁ t₁ property hm h₁)
  · split
    · refine forEach_agree hce ?_ h
      intro s₁ t₁ tool hm h₁
      exact applyTool_agree hn hc hw (hn e he tool hm) h₁
    · exact .ok h

end Agree

theorem applyTool_keeps {P : Evaluation → Prop}
    (hw : ∀ s tool setting, P s → P (s.setSetting tool setting))
    (h : s.applyTool fs directory e = .ok s') (hs : P s) : P s' := by
  refine Agree.keeps (applyTool_agree (N := fun _ => True) (R := fun s t => s = t ∧ P s)
    (fun _ _ _ _ => trivial) ?_ ?_ trivial ⟨rfl, hs⟩) h
  · rintro s _ e - ⟨rfl, -⟩
    rfl
  · rintro s _ tool setting ⟨rfl, h₁⟩
    exact ⟨rfl, hw _ _ _ h₁⟩

theorem apply_keeps {P : Evaluation → Prop}
    (hp : e.name = "PropertyGroup" → ∀ s, ∀ property ∈ e.children, P s →
      P (s.setProperty property.name property.text))
    (hw : ∀ s tool setting, P s → P (s.setSetting tool setting))
    (h : s.apply fs directory e = .ok s') (hs : P s) : P s' := by
  refine Agree.keeps (apply_agree (N := fun _ => True) (R := fun s t => s = t ∧ P s)
    (fun _ _ _ _ => trivial) ?_ ?_ ?_ trivial ⟨rfl, hs⟩) h
  · rintro s _ e - ⟨rfl, -⟩
    rfl
  · rintro s _ tool setting ⟨rfl, h₁⟩
    exact ⟨rfl, hw _ _ _ h₁⟩
  · rintro he s _ property hm ⟨rfl, h₁⟩
    exact ⟨rfl, hp he _ _ hm h₁⟩

section Failure

variable {N : Element → Prop} {Q : Failure → Prop} {x : Failure}
  (hn : ∀ e, N e → ∀ c ∈ e.children, N c)
  (hc : ∀ s e x, N e → holds fs directory s e = .error x → Q x)

include hn hc

theorem applyTool_fails (he : N e) (h : s.applyTool fs directory e = .error x) : Q x :=
  forEach_fails hc (fun _ _ _ _ hx => by cases hx) (hn e he) h

theorem apply_fails (he : N e) (h : s.apply fs directory e = .error x) : Q x := by
  unfold apply at h
  split at h
  · exact forEach_fails hc (fun _ _ _ _ hx => by cases hx) (hn e he) h
  · split at h
    · exact forEach_fails hc (fun _ _ _ ht hx => applyTool_fails hn hc ht hx) (hn e he) h
    · cases h

end Failure

end Apply

end Evaluation

theorem Pending.mem_ofElements {l : List Element} {q : Pending}
    (h : q ∈ Pending.ofElements directory l) : q.element ∈ l := by
  obtain ⟨e, he, rfl⟩ := List.mem_map.1 h
  exact he

/-- What two evaluations keep side by side: `R` relates their states as long as `N` holds of the
elements. -/
structure Lockstep (fs : FileSystem) (N : Element → Prop) (R : Evaluation → Evaluation → Prop) :
    Prop where
  child : ∀ e, N e → ∀ c ∈ e.children, N c
  document : ∀ path root, fs.documentAt? path = some root → N root
  holds : ∀ s t directory e, N e → R s t → s.holds fs directory e = t.holds fs directory e
  expand : ∀ s t text, R s t → s.macros.expand text = t.macros.expand text
  setProperty : ∀ s t e, N e → e.name = "PropertyGroup" → ∀ property ∈ e.children, R s t →
    R (s.setProperty property.name property.text) (t.setProperty property.name property.text)
  setSetting : ∀ s t tool setting, R s t → R (s.setSetting tool setting) (t.setSetting tool setting)
  addSheet : ∀ s t path, R s t → R (s.addSheet path) (t.addSheet path)

namespace Lockstep

variable {N : Element → Prop} {R : Evaluation → Evaluation → Prop}

structure Related (R : Evaluation → Evaluation → Prop) (s t : Progress) : Prop where
  evaluation : R s.evaluation t.evaluation
  visited : s.visited = t.visited

structure Pends (N : Element → Prop) (R : Evaluation → Evaluation → Prop)
    (a b : List Pending × Progress) : Prop where
  pending : a.1 = b.1
  elements : ∀ p ∈ a.1, N p.element
  progress : Related R a.2 b.2

theorem importPath (k : Lockstep fs N R) {s t : Progress} (h : Related R s t)
    (path : NormalPath) : Pends N R (s.importPath fs path) (t.importPath fs path) := by
  unfold Progress.importPath
  rw [← h.visited]
  split
  · exact ⟨rfl, by simp, h⟩
  · split
    · exact ⟨rfl, by simp, h.evaluation, rfl⟩
    · next root hd =>
      refine ⟨rfl, ?_, k.addSheet _ _ _ h.evaluation, rfl⟩
      intro p hp
      exact k.child root (k.document path root hd) _ (Pending.mem_ofElements hp)

theorem step (k : Lockstep fs N R) {s t : Progress} {p : Pending} (hp : N p.element)
    (h : Related R s t) : Agree (Pends N R) (s.step fs p) (t.step fs p) := by
  unfold Progress.step
  rw [← k.holds _ _ _ _ hp h.evaluation]
  split
  · exact .error _
  · exact .ok ⟨rfl, by simp, h⟩
  · unfold Progress.enter
    split
    · split
      · exact .ok ⟨rfl, by simp, h⟩
      · rw [← k.expand _ _ _ h.evaluation]
        exact .ok (k.importPath h _)
    · split
      · refine .ok ⟨rfl, ?_, h⟩
        intro q hq
        exact k.child _ hp _ (List.mem_filter.1 (Pending.mem_ofElements hq)).1
      · have ha := Evaluation.apply_agree k.child (fun s t e => k.holds s t p.directory e)
          k.setSetting (fun hg s t property hm => k.setProperty s t _ hp hg property hm) hp
          h.evaluation
        rcases ha.cases with ⟨s₁, t₁, hs, ht, h₁⟩ | ⟨x, hs, ht⟩
        · rw [hs, ht]
          exact .ok ⟨rfl, by simp, h₁, h.visited⟩
        · rw [hs, ht]
          exact .error x

end Lockstep

theorem evaluate_of_step {s s' : Progress} {p : Pending} {l : List Pending}
    (h : s.step fs p = .ok (l, s')) (rest : List Pending) :
    evaluate fs (p :: rest) s = evaluate fs (l ++ rest) s' := by
  rw [evaluate]
  split
  · next hs =>
    rw [h] at hs
    cases hs
  · next hs =>
    rw [h] at hs
    cases hs
    rfl

theorem evaluate_of_failure {s : Progress} {p : Pending} {x : Failure}
    (h : s.step fs p = .error x) (rest : List Pending) :
    evaluate fs (p :: rest) s = .error x := by
  rw [evaluate]
  split
  · next hs =>
    rw [h] at hs
    cases hs
    rfl
  · next hs =>
    rw [h] at hs
    cases hs

/-- Two runs keep what their steps keep. -/
theorem Lockstep.evaluate {N : Element → Prop} {R : Evaluation → Evaluation → Prop}
    (k : Lockstep fs N R) {pending : List Pending} {s t : Progress}
    (hp : ∀ p ∈ pending, N p.element) (h : Related R s t) :
    Agree (Related R) (evaluate fs pending s) (evaluate fs pending t) := by
  induction pending, s using evaluate.induct fs generalizing t with
  | case1 s =>
    rw [MSBuild.evaluate, MSBuild.evaluate]
    exact .ok h
  | case2 s p rest x hx =>
    rcases (k.step (hp p List.mem_cons_self) h).cases with ⟨a, b, hs, -, -⟩ | ⟨y, hs, ht⟩
    · rw [hx] at hs
      cases hs
    · rw [evaluate_of_failure hs, evaluate_of_failure ht]
      exact .error y
  | case3 s p rest l s₁ hstep ih =>
    rcases (k.step (hp p List.mem_cons_self) h).cases with ⟨a, ⟨m, t₁⟩, hs, ht, h₁⟩ | ⟨x, hs, -⟩
    · rw [hstep] at hs
      cases hs
      obtain rfl : l = m := h₁.pending
      rw [evaluate_of_step hstep, evaluate_of_step ht]
      refine ih ?_ h₁.progress
      intro q hq
      rcases List.mem_append.1 hq with hq | hq
      · exact h₁.elements q hq
      · exact hp q (List.mem_cons_of_mem p hq)
    · rw [hstep] at hs
      cases hs

/-- What one evaluation keeps: `P` holds of its state as long as `N` holds of the elements. -/
structure Kept (fs : FileSystem) (N : Element → Prop) (P : Evaluation → Prop) : Prop where
  child : ∀ e, N e → ∀ c ∈ e.children, N c
  document : ∀ path root, fs.documentAt? path = some root → N root
  setProperty : ∀ s e, N e → e.name = "PropertyGroup" → ∀ property ∈ e.children, P s →
    P (s.setProperty property.name property.text)
  setSetting : ∀ s tool setting, P s → P (s.setSetting tool setting)
  addSheet : ∀ s path, P s → P (s.addSheet path)

namespace Kept

variable {N : Element → Prop} {P : Evaluation → Prop}

theorem lockstep (k : Kept fs N P) : Lockstep fs N fun s t => s = t ∧ P s where
  child := k.child
  document := k.document
  holds := by
    rintro s _ directory e - ⟨rfl, -⟩
    rfl
  expand := by
    rintro s _ text ⟨rfl, -⟩
    rfl
  setProperty := by
    rintro s _ e hn he property hm ⟨rfl, h⟩
    exact ⟨rfl, k.setProperty s e hn he property hm h⟩
  setSetting := by
    rintro s _ tool setting ⟨rfl, h⟩
    exact ⟨rfl, k.setSetting s tool setting h⟩
  addSheet := by
    rintro s _ path ⟨rfl, h⟩
    exact ⟨rfl, k.addSheet s path h⟩

theorem importPath (k : Kept fs N P) (s : Progress) (path : NormalPath) (hs : P s.evaluation) :
    P (s.importPath fs path).2.evaluation :=
  (k.lockstep.importPath (t := s) ⟨⟨rfl, hs⟩, rfl⟩ path).progress.evaluation.2

theorem step (k : Kept fs N P) {s s' : Progress} {p : Pending} {l : List Pending}
    (h : s.step fs p = .ok (l, s')) (hp : N p.element) (hs : P s.evaluation) :
    P s'.evaluation := by
  have ha := k.lockstep.step (t := s) hp ⟨⟨rfl, hs⟩, rfl⟩
  rw [h] at ha
  cases ha with
  | ok h₁ => exact h₁.progress.evaluation.2

theorem elements (k : Kept fs N P) {s s' : Progress} {p : Pending} {l : List Pending}
    (h : s.step fs p = .ok (l, s')) (hp : N p.element) (hs : P s.evaluation) :
    ∀ q ∈ l, N q.element := by
  have ha := k.lockstep.step (t := s) hp ⟨⟨rfl, hs⟩, rfl⟩
  rw [h] at ha
  cases ha with
  | ok h₁ => exact h₁.elements

theorem evaluate (k : Kept fs N P) {pending : List Pending} {s s' : Progress}
    (h : evaluate fs pending s = .ok s') (hp : ∀ p ∈ pending, N p.element)
    (hs : P s.evaluation) : P s'.evaluation := by
  have ha := k.lockstep.evaluate (t := s) hp ⟨⟨rfl, hs⟩, rfl⟩
  rw [h] at ha
  cases ha with
  | ok h₁ => exact h₁.evaluation.2

end Kept

section Failure

variable {N : Element → Prop} {Q : Failure → Prop} {x : Failure} {s : Progress}
  (k : Kept fs N fun _ => True)
  (hc : ∀ s directory e x, N e → Evaluation.holds fs directory s e = .error x → Q x)

include k hc

theorem step_fails {p : Pending} (hp : N p.element) (h : s.step fs p = .error x) : Q x := by
  unfold Progress.step at h
  split at h
  · next hx =>
    cases h
    exact hc _ _ _ _ hp hx
  · cases h
  · unfold Progress.enter at h
    split at h
    · split at h <;> cases h
    · split at h
      · cases h
      · cases ha : s.evaluation.apply fs p.directory p.element with
        | error y =>
          rw [ha] at h
          cases h
          exact Evaluation.apply_fails k.child (fun s e x => hc s _ e x) hp ha
        | ok _ =>
          rw [ha] at h
          cases h

/-- A run fails only where a condition does. -/
theorem evaluate_fails {pending : List Pending} (hp : ∀ p ∈ pending, N p.element)
    (h : evaluate fs pending s = .error x) : Q x := by
  induction pending, s using evaluate.induct fs with
  | case1 s =>
    rw [MSBuild.evaluate] at h
    cases h
  | case2 s p rest y hs =>
    rw [evaluate_of_failure hs] at h
    cases h
    exact step_fails k hc (hp p List.mem_cons_self) hs
  | case3 s p rest l s₁ hs ih =>
    rw [evaluate_of_step hs] at h
    refine ih ?_ h
    intro q hq
    rcases List.mem_append.1 hq with hq | hq
    · exact k.elements hs (hp p List.mem_cons_self) trivial q hq
    · exact hp q (List.mem_cons_of_mem p hq)

end Failure

inductive Occurs (fs : FileSystem) (pending : List Pending) : Element → Prop
  | pending {p : Pending} (h : p ∈ pending) : Occurs fs pending p.element
  | document {path : NormalPath} {root : Element} (h : fs.documentAt? path = some root) :
      Occurs fs pending root
  | child {e c : Element} (h : Occurs fs pending e) (hc : c ∈ e.children) : Occurs fs pending c

theorem Occurs.kept (fs : FileSystem) (pending : List Pending) :
    Kept fs (Occurs fs pending) fun _ => True where
  child _ he _ hm := .child he hm
  document _ _ hd := .document hd
  setProperty _ _ _ _ _ _ _ := trivial
  setSetting _ _ _ _ := trivial
  addSheet _ _ _ := trivial

/-- An evaluation ends in a state, unless it comes to a condition that does not parse. -/
theorem evaluate_ends (fs : FileSystem) (pending : List Pending) (s : Progress) :
    (∃ s', evaluate fs pending s = .ok s') ∨
      ∃ e text, Occurs fs pending e ∧ e.attribute? "Condition" = some text ∧
        evaluate fs pending s = .error (.malformedCondition text) := by
  cases h : evaluate fs pending s with
  | ok s' => exact .inl ⟨s', rfl⟩
  | error x =>
    obtain ⟨e, text, he, ht, rfl⟩ := evaluate_fails (Occurs.kept fs pending)
      (Q := fun x => ∃ e text, Occurs fs pending e ∧ e.attribute? "Condition" = some text ∧
        x = .malformedCondition text)
      (fun s directory e x he hx => ⟨e, (Evaluation.failure_of_holds hx).imp fun _ ht => ⟨he, ht⟩⟩)
      (fun p hp => .pending hp) h
    exact .inr ⟨e, text, he, ht, rfl⟩

def evaluateWithin (fs : FileSystem) : Nat → List Pending → Progress →
    Option (Except Failure Progress)
  | _, [], s => some (.ok s)
  | 0, _ :: _, _ => none
  | n + 1, p :: rest, s =>
    match s.step fs p with
    | .error x => some (.error x)
    | .ok (l, s') => evaluateWithin fs n (l ++ rest) s'

theorem evaluate_of_within {n : Nat} {pending : List Pending} {s : Progress}
    {r : Except Failure Progress} (h : evaluateWithin fs n pending s = some r) :
    evaluate fs pending s = r := by
  induction n generalizing pending s with
  | zero =>
    cases pending with
    | nil =>
      cases h
      rw [evaluate]
    | cons p rest => cases h
  | succ n ih =>
    cases pending with
    | nil =>
      cases h
      rw [evaluate]
    | cons p rest =>
      rw [evaluateWithin] at h
      split at h
      · next hx =>
        cases h
        exact evaluate_of_failure hx rest
      · next hstep =>
        rw [evaluate_of_step hstep]
        exact ih h

theorem exists_evaluate_of_within (fs : FileSystem) (n : Nat) (pending : List Pending)
    (s : Progress) (p : Progress → Bool)
    (h : ((evaluateWithin fs n pending s).bind Except.toOption).any p = true) :
    ∃ s', evaluate fs pending s = .ok s' ∧ p s' = true := by
  cases hr : evaluateWithin fs n pending s with
  | none =>
    rw [hr] at h
    cases h
  | some r =>
    rw [hr] at h
    cases r with
    | error x => cases h
    | ok s' => exact ⟨s', evaluate_of_within hr, h⟩

end StudioMake.MSBuild

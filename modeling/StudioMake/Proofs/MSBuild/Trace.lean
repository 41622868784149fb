import StudioMake.Proofs.MSBuild.Evaluation

/-!
# Traces of an evaluation

What happens in the course of an evaluation is noted element by element, in the order in which the
elements are dealt with. What every note tells of its step, the trace tells of the whole run.
-/

set_option autoImplicit false

namespace StudioMake.MSBuild

open Xml

variable {α : Type} {fs : FileSystem} {note : Progress → Pending → List α} {s s' : Progress}
  {p : Pending} {l pending : List Pending}

/-- The notes on all elements that an evaluation deals with, up to the one where it fails. -/
def trace (fs : FileSystem) (note : Progress → Pending → List α) (pending : List Pending)
    (s : Progress) : List α :=
  match pending with
  | [] => []
  | p :: rest =>
    match _h : s.step fs p with
    | .error _ => note s p
    | .ok (l, s') => note s p ++ trace fs note (l ++ rest) s'
termination_by (fs.unread s.visited, Pending.weight pending)
decreasing_by exact Progress.step_lt _h rest

theorem trace_nil (s : Progress) : trace fs note [] s = [] := by rw [trace]

theorem trace_of_step (h : s.step fs p = .ok (l, s')) (rest : List Pending) :
    trace fs note (p :: rest) s = note s p ++ trace fs note (l ++ rest) s' := by
  rw [trace]
  split
  · next hs =>
    rw [h] at hs
    cases hs
  · next hs =>
    rw [h] at hs
    cases hs
    rfl

theorem trace_of_failure {x : Failure} (h : s.step fs p = .error x) (rest : List Pending) :
    trace fs note (p :: rest) s = note s p := by
  rw [trace]
  split
  · rfl
  · next hs =>
    rw [h] at hs
    cases hs

theorem note_prefix_trace (s : Progress) (p : Pending) (rest : List Pending) :
    note s p <+: trace fs note (p :: rest) s := by
  cases h : s.step fs p with
  | error x => simp [trace_of_failure h]
  | ok next =>
    rw [trace_of_step h]
    exact List.prefix_append _ _

theorem evaluate_nil (s : Progress) : evaluate fs [] s = .ok s := by rw [evaluate]

theorem trace_of_evaluate (note : Progress → Pending → List α)
    {R : Progress → List α → Progress → Prop} (nil : ∀ s, R s [] s)
    (step : ∀ {s s₁ s' p l notes}, s.step fs p = .ok (l, s₁) → R s₁ notes s' →
      R s (note s p ++ notes) s')
    (h : evaluate fs pending s = .ok s') : R s (trace fs note pending s) s' := by
  induction pending, s using evaluate.induct fs with
  | case1 s =>
    rw [evaluate_nil] at h
    cases h
    rw [trace_nil]
    exact nil _
  | case2 s p rest x hx =>
    rw [evaluate_of_failure hx] at h
    cases h
  | case3 s p rest l s₁ hs ih =>
    rw [evaluate_of_step hs] at h
    rw [trace_of_step hs]
    exact step hs (ih h)

theorem evaluate_append (before after : List Pending) (s : Progress) :
    evaluate fs (before ++ after) s = evaluate fs before s >>= evaluate fs after := by
  induction before, s using evaluate.induct fs with
  | case1 s =>
    rw [evaluate_nil]
    rfl
  | case2 s p rest x hx =>
    rw [List.cons_append, evaluate_of_failure hx, evaluate_of_failure hx]
    rfl
  | case3 s p rest l s₁ hs ih =>
    rw [List.cons_append, evaluate_of_step hs, evaluate_of_step hs, ← List.append_assoc, ih]

theorem trace_append (before after : List Pending) (s : Progress) :
    trace fs note (before ++ after) s =
      trace fs note before s ++
        match evaluate fs before s with
        | .error _ => []
        | .ok m => trace fs note after m := by
  induction before, s using evaluate.induct fs with
  | case1 s =>
    rw [evaluate_nil, trace_nil]
    rfl
  | case2 s p rest x hx =>
    rw [List.cons_append, trace_of_failure hx, trace_of_failure hx, evaluate_of_failure hx,
      List.append_nil]
  | case3 s p rest l s₁ hs ih =>
    rw [List.cons_append, trace_of_step hs, trace_of_step hs, evaluate_of_step hs,
      ← List.append_assoc l, ih, List.append_assoc]

theorem trace_append_of_evaluate {before : List Pending} {m : Progress}
    (h : evaluate fs before s = .ok m) (after : List Pending) :
    trace fs note (before ++ after) s = trace fs note before s ++ trace fs note after m := by
  rw [trace_append, h]

def traceWithin (fs : FileSystem) (note : Progress → Pending → List α) :
    Nat → List Pending → Progress → Option (List α)
  | _, [], _ => some []
  | 0, _ :: _, _ => none
  | n + 1, p :: rest, s =>
    match s.step fs p with
    | .error _ => some (note s p)
    | .ok (l, s') => (traceWithin fs note n (l ++ rest) s').map (note s p ++ ·)

theorem trace_of_within {n : Nat} {notes : List α}
    (h : traceWithin fs note n pending s = some notes) : trace fs note pending s = notes := by
  induction n generalizing pending s notes with
  | zero =>
    cases pending with
    | nil =>
      cases h
      exact trace_nil s
    | cons p rest => cases h
  | succ n ih =>
    cases pending with
    | nil =>
      cases h
      exact trace_nil s
    | cons p rest =>
      rw [traceWithin] at h
      split at h
      · next hx =>
        cases h
        exact trace_of_failure hx rest
      · next hs =>
        obtain ⟨later, hl, rfl⟩ := Option.map_eq_some_iff.1 h
        rw [trace_of_step hs, ih hl]

theorem of_traceWithin (fs : FileSystem) (note : Progress → Pending → List α) (n : Nat)
    (pending : List Pending) (s : Progress) (p : List α → Bool)
    (h : (traceWithin fs note n pending s).any p = true) :
    p (trace fs note pending s) = true := by
  rw [Option.any_eq_true] at h
  obtain ⟨notes, hn, hp⟩ := h
  rwa [trace_of_within hn]

end StudioMake.MSBuild

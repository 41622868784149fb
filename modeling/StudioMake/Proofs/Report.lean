import Mathlib.Data.List.Induction
import StudioMake.Proofs.Sequences
import StudioMake.Report

/-!
# What a request holds

However the fields of a report are asked for, the request holds each of them once, in the order of
its lines and with the label it was asked for last. So a request depends on the last label of every
field alone, and so does its report.
-/

set_option autoImplicit false

namespace StudioMake.Report

variable {field : Field} {label : String} {l : List (Field × String)}

theorem Field.rank_inj {f g : Field} (h : f.rank = g.rank) : f = g := by
  cases f <;> cases g <;> first | rfl | cases h

/-- The fields stand in the order of their lines, each once. -/
def InOrder (l : List (Field × String)) : Prop := l.Pairwise fun a b => a.1.rank < b.1.rank

namespace Request

theorem mem_of_mem_insertField {entry : Field × String} (h : entry ∈ insertField field label l) :
    entry = (field, label) ∨ entry ∈ l := by
  induction l with
  | nil => exact .inl (List.mem_singleton.1 h)
  | cons first rest ih =>
    obtain ⟨f, old⟩ := first
    rw [insertField] at h
    split at h
    · exact (List.mem_cons.1 h).imp id (List.mem_cons_of_mem _)
    · split at h
      · exact List.mem_cons.1 h
      · rcases List.mem_cons.1 h with h | h
        · exact .inr (List.mem_cons.2 (.inl h))
        · exact (ih h).imp id (List.mem_cons_of_mem _)

theorem inOrder_insertField (h : InOrder l) (field : Field) (label : String) :
    InOrder (insertField field label l) := by
  induction l with
  | nil => exact List.pairwise_singleton _ _
  | cons first rest ih =>
    obtain ⟨f, old⟩ := first
    obtain ⟨hfirst, hrest⟩ := List.pairwise_cons.1 h
    rw [insertField]
    split
    · next hf =>
      subst hf
      exact List.pairwise_cons.2 ⟨hfirst, hrest⟩
    · next hf =>
      split
      · next hlt =>
        refine List.pairwise_cons.2 ⟨List.forall_mem_cons.2 ⟨hlt, ?_⟩, h⟩
        exact fun entry he => Nat.lt_trans hlt (hfirst entry he)
      · next hlt =>
        refine List.pairwise_cons.2 ⟨fun entry he => ?_, ih hrest⟩
        rcases mem_of_mem_insertField he with rfl | he
        · have hne : f.rank ≠ field.rank := fun heq => hf (Field.rank_inj heq)
          exact Nat.lt_of_le_of_ne (Nat.le_of_not_lt hlt) hne
        · exact hfirst entry he

/-- A field is held with the label that it was asked for, and the others as before. -/
theorem mem_insertField_iff (h : InOrder l) {entry : Field × String} :
    entry ∈ insertField field label l ↔
      entry = (field, label) ∨ entry.1 ≠ field ∧ entry ∈ l := by
  induction l with
  | nil => simp [insertField]
  | cons first rest ih =>
    obtain ⟨f, old⟩ := first
    obtain ⟨hfirst, hrest⟩ := List.pairwise_cons.1 h
    have hbehind : ∀ other : Field, other.rank ≤ f.rank → ∀ e ∈ rest, e.1 ≠ other := by
      rintro other hle e he rfl
      exact Nat.lt_irrefl _ (Nat.lt_of_lt_of_le (hfirst e he) hle)
    rw [insertField]
    split
    · next hf =>
      subst hf
      have hdrop : entry ∈ rest ↔ entry.1 ≠ f ∧ entry ∈ (f, old) :: rest := by
        grind
      rw [List.mem_cons, hdrop]
    · next hf =>
      split
      · next hlt =>
        have hne : ∀ e ∈ (f, old) :: rest, e.1 ≠ field :=
          List.forall_mem_cons.2 ⟨hf, hbehind field (Nat.le_of_lt hlt)⟩
        grind
      · rw [List.mem_cons, ih hrest]
        grind

theorem nodup_of_inOrder (h : InOrder l) : l.Nodup := by
  apply h.imp
  rintro entry other hlt rfl
  exact Nat.lt_irrefl _ hlt

theorem eq_of_inOrder {l' : List (Field × String)} (h : InOrder l) (h' : InOrder l')
    (hm : ∀ entry, entry ∈ l ↔ entry ∈ l') : l = l' := by
  have hperm : l.Perm l' :=
    (List.perm_ext_iff_of_nodup (nodup_of_inOrder h) (nodup_of_inOrder h')).2 hm
  exact hperm.eq_of_pairwise (fun _ _ _ _ hab hba => absurd hba (Nat.lt_asymm hab)) h h'

def upTo (a b : Field × String) : Bool := a.1.rank ≤ b.1.rank

theorem inOrder_mergeSort (h : l.Pairwise fun a b => a.1 ≠ b.1) : InOrder (l.mergeSort upTo) := by
  have hdistinct : (l.mergeSort upTo).Pairwise fun a b => a.1 ≠ b.1 :=
    (List.mergeSort_perm l upTo).symm.pairwise h fun hne => Ne.symm hne
  have hsorted : (l.mergeSort upTo).Pairwise fun a b => upTo a b = true := by
    refine List.pairwise_mergeSort ?_ ?_ l
    · intro a b c hab hbc
      simp only [upTo, decide_eq_true_eq] at *
      omega
    · intro a b
      simp only [upTo, Bool.or_eq_true, decide_eq_true_eq]
      omega
  refine (hsorted.and hdistinct).imp fun {a b} hab => ?_
  have hle : a.1.rank ≤ b.1.rank := by simpa [upTo] using hab.1
  exact Nat.lt_of_le_of_ne hle fun heq => hab.2 (Field.rank_inj heq)

/-- A field that is held keeps its place; another one is put behind the rest, and all are sorted. -/
theorem insertField_eq (h : InOrder l) (field : Field) (label : String) :
    insertField field label l =
      if field ∈ l.map Prod.fst then
        l.map fun entry => if entry.1 = field then (field, label) else entry
      else (l ++ [(field, label)]).mergeSort upTo := by
  have hinserted := inOrder_insertField h field label
  split
  · next hheld =>
    refine eq_of_inOrder hinserted ?_ fun entry => ?_
    · refine List.pairwise_map.2 (h.imp fun {a b} hab => ?_)
      have hfield : ∀ e : Field × String, (if e.1 = field then (field, label) else e).1 = e.1 := by
        intro e
        split
        · next he => exact he.symm
        · rfl
      rwa [hfield, hfield]
    · obtain ⟨held, hm, hf⟩ := List.mem_map.1 hheld
      rw [mem_insertField_iff h, List.mem_map]
      constructor
      · rintro (rfl | ⟨hne, he⟩)
        · exact ⟨held, hm, if_pos hf⟩
        · exact ⟨entry, he, if_neg hne⟩
      · rintro ⟨e, he, rfl⟩
        split
        · exact .inl rfl
        · next hne => exact .inr ⟨hne, he⟩
  · next hnew =>
    have hne : ∀ e ∈ l, e.1 ≠ field := fun e he hf => hnew (hf ▸ List.mem_map_of_mem he)
    refine eq_of_inOrder hinserted (inOrder_mergeSort ?_) fun entry => ?_
    · refine List.pairwise_append.2 ⟨h.imp fun hlt hf => ?_, List.pairwise_singleton _ _, ?_⟩
      · exact Nat.lt_irrefl _ (hf ▸ hlt)
      · intro e he last hlast
        rw [List.mem_singleton.1 hlast]
        exact hne e he
    · rw [mem_insertField_iff h, List.mem_mergeSort, List.mem_append, List.mem_singleton, or_comm]
      exact or_congr_left (and_iff_right_of_imp (hne entry))

end Request

section Calls

/-- The label that a field is asked for with last. -/
def lastLabel? (field : Field) (calls : List (Field × String)) : Option String :=
  lastSome? (fun call => if call.1 = field then some call.2 else none) calls

def requested (target : Target) (calls : List (Field × String)) : Request :=
  calls.foldl (fun r call => r.add call.1 call.2) { target }

variable (target : Target) (calls : List (Field × String))

theorem lastLabel?_concat (call : Field × String) : lastLabel? field (calls ++ [call]) =
    if call.1 = field then some call.2 else lastLabel? field calls := by
  rw [lastLabel?, lastSome?_append]
  split <;> simp [lastSome?, lastLabel?, *]

theorem requested_concat (call : Field × String) :
    requested target (calls ++ [call]) = (requested target calls).add call.1 call.2 :=
  List.foldl_concat _ _ _ _

theorem target_requested : (requested target calls).target = target := by
  induction calls using List.reverseRecOn with
  | nil => rfl
  | append_singleton calls call ih =>
    rw [requested_concat]
    exact ih

theorem inOrder_requested : InOrder (requested target calls).fields := by
  induction calls using List.reverseRecOn with
  | nil => exact List.Pairwise.nil
  | append_singleton calls call ih =>
    rw [requested_concat]
    exact Request.inOrder_insertField ih call.1 call.2

theorem mem_requested_iff :
    (field, label) ∈ (requested target calls).fields ↔ lastLabel? field calls = some label := by
  induction calls using List.reverseRecOn with
  | nil => simp [requested, lastLabel?, lastSome?]
  | append_singleton calls call ih =>
    obtain ⟨f, last⟩ := call
    rw [requested_concat, lastLabel?_concat, Request.add,
      Request.mem_insertField_iff (inOrder_requested target calls), ih]
    by_cases hf : f = field
    · subst hf
      rw [if_pos rfl, Option.some.injEq, Prod.mk.injEq, and_iff_right rfl, eq_comm]
      exact or_iff_left fun h => h.1 rfl
    · have hne : (field, label) ≠ (f, last) := fun h => hf (congrArg Prod.fst h).symm
      rw [if_neg hf, or_iff_right hne]
      exact and_iff_right (Ne.symm hf)

theorem lastLabel?_isSome_iff :
    (lastLabel? field calls).isSome = true ↔ field ∈ calls.map Prod.fst := by
  rw [← Option.ne_none_iff_isSome, ne_eq, lastLabel?, lastSome?_eq_none_iff]
  simp

/-- Whatever fields are asked for, and however often, a request holds exactly these, each once in
the order of the lines and with its last label. So two rows of calls make the same request exactly
if they end with the same label for every field, and then they make the same report, or fail alike,
for every project. -/
theorem request_of_last_labels :
    (requested target calls).target = target ∧
    InOrder (requested target calls).fields ∧
    (∀ field, field ∈ (requested target calls).fields.map Prod.fst ↔ field ∈ calls.map Prod.fst) ∧
    (∀ field label, (field, label) ∈ (requested target calls).fields ↔
      lastLabel? field calls = some label) ∧
    ∀ others, (requested target others = requested target calls ↔
        ∀ field, lastLabel? field others = lastLabel? field calls) ∧
      ((∀ field, lastLabel? field others = lastLabel? field calls) →
        ∀ p, text p (requested target others) = text p (requested target calls)) := by
  have heq : ∀ others, requested target others = requested target calls ↔
      ∀ field, lastLabel? field others = lastLabel? field calls := by
    intro others
    constructor
    · intro h field
      refine Option.ext fun label => ?_
      rw [← mem_requested_iff target, ← mem_requested_iff target, h]
    · intro h
      have hfields : (requested target others).fields = (requested target calls).fields := by
        refine Request.eq_of_inOrder (inOrder_requested target others)
          (inOrder_requested target calls) ?_
        rintro ⟨field, label⟩
        rw [mem_requested_iff, mem_requested_iff, h field]
      have htarget := (target_requested target others).trans (target_requested target calls).symm
      generalize requested target others = r at hfields htarget
      cases r
      cases hfields
      cases htarget
      rfl
  refine ⟨target_requested target calls, inOrder_requested target calls, ?_,
    fun field label => mem_requested_iff target calls, ?_⟩
  · intro field
    rw [← lastLabel?_isSome_iff calls, Option.isSome_iff_exists]
    simp only [List.mem_map, Prod.exists, exists_eq_right, exists_and_right, mem_requested_iff]
  · intro others
    refine ⟨heq others, fun h p => ?_⟩
    rw [(heq others).2 h]

def definesTwice : List (Field × String) :=
  [(.sources, "SRCS="), (.defines, "a"), (.configurations, ""), (.defines, "-")]

def sourcesTwice : List (Field × String) :=
  [(.defines, "-"), (.sources, "b"), (.configurations, ""), (.sources, "SRCS=")]

theorem request_of_last_labels_repeated :
    (requested .all definesTwice).fields =
      [(.configurations, ""), (.defines, "-"), (.sources, "SRCS=")] ∧
    requested .all sourcesTwice = requested .all definesTwice ∧
    text { name := "demo" } (requested .all sourcesTwice) =
      text { name := "demo" } (requested .all definesTwice) := by
  have h : ∀ field, lastLabel? field sourcesTwice = lastLabel? field definesTwice := by
    intro field
    cases field <;> decide
  have hsame := (request_of_last_labels .all definesTwice).2.2.2.2 sourcesTwice
  exact ⟨by decide, hsame.1.2 h, hsame.2 h _⟩

end Calls

end StudioMake.Report

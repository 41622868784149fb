import Mathlib.Data.List.Basic
import StudioMake.VisualStudio.Listing

/-!
# Positions in a listing

A position leads from an element to one below it, by the numbers of the children on the way. A
listing shows the elements that are reached through filters alone. Their positions are gathered
here in the order of a recursion over the tree, which is the order of the document.
-/

set_option autoImplicit false

namespace StudioMake

namespace Xml.Element

/-- The element at a position. -/
def descendant? : Element → List Nat → Option Element
  | e, [] => some e
  | e, k :: position => (e.children[k]?).bind (descendant? · position)

theorem induction_children {P : Element → Prop} (step : ∀ e, (∀ c ∈ e.children, P c) → P e)
    (e : Element) : P e := by
  induction h : e.size using Nat.strongRecOn generalizing e with
  | _ n ih =>
    refine step e fun c hc => ih c.size ?_ c rfl
    have hle : c.size ≤ size.sizes e.children := by
      obtain ⟨l₁, l₂, hl⟩ := List.append_of_mem hc
      rw [hl, sizes_append, size.sizes]
      omega
    rw [size_eq] at h
    omega

end Xml.Element

namespace VisualStudio

open Xml

/-- A position below `root` of an element with `p`, all elements above which are filters. -/
structure Reaches (p : Element → Bool) (root : Element) (position : List Nat) : Prop where
  below : position ≠ []
  element : ∃ e, root.descendant? position = some e ∧ p e = true
  filters : ∀ outer, outer ≠ [] → outer <+: position → outer ≠ position →
    ∃ e, root.descendant? outer = some e ∧ isFilter e = true

variable {p : Element → Bool} {root : Element} {k : Nat} {position : List Nat} {es : List Element}

theorem descendant?_cons :
    root.descendant? (k :: position) = (root.children[k]?).bind (·.descendant? position) := rfl

theorem reaches_cons_iff :
    Reaches p root (k :: position) ↔ ∃ e, root.children[k]? = some e ∧
      (position = [] ∧ p e = true ∨ isFilter e = true ∧ Reaches p e position) := by
  constructor
  · intro h
    obtain ⟨x, hx, hp⟩ := h.element
    obtain ⟨e, he, hx⟩ := Option.bind_eq_some_iff.1 hx
    refine ⟨e, he, ?_⟩
    by_cases hn : position = []
    · subst hn
      cases hx
      exact .inl ⟨rfl, hp⟩
    · have hf := h.filters [k] (by simp) (by simp) (by simpa using Ne.symm hn)
      rw [descendant?_cons, he] at hf
      obtain ⟨e', h', hf⟩ := hf
      cases h'
      refine .inr ⟨hf, hn, ⟨x, hx, hp⟩, ?_⟩
      intro outer ho hpre hne
      have hf := h.filters (k :: outer) (by simp) (by simpa using hpre) (by simpa using hne)
      rwa [descendant?_cons, he] at hf
  · rintro ⟨e, he, ⟨rfl, hp⟩ | ⟨hf, h⟩⟩
    · refine ⟨by simp, ⟨e, by rw [descendant?_cons, he]; rfl, hp⟩, ?_⟩
      intro outer ho hpre hne
      rcases List.prefix_cons_iff.1 hpre with rfl | ⟨t, rfl, ht⟩
      · exact absurd rfl ho
      · exact absurd (by rw [List.prefix_nil.1 ht]) hne
    · obtain ⟨x, hx, hp⟩ := h.element
      refine ⟨by simp, ⟨x, by rw [descendant?_cons, he]; exact hx, hp⟩, ?_⟩
      intro outer ho hpre hne
      rcases List.prefix_cons_iff.1 hpre with rfl | ⟨t, rfl, ht⟩
      · exact absurd rfl ho
      · rw [descendant?_cons, he]
        by_cases hn : t = []
        · subst hn
          exact ⟨e, rfl, hf⟩
        · exact h.filters t hn ht fun heq => hne (by rw [heq])

theorem Reaches.dropLast (h : Reaches p root position) (hn : position.dropLast ≠ []) :
    Reaches isFilter root position.dropLast := by
  have hlt : position.dropLast.length < position.length := by
    rw [List.length_dropLast]
    have := List.length_pos_iff.2 h.below
    omega
  have hne : ∀ outer : List Nat, outer <+: position.dropLast → outer ≠ position := by
    rintro outer ho rfl
    exact absurd ho.length_le (by omega)
  refine ⟨hn, h.filters _ hn (List.dropLast_prefix _) (hne _ List.prefix_rfl), ?_⟩
  intro outer ho hpre _
  exact h.filters outer ho (hpre.trans (List.dropLast_prefix _)) (hne outer hpre)

mutual

def positionsFrom (p : Element → Bool) : Element → List (List Nat)
  | ⟨name, attributes, text, children⟩ =>
    (if p ⟨name, attributes, text, children⟩ then [[]] else []) ++
      if isFilter ⟨name, attributes, text, children⟩ then positions p 0 children else []

def positions (p : Element → Bool) : Nat → List Element → List (List Nat)
  | _, [] => []
  | k, e :: rest => (positionsFrom p e).map (k :: ·) ++ positions p (k + 1) rest

end

theorem positionsFrom_eq (p : Element → Bool) (e : Element) :
    positionsFrom p e = (if p e then [[]] else []) ++
      if isFilter e then positions p 0 e.children else [] := by
  cases e
  rw [positionsFrom]

theorem positions_cons (p : Element → Bool) (k : Nat) (e : Element) (rest : List Element) :
    positions p k (e :: rest) =
      (positionsFrom p e).map (k :: ·) ++ positions p (k + 1) rest := by
  rw [positions]

theorem mem_positions :
    position ∈ positions p k es ↔ ∃ j e rest, es[j]? = some e ∧ position = (k + j) :: rest ∧
      rest ∈ positionsFrom p e := by
  induction es generalizing k with
  | nil => simp [positions]
  | cons e es ih =>
    rw [positions_cons, List.mem_append, List.mem_map, ih]
    constructor
    · rintro (⟨rest, hr, rfl⟩ | ⟨j, d, rest, hd, rfl, hr⟩)
      · exact ⟨0, e, rest, rfl, rfl, hr⟩
      · exact ⟨j + 1, d, rest, hd, by rw [Nat.add_right_comm, Nat.add_assoc], hr⟩
    · rintro ⟨j, d, rest, hd, rfl, hr⟩
      cases j with
      | zero =>
        cases hd
        exact .inl ⟨rest, hr, rfl⟩
      | succ j =>
        exact .inr ⟨j, d, rest, hd, by rw [Nat.add_right_comm, Nat.add_assoc], hr⟩

theorem exists_cons_of_mem_positions (h : position ∈ positions p k es) :
    ∃ j rest, k ≤ j ∧ position = j :: rest := by
  obtain ⟨j, _, rest, -, rfl, -⟩ := mem_positions.1 h
  exact ⟨k + j, rest, by omega, rfl⟩

theorem nil_notMem_positions : [] ∉ positions p k es := by
  intro h
  obtain ⟨j, rest, -, hn⟩ := exists_cons_of_mem_positions h
  cases hn

theorem mem_positions_iff_reaches :
    position ∈ positions p 0 root.children ↔ Reaches p root position := by
  induction position generalizing root with
  | nil => exact iff_of_false nil_notMem_positions fun h => h.below rfl
  | cons k position ih =>
    rw [mem_positions, reaches_cons_iff]
    have hfrom : ∀ e, position ∈ positionsFrom p e ↔
        position = [] ∧ p e = true ∨ isFilter e = true ∧ Reaches p e position := by
      intro e
      rw [positionsFrom_eq, List.mem_append, ← ih]
      by_cases hp : p e = true <;> by_cases hf : isFilter e = true <;> simp [hp, hf]
    constructor
    · rintro ⟨j, e, rest, he, heq, hr⟩
      rw [Nat.zero_add, List.cons.injEq] at heq
      obtain ⟨rfl, rfl⟩ := heq
      exact ⟨e, he, (hfrom e).1 hr⟩
    · rintro ⟨e, he, h⟩
      exact ⟨k, e, position, he, by rw [Nat.zero_add], (hfrom e).2 h⟩

theorem pairwise_positions_of (h : ∀ e ∈ es, (positionsFrom p e).Pairwise (· < ·)) (k : Nat) :
    (positions p k es).Pairwise (· < ·) := by
  induction es generalizing k with
  | nil => exact .nil
  | cons e es ih =>
    rw [positions_cons, List.pairwise_append, List.pairwise_map]
    refine ⟨?_, ih (fun d hd => h d (List.mem_cons_of_mem e hd)) (k + 1), ?_⟩
    · exact (h e List.mem_cons_self).imp fun hlt => List.cons_lt_cons_iff.2 (.inr ⟨rfl, hlt⟩)
    · intro a ha b hb
      obtain ⟨rest, -, rfl⟩ := List.mem_map.1 ha
      obtain ⟨j, rest', hj, rfl⟩ := exists_cons_of_mem_positions hb
      exact List.cons_lt_cons_iff.2 (.inl hj)

theorem pairwise_positionsFrom (e : Element) : (positionsFrom p e).Pairwise (· < ·) := by
  induction e using Element.induction_children with
  | step e ih =>
    have hc := pairwise_positions_of ih 0
    rw [positionsFrom_eq]
    by_cases hf : isFilter e = true
    · by_cases hp : p e = true
      · rw [if_pos hp, if_pos hf]
        refine List.pairwise_cons.2 ⟨fun position hm => ?_, hc⟩
        obtain ⟨j, rest, -, rfl⟩ := exists_cons_of_mem_positions hm
        exact List.nil_lt_cons j rest
      · rw [if_neg hp, if_pos hf]
        exact hc
    · by_cases hp : p e = true <;> simp [hp, hf]

theorem pairwise_positions (k : Nat) (es : List Element) :
    (positions p k es).Pairwise (· < ·) :=
  pairwise_positions_of (fun e _ => pairwise_positionsFrom e) k

/-- The positions below `root` of the elements with `p` that are reached, each once and in document
order. -/
structure Enumerates (p : Element → Bool) (root : Element) (l : List (List Nat)) : Prop where
  ordered : l.Pairwise (· < ·)
  mem_iff : ∀ position, position ∈ l ↔ Reaches p root position

theorem enumerates_positions (p : Element → Bool) (root : Element) :
    Enumerates p root (positions p 0 root.children) :=
  ⟨pairwise_positions 0 _, fun _ => mem_positions_iff_reaches⟩

theorem Enumerates.nodup {l : List (List Nat)} (h : Enumerates p root l) : l.Nodup := by
  refine h.ordered.imp ?_
  rintro a _ hlt rfl
  exact List.lt_irrefl a hlt

end VisualStudio

end StudioMake

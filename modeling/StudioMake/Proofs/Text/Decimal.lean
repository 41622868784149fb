import Mathlib.Data.Nat.Digits.Defs
import Mathlib.Tactic.Ring
import StudioMake.Text.Decimal

/-!
# What a signed decimal number says

The reader goes through the digits from the left. A row of digits is worth the sum of its digits by
their places; a text is read as a number exactly if it writes one that fits into 64 bits.
-/

set_option autoImplicit false

namespace StudioMake.Text

theorem isDigit_iff {c : Char} : c.isDigit = true ↔ 48 ≤ c.toNat ∧ c.toNat ≤ 57 := by
  have h : c.isDigit = (decide (48 ≤ c.val) && decide (c.val ≤ 57)) := rfl
  simp only [h, Bool.and_eq_true, decide_eq_true_eq, UInt32.le_iff_toNat_le]
  rfl

def digitValue (c : Char) : Nat := c.toNat - '0'.toNat

/-- What some digits are worth together, the last one being that of the ones. -/
def numeralValue (digits : List Char) : Nat :=
  Nat.ofDigits 10 (digits.reverse.map digitValue)

structure IsNumeral (digits : List Char) : Prop where
  ne_nil : digits ≠ []
  isDigit : ∀ c ∈ digits, c.isDigit = true

/-- A text that writes a number, with a sign or without. -/
inductive WritesNumber : List Char → Int → Prop
  | bare {digits : List Char} (h : IsNumeral digits) : WritesNumber digits (numeralValue digits)
  | plus {digits : List Char} (h : IsNumeral digits) :
      WritesNumber ('+' :: digits) (numeralValue digits)
  | minus {digits : List Char} (h : IsNumeral digits) :
      WritesNumber ('-' :: digits) (-numeralValue digits)

theorem numeralValue_cons (c : Char) (digits : List Char) :
    numeralValue (c :: digits) = digitValue c * 10 ^ digits.length + numeralValue digits := by
  rw [numeralValue, List.reverse_cons, List.map_append, Nat.ofDigits_append, List.map_singleton,
    Nat.ofDigits_singleton, List.length_map, List.length_reverse, numeralValue]
  ring

theorem decimalFrom_eq_some_iff {n m : Nat} {l : List Char} :
    decimalFrom n l = some m ↔
      (∀ c ∈ l, c.isDigit = true) ∧ m = n * 10 ^ l.length + numeralValue l := by
  induction l generalizing n with
  | nil =>
    have hvalue : n * 10 ^ ([] : List Char).length + numeralValue [] = n := by simp [numeralValue]
    rw [decimalFrom, Option.some_inj, hvalue, eq_comm]
    exact ⟨fun h => ⟨nofun, h⟩, And.right⟩
  | cons c l ih =>
    rw [decimalFrom, List.forall_mem_cons]
    by_cases hc : c.isDigit = true
    · have hplace : (10 * n + digitValue c) * 10 ^ l.length + numeralValue l =
          n * 10 ^ (c :: l).length + numeralValue (c :: l) := by
        rw [numeralValue_cons, List.length_cons]
        ring
      rw [if_pos hc, ← digitValue, ih, hplace]
      exact ⟨fun h => ⟨⟨hc, h.1⟩, h.2⟩, fun h => ⟨h.1.2, h.2⟩⟩
    · rw [if_neg hc]
      exact ⟨nofun, fun h => absurd h.1.1 hc⟩

theorem unsigned?_eq_some_iff {m : Nat} {l : List Char} :
    unsigned? l = some m ↔ IsNumeral l ∧ m = numeralValue l := by
  cases l with
  | nil => exact ⟨nofun, fun h => absurd rfl h.1.ne_nil⟩
  | cons c l =>
    have hread : unsigned? (c :: l) = decimalFrom 0 (c :: l) := rfl
    rw [hread, decimalFrom_eq_some_iff, Nat.zero_mul, Nat.zero_add]
    exact ⟨fun h => ⟨⟨List.cons_ne_nil c l, h.1⟩, h.2⟩, fun h => ⟨h.1.isDigit, h.2⟩⟩

theorem signed?_minus (digits : List Char) :
    signed? ('-' :: digits) = (unsigned? digits).map fun m : Nat => -(m : Int) := by
  rw [signed?]
  cases unsigned? digits <;> rfl

theorem signed?_eq_some_iff {n : Int} {l : List Char} : signed? l = some n ↔ WritesNumber l n := by
  constructor
  · intro h
    unfold signed? at h
    split at h
    · obtain ⟨m, hm, rfl⟩ := Option.map_eq_some_iff.1 h
      obtain ⟨hdigits, rfl⟩ := unsigned?_eq_some_iff.1 hm
      exact .plus hdigits
    · next digits =>
      have h := (signed?_minus digits).symm.trans h
      obtain ⟨m, hm, rfl⟩ := Option.map_eq_some_iff.1 h
      obtain ⟨hdigits, rfl⟩ := unsigned?_eq_some_iff.1 hm
      exact .minus hdigits
    · obtain ⟨m, hm, rfl⟩ := Option.map_eq_some_iff.1 h
      obtain ⟨hdigits, rfl⟩ := unsigned?_eq_some_iff.1 hm
      exact .bare hdigits
  · intro h
    cases h with
    | bare h =>
      have hread := unsigned?_eq_some_iff.2 ⟨h, rfl⟩
      unfold signed?
      split
      · exact absurd (h.isDigit '+' List.mem_cons_self) (by decide)
      · exact absurd (h.isDigit '-' List.mem_cons_self) (by decide)
      · rw [hread]
        rfl
    | plus h =>
      rw [signed?, unsigned?_eq_some_iff.2 ⟨h, rfl⟩]
      rfl
    | minus h =>
      rw [signed?_minus, unsigned?_eq_some_iff.2 ⟨h, rfl⟩]
      rfl

theorem number?_eq_some_iff {s : String} {n : Int} :
    number? s = some n ↔ WritesNumber (trim s).toList n ∧ -2 ^ 63 ≤ n ∧ n < 2 ^ 63 := by
  rw [number?, Option.filter_eq_some_iff, signed?_eq_some_iff, inRange64, Bool.and_eq_true,
    decide_eq_true_eq, decide_eq_true_eq]
  rfl

theorem WritesNumber.exists_digit {l : List Char} {n : Int} (h : WritesNumber l n) :
    ∃ c ∈ l, c.isDigit = true := by
  cases h with
  | bare h =>
    obtain ⟨c, hc⟩ := List.exists_mem_of_ne_nil _ h.ne_nil
    exact ⟨c, hc, h.isDigit c hc⟩
  | plus h | minus h =>
    obtain ⟨c, hc⟩ := List.exists_mem_of_ne_nil _ h.ne_nil
    exact ⟨c, List.mem_cons_of_mem _ hc, h.isDigit c hc⟩

end StudioMake.Text

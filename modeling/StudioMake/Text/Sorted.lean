/-!
# Sorted texts

Texts in the order of their code points, each once; pairs in the order of their first parts, then of
their second ones.
-/

set_option autoImplicit false

namespace StudioMake.Text

def le (a b : String) : Bool := decide (a ≤ b)

def pairLe (a b : String × String) : Bool :=
  if a.1 = b.1 then le a.2 b.2 else le a.1 b.1

def sortedDistinct (l : List String) : List String := l.eraseDups.mergeSort le

def sortedDistinctPairs (l : List (String × String)) : List (String × String) :=
  l.eraseDups.mergeSort pairLe

theorem mem_sortedDistinct {l : List String} {s : String} : s ∈ sortedDistinct l ↔ s ∈ l := by
  simp [sortedDistinct]

theorem mem_sortedDistinctPairs {l : List (String × String)} {p : String × String} :
    p ∈ sortedDistinctPairs l ↔ p ∈ l := by
  simp [sortedDistinctPairs]

end StudioMake.Text

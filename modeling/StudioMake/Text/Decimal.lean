import StudioMake.Text.Blank

/-!
# Signed decimal numbers

An optional sign and at least one digit, for a number that fits into 64 bits.
-/

set_option autoImplicit false

namespace StudioMake.Text

/-- The value of a digit string read after the value `n`. -/
def decimalFrom (n : Nat) : List Char → Option Nat
  | [] => some n
  | c :: rest => if c.isDigit then decimalFrom (10 * n + (c.toNat - '0'.toNat)) rest else none

def unsigned? : List Char → Option Nat
  | [] => none
  | digits => decimalFrom 0 digits

def signed? : List Char → Option Int
  | '+' :: digits => (unsigned? digits).map Int.ofNat
  | '-' :: digits => (unsigned? digits).map fun n => -(n : Int)
  | digits => (unsigned? digits).map Int.ofNat

def inRange64 (n : Int) : Bool :=
  -0x8000000000000000 ≤ n && n < 0x8000000000000000

def number? (s : String) : Option Int :=
  (signed? (trim s).toList).filter inRange64

example : number? " -9223372036854775808 " = some (-9223372036854775808) := by decide +kernel

example : number? "9223372036854775808" = none := by decide +kernel

end StudioMake.Text

/-!
# Reading UTF-8 leniently

A maximal ill-formed sequence of bytes is read as one replacement character. The state after a
byte says how many bytes the character under construction still needs and in which range the next
one lies.
-/

set_option autoImplicit false

namespace StudioMake.Text.Utf8

structure Pending where
  value : Nat
  /-- The bytes still to come after the next one. -/
  later : Nat
  low : Nat := 0x80
  high : Nat := 0xBF

inductive Start where
  | complete (c : Char)
  | lead (p : Pending)
  | invalid

def start (b : Nat) : Start :=
  if b < 0x80 then .complete (Char.ofNat b)
  else if 0xC2 ≤ b ∧ b ≤ 0xDF then .lead { value := b - 0xC0, later := 0 }
  else if b = 0xE0 then .lead { value := 0, later := 1, low := 0xA0 }
  else if b = 0xED then .lead { value := 0xD, later := 1, high := 0x9F }
  else if 0xE1 ≤ b ∧ b ≤ 0xEF then .lead { value := b - 0xE0, later := 1 }
  else if b = 0xF0 then .lead { value := 0, later := 2, low := 0x90 }
  else if 0xF1 ≤ b ∧ b ≤ 0xF3 then .lead { value := b - 0xF0, later := 2 }
  else if b = 0xF4 then .lead { value := 4, later := 2, high := 0x8F }
  else .invalid

def replacement : Char := '\uFFFD'

/-- The characters that a byte completes, and the state after it. -/
def step : Option Pending → Nat → List Char × Option Pending
  | none, b =>
    match start b with
    | .complete c => ([c], none)
    | .lead p => ([], some p)
    | .invalid => ([replacement], none)
  | some p, b =>
    if p.low ≤ b ∧ b ≤ p.high then
      let value := p.value * 64 + (b - 0x80)
      match p.later with
      | 0 => ([Char.ofNat value], none)
      | later + 1 => ([], some { value, later })
    else
      match start b with
      | .complete c => ([replacement, c], none)
      | .lead q => ([replacement], some q)
      | .invalid => ([replacement, replacement], none)

def run : Option Pending → List UInt8 → List Char
  | none, [] => []
  | some _, [] => [replacement]
  | state, b :: rest =>
    let (out, next) := step state b.toNat
    out ++ run next rest

def decode (bytes : List UInt8) : String :=
  String.ofList (run none bytes)

example : decode [0x61, 0xE2, 0x82, 0xAC, 0xF0, 0x9F, 0x98, 0x80] = "a€😀" := by decide +kernel

example : decode [0xF0, 0x9F, 0x41, 0xED, 0xA0, 0x80] = "\uFFFDA\uFFFD\uFFFD\uFFFD" := by
  decide +kernel

end StudioMake.Text.Utf8

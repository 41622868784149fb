import StudioMake.Xml.Character

/-!
# Character references and line ends

Character data and attribute values may name characters by reference. Characters that were named
are kept as they are; of the others, line ends are unified, and in an attribute value white space
becomes a space.
-/

set_option autoImplicit false

namespace StudioMake.Xml

/-- A character of the content: written as itself, or kept by a reference. -/
inductive Symbol where
  | plain (c : Char)
  | kept (c : Char)

def digit? (radix : Nat) (c : Char) : Option Nat :=
  let value :=
    if c.isDigit then c.toNat - '0'.toNat
    else if 'a' ≤ c ∧ c ≤ 'f' then c.toNat - 'a'.toNat + 10
    else if 'A' ≤ c ∧ c ≤ 'F' then c.toNat - 'A'.toNat + 10
    else radix
  if value < radix then some value else none

def codePoint? (radix : Nat) (digits : List Char) : Option Nat :=
  if digits.isEmpty then none
  else
    (digits.foldlM (fun n c => (digit? radix c).map (radix * n + ·)) 0).filter (· < 0x100000000)

/-- The character with a code point; one that no character has gives the replacement character. -/
def charOfCodePoint? (n : Nat) : Option Char :=
  let c := if n.isValidChar then Char.ofNat n else '\uFFFD'
  if isXmlChar c then some c else none

def referenced? : List Char → Option Char
  | '#' :: 'x' :: digits => (codePoint? 16 digits).bind charOfCodePoint?
  | '#' :: digits => (codePoint? 10 digits).bind charOfCodePoint?
  | name =>
    [("amp", '&'), ("lt", '<'), ("gt", '>'), ("quot", '"'), ("apos", '\'')].lookup
      (String.ofList name)

def symbolsFrom : Option (List Char) → List Char → Option (List Symbol)
  | none, [] => some []
  | some _, [] => none
  | none, '&' :: rest => symbolsFrom (some []) rest
  | none, c :: rest => (symbolsFrom none rest).map (.plain c :: ·)
  | some name, ';' :: rest => do
    let c ← referenced? name.reverse
    let more ← symbolsFrom none rest
    return .kept c :: more
  | some name, c :: rest => symbolsFrom (some (c :: name)) rest

def symbols? (l : List Char) : Option (List Symbol) := symbolsFrom none l

def attributeValue : List Symbol → List Char
  | [] => []
  | .kept c :: rest => c :: attributeValue rest
  | .plain '\r' :: .plain '\n' :: rest => ' ' :: attributeValue rest
  | .plain c :: rest => (if isSpace c then ' ' else c) :: attributeValue rest

def keepAfterReference : List Symbol → List Symbol
  | [] => []
  | .kept c :: .plain d :: rest => .kept c :: .kept d :: keepAfterReference rest
  | symbol :: rest => symbol :: keepAfterReference rest

/-- Character data with line ends unified. `held` says that a carriage return waits to be written:
it becomes a newline before a plain character, and is written as it is before a kept one. -/
def unifyLines : (held : Bool) → List Symbol → List Char
  | held, [] => if held then ['\r'] else []
  | held, .kept c :: rest =>
    (if held then ['\r'] else []) ++
      if c = '\r' then unifyLines true rest else c :: unifyLines false rest
  | held, .plain c :: rest =>
    (if held then ['\n'] else []) ++
      if c = '\r' then
        if rest.isEmpty then ['\n'] else unifyLines true rest
      else if held && c == '\n' then unifyLines false rest
      else c :: unifyLines false rest

def characterData? (l : List Char) : Option (List Char) :=
  (symbols? l).map fun symbols => unifyLines false (keepAfterReference symbols)

def literalData (l : List Char) : List Char :=
  unifyLines false (l.map .plain)

example : (characterData? "a\r\nb\r&#13;\n&lt;".toList).map String.ofList = some "a\nb\r\r\n<" := by
  decide +kernel

end StudioMake.Xml

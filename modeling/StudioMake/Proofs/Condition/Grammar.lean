import StudioMake.Condition.Parser

/-!
# The grammar of conditions

A text is laid out as tokens with blanks around them, and the tokens derive a condition. Nothing
here knows how a condition is read: the layout of a text leaves the rest of it open, a keyword
takes its whole run of letters, and `and` and `or` join any number of operands from left to right.
-/

set_option autoImplicit false

namespace StudioMake.Condition

open Text

inductive Token where
  | quoted (s : String)
  | equal
  | notEqual
  | bang
  | opening
  | closing
  | and
  | or
  | predicate (p : Predicate)
deriving DecidableEq

def Token.sign? : Token → Option (List Char)
  | .equal => some ['=', '=']
  | .notEqual => some ['!', '=']
  | .bang => some ['!']
  | .opening => some ['(']
  | .closing => some [')']
  | _ => none

def Token.keyword? : Token → Option String
  | .and => some "and"
  | .or => some "or"
  | .predicate p => some p.keyword
  | _ => none

def Token.comparison? : Token → Option (Operand → Operand → Condition)
  | .equal => some .equal
  | .notEqual => some .notEqual
  | _ => none

/-- The texts that stand for a token. -/
inductive Token.Spells : Token → List Char → Prop
  | quoted {s : String} (h : '\'' ∉ s.toList) : Spells (.quoted s) ('\'' :: (s.toList ++ ['\'']))
  | sign {t : Token} {w : List Char} (ht : t.sign? = some w) : Spells t w
  | keyword {t : Token} {word : String} {w : List Char} (ht : t.keyword? = some word)
      (hw : ∀ c ∈ w, c.isAlpha = true)
      (hs : sameIgnoringCase (String.ofList w) word = true) : Spells t w

/-- The text starts with some tokens, with blanks before each of them and after the last one, and
goes on with the rest. No letter follows a keyword. -/
inductive LaidOut : List Token → List Char → List Char → Prop
  | nil {blanks rest : List Char} (hb : ∀ c ∈ blanks, isBlank c = true) :
      LaidOut [] (blanks ++ rest) rest
  | cons {blanks w l rest : List Char} {t : Token} {ts : List Token}
      (hb : ∀ c ∈ blanks, isBlank c = true) (hw : t.Spells w)
      (hk : t.keyword? ≠ none → ∀ c ∈ l.head?, c.isAlpha = false) (h : LaidOut ts l rest) :
      LaidOut (t :: ts) (blanks ++ (w ++ l)) rest

/-- The levels of the grammar, from the tightest. -/
inductive Rank where
  | atom
  | negation
  | conjunction
  | disjunction
deriving DecidableEq

def joined (t : Token) (operands : List (List Token × Condition)) : List Token :=
  operands.flatMap fun operand => t :: operand.1

/-- The tokens that a condition is written as at each level. -/
inductive Derives : Rank → List Token → Condition → Prop
  | comparison {t : Token} {f : Operand → Operand → Condition} (ht : t.comparison? = some f)
      (a b : String) :
      Derives .atom [.quoted a, t, .quoted b] (f (Operand.split a) (Operand.split b))
  | call (p : Predicate) (a : String) :
      Derives .atom [.predicate p, .opening, .quoted a, .closing] (.call p (Operand.split a))
  | group {ts : List Token} {c : Condition} (h : Derives .disjunction ts c) :
      Derives .atom (.opening :: (ts ++ [.closing])) c
  | atom {ts : List Token} {c : Condition} (h : Derives .atom ts c) : Derives .negation ts c
  | not {ts : List Token} {c : Condition} (h : Derives .negation ts c) :
      Derives .negation (.bang :: ts) (.not c)
  | conjunction {ts : List Token} {c : Condition} {operands : List (List Token × Condition)}
      (h : Derives .negation ts c)
      (ho : ∀ operand ∈ operands, Derives .negation operand.1 operand.2) :
      Derives .conjunction (ts ++ joined .and operands)
        (operands.foldl (fun left operand => .and left operand.2) c)
  | disjunction {ts : List Token} {c : Condition} {operands : List (List Token × Condition)}
      (h : Derives .conjunction ts c)
      (ho : ∀ operand ∈ operands, Derives .conjunction operand.1 operand.2) :
      Derives .disjunction (ts ++ joined .or operands)
        (operands.foldl (fun left operand => .or left operand.2) c)

end StudioMake.Condition

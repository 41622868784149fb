/-!
# XML elements

What project files are read for: the local names of elements and attributes, the attribute values,
the text an element starts with, and its child elements. Namespaces are checked when a document is
read and left out here.
-/

set_option autoImplicit false

namespace StudioMake.Xml

/-- An element. `text` is the character data that comes before the first child element, comment
or processing instruction. -/
structure Element where
  name : String
  attributes : List (String × String) := []
  text : String := ""
  children : List Element := []

namespace Element

instance : Inhabited Element := ⟨{ name := "" }⟩

def attribute? (e : Element) (name : String) : Option String := e.attributes.lookup name

def attributeD (e : Element) (name : String) : String := (e.attribute? name).getD ""

def hasAttribute (e : Element) (name : String) : Bool := (e.attribute? name).isSome

def childrenNamed (e : Element) (name : String) : List Element :=
  e.children.filter (·.name = name)

def childNamed? (e : Element) (name : String) : Option Element :=
  e.children.find? (·.name = name)

def size : Element → Nat
  | ⟨_, _, _, children⟩ => 1 + sizes children
where
  sizes : List Element → Nat
    | [] => 0
    | e :: rest => size e + sizes rest

theorem sizes_append (l₁ l₂ : List Element) :
    size.sizes (l₁ ++ l₂) = size.sizes l₁ + size.sizes l₂ := by
  induction l₁ with
  | nil => simp [size.sizes]
  | cons e rest ih => simp [size.sizes, ih, Nat.add_assoc]

theorem size_eq (e : Element) : e.size = 1 + size.sizes e.children := by
  cases e; rw [size]

theorem sizes_filter_le (p : Element → Bool) (l : List Element) :
    size.sizes (l.filter p) ≤ size.sizes l := by
  induction l with
  | nil => simp
  | cons e rest ih =>
    rw [List.filter_cons]
    split
    · simp [size.sizes, ih]
    · simp [size.sizes]; omega

mutual

def isSame : Element → Element → Bool
  | ⟨name, attributes, text, children⟩, ⟨name', attributes', text', children'⟩ =>
    decide (name = name') && decide (attributes = attributes') && decide (text = text') &&
      areSame children children'

def areSame : List Element → List Element → Bool
  | [], [] => true
  | a :: l, b :: l' => isSame a b && areSame l l'
  | _, _ => false

end

mutual

theorem isSame_iff (a b : Element) : isSame a b = true ↔ a = b := by
  obtain ⟨name, attributes, text, children⟩ := a
  obtain ⟨name', attributes', text', children'⟩ := b
  simp [isSame, areSame_iff children children', and_assoc]

theorem areSame_iff (l l' : List Element) : areSame l l' = true ↔ l = l' := by
  match l, l' with
  | [], [] => simp [areSame]
  | a :: l, b :: l' => simp [areSame, isSame_iff a b, areSame_iff l l']
  | [], b :: l' => simp [areSame]
  | a :: l, [] => simp [areSame]

end

instance : DecidableEq Element := fun a b => decidable_of_iff _ (isSame_iff a b)

end Element

end StudioMake.Xml

import StudioMake.Xml.Element
import StudioMake.Xml.Markup

/-!
# Reading documents

The elements of a document, built from its markup with a stack of the elements that are open.
A document is read or refused as a whole: tags must match, names must be qualified by namespaces
in scope, and no attribute may occur twice. Of namespace declarations, only those of one qualifier
may not be repeated.
-/

set_option autoImplicit false

namespace StudioMake.Xml

def xmlNamespace : String := "http://www.w3.org/XML/1998/namespace"

def xmlnsNamespace : String := "http://www.w3.org/2000/xmlns/"

/-- Adds the namespace that an attribute declares to those declared before it, or refuses it. Only
the names of qualifiers are kept: the default namespace has no bearing on which names are in order,
and an element may declare it more than once. -/
def declare? (declared : List (String × String)) : QName × String → Option (List (String × String))
  | (⟨"xmlns", name⟩, value) =>
    if value = xmlnsNamespace then none
    else if name = "xml" then
      if value = xmlNamespace then some declared else none
    else if value = xmlNamespace || (declared.lookup name).isSome then none
    else some (declared ++ [(name, value)])
  | (⟨_, "xmlns"⟩, value) =>
    if value = xmlNamespace || value = xmlnsNamespace then none else some declared
  | _ => some declared

def isDeclaration (name : QName) : Bool := name.qualifier = "xmlns" || name.name = "xmlns"

def expanded? (scope : List (String × String)) (name : QName) : Option (Option String × String) :=
  if name.qualifier = "" then some (none, name.name)
  else if name.qualifier = "xml" then some (some xmlNamespace, name.name)
  else (scope.lookup name.qualifier).map fun namespaceName => (some namespaceName, name.name)

structure Frame where
  name : QName
  attributes : List (String × String)
  scope : List (String × String)
  text : List Char := []
  /-- Only character data has been met so far. -/
  leading : Bool := true
  children : List Element := []

def Frame.element (f : Frame) : Element :=
  { name := f.name.name, attributes := f.attributes, text := String.ofList f.text,
    children := f.children }

def Frame.open? (outer : List (String × String)) (name : QName)
    (attributes : List (QName × String)) : Option Frame := do
  let declared ← attributes.foldlM declare? []
  let scope := declared ++ outer
  let plain := attributes.filter fun item => !isDeclaration item.1
  let expanded ← plain.mapM fun item => expanded? scope item.1
  if name.qualifier = "xmlns" || !(name.qualifier = "" || (scope.lookup name.qualifier).isSome) then
    none
  else if decide expanded.Nodup then
    return { name, scope, attributes := plain.map fun item => (item.1.name, item.2) }
  else none

def Frame.addText (f : Frame) (content : List Char) : Frame :=
  if f.leading then { f with text := f.text ++ content } else f

def Frame.addAside (f : Frame) : Frame := { f with leading := false }

def Frame.addChild (f : Frame) (child : Element) : Frame :=
  { f with leading := false, children := f.children ++ [child] }

structure Building where
  stack : List Frame := []
  root : Option Element := none

namespace Building

def close (stack : List Frame) (child : Element) (root : Option Element) : Building :=
  match stack with
  | [] => { root := some child }
  | frame :: outer => { stack := frame.addChild child :: outer, root }

def add? (b : Building) : Markup → Option Building
  | .opening name attributes closed => do
    if b.stack.isEmpty && b.root.isSome then none
    else
      let scope := (b.stack.head?.map Frame.scope).getD []
      let frame ← Frame.open? scope name attributes
      if closed then return close b.stack frame.element b.root
      else return { b with stack := frame :: b.stack }
  | .closing name =>
    match b.stack with
    | frame :: outer => if frame.name = name then some (close outer frame.element b.root) else none
    | [] => none
  | .text content =>
    match b.stack with
    | frame :: outer => do
      let content ← characterData? content
      return { b with stack := frame.addText content :: outer }
    | [] => if content.all isSpace then some b else none
  | .data content =>
    match b.stack with
    | frame :: outer => some { b with stack := frame.addText (literalData content) :: outer }
    | [] => none
  | .aside =>
    match b.stack with
    | frame :: outer => some { b with stack := frame.addAside :: outer }
    | [] => some b

end Building

/-- The root element of a document, or `none` if it is not well formed. One byte-order mark at the
start is skipped; document type declarations are refused. -/
def Element.ofDocument? (document : String) : Option Element := do
  let l := (Text.dropLead? "\uFEFF" document).getD document |>.toList
  if l.all isXmlChar then
    let l ← afterDeclaration? l
    let markup ← Markup.all? l
    let building ← markup.foldlM Building.add? {}
    if building.stack.isEmpty then building.root else none
  else none

def Element.ofFile? (text : String) : Option Element :=
  ofDocument? ((Text.dropLead? "\uFEFF" text).getD text)

end StudioMake.Xml

import Scorebook.Markup.Reference
import Scorebook.Markup.Token

/-!
# Namespaces

A qualifier is an abbreviation for a space of names, and a tag binds qualifiers for itself and for
all that is in it. Once the bindings are known to be in order the qualifiers have done their work:
what is asked for later is the base of a name alone. Two attributes of a tag may therefore differ in
nothing but their spaces, but not in their qualifiers only.

Two qualifiers are special. `xml` belongs to its own space and to no other, and is bound for
attributes without being declared. `xmlns` marks the bindings themselves and names no element.
-/

namespace Scorebook.Markup

/-- Bindings of qualifiers, the innermost first. -/
abbrev Scope := List (String × String)

/-- The reserved spaces have names that begin alike. -/
def reservedSpace (path : String) : String :=
  "http:/" ++ "/www.w3.org/" ++ path

def xmlSpace : String := reservedSpace "XML/1998/namespace"

def xmlnsSpace : String := reservedSpace "2000/xmlns/"

/-- An attribute with its value resolved. -/
structure Attribute where
  name : Name
  value : String
  deriving DecidableEq, Repr

namespace Attribute

def ofRaw? (raw : RawAttribute) : Option Attribute :=
  (resolveValue raw.value).map (⟨raw.name, ·⟩)

/-! ## Bindings -/

def bindsQualifier (a : Attribute) : Bool :=
  a.name.qualifier = "xmlns"

/-- A binding for names without a qualifier. -/
def bindsDefault (a : Attribute) : Bool :=
  a.name.qualifier ≠ "xmlns" && a.name.base = "xmlns"

/-- An attribute that is no binding. -/
def isProper (a : Attribute) : Bool :=
  !a.bindsQualifier && !a.bindsDefault

/-- Whether a binding respects the two reserved spaces: nobody binds the space of bindings, and
`xml` and its space are bound to each other only. -/
def isAllowed (a : Attribute) : Bool :=
  if a.isProper then true
  else a.value ≠ xmlnsSpace &&
    (a.value == xmlSpace) == (a.bindsQualifier && a.name.base == "xml")

end Attribute

/-- The bindings of a tag; that of `xml` goes without saying. -/
def bindings (attrs : List Attribute) : Scope :=
  (attrs.filter fun a => a.bindsQualifier && a.name.base ≠ "xml").map fun a =>
    (a.name.base, a.value)

/-! ## Resolution -/

/-- The space of an attribute, if its qualifier is bound; without a qualifier it has none. -/
def attributeSpace? (scope : Scope) (name : Name) : Option (Option String) :=
  if name.qualifier = "" then some none
  else if name.qualifier = "xml" then some (some xmlSpace)
  else (scope.lookup name.qualifier).map some

/-- Whether an element may have this name. -/
def isElementName (scope : Scope) (name : Name) : Bool :=
  name.qualifier ≠ "xmlns" &&
    (name.qualifier = "" || (scope.lookup name.qualifier).isSome)

/-- The scope inside a tag and the attributes of the tag under the bases of their names, if its
bindings are in order. -/
def resolveTag (outer : Scope) (name : Name) (raw : List RawAttribute) :
    Option (Scope × List (String × String)) := do
  let attrs ← raw.mapM Attribute.ofRaw?
  let proper := attrs.filter Attribute.isProper
  let scope := bindings attrs ++ outer
  let spaces ← proper.mapM fun a => attributeSpace? scope a.name
  if attrs.all Attribute.isAllowed ∧ ((bindings attrs).map Prod.fst).Nodup ∧
      isElementName scope name ∧ (spaces.zip (proper.map (·.name.base))).Nodup then
    some (scope, proper.map fun a => (a.name.base, a.value))
  else none

end Scorebook.Markup

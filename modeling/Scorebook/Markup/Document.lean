import Scorebook.Markup.Namespace

/-!
# Documents

A document is one element with all that is in it: elements, runs of text, comments and
instructions, in the order in which they stand. Around it there may be comments, instructions and
blanks. Neighbouring characters and sections make one run of text; a tag, a comment or an
instruction ends the run.

The row of tokens is read once, with a stack of the elements whose end has not come yet.
-/

namespace Scorebook.Markup

/-- Names are without their qualifiers and attributes without the bindings. -/
inductive Content where
  | element (name : String) (attributes : List (String × String)) (children : List Content)
  | text (s : String)
  | comment (s : String)
  | instruction (target content : String)

/-- The root element. -/
structure Document where
  name : String
  attributes : List (String × String)
  children : List Content

/-! ## Elements that are open -/

/-- An element whose end has not come; of its children the latest is first. -/
structure OpenElement where
  name : Name
  attributes : List (String × String)
  scope : Scope
  children : List Content

namespace OpenElement

def push (e : OpenElement) (child : Content) : OpenElement :=
  { e with children := child :: e.children }

/-- Text joins the run before it. -/
def pushText (e : OpenElement) (s : String) : OpenElement :=
  match e.children with
  | .text t :: cs => { e with children := .text (t ++ s) :: cs }
  | cs => { e with children := .text s :: cs }

def close (e : OpenElement) : Document :=
  ⟨e.name.base, e.attributes, e.children.reverse⟩

end OpenElement

/-! ## Building -/

/-- The root once it is complete, and the open elements, the innermost first. -/
structure Builder where
  root : Option Document
  stack : List OpenElement

namespace Builder

def start : Builder := ⟨none, []⟩

/-- An element that is complete goes into the one around it, or is the root. -/
def add (stack : List OpenElement) (e : OpenElement) : Builder :=
  match stack with
  | [] => ⟨some e.close, []⟩
  | outer :: stack =>
    let d := e.close
    ⟨none, outer.push (.element d.name d.attributes d.children) :: stack⟩

/-- A change to the innermost open element, or nothing outside the root. -/
def inside (b : Builder) (change : OpenElement → OpenElement) : Builder :=
  match b.stack with
  | [] => b
  | e :: stack => { b with stack := change e :: stack }

def step (b : Builder) : Token → Option Builder
  | .start name raw closed => do
    if b.root.isSome then none
    else
      let outer := (b.stack.head?.map OpenElement.scope).getD []
      let (scope, attrs) ← resolveTag outer name raw
      let e : OpenElement := ⟨name, attrs, scope, []⟩
      if closed then some (add b.stack e) else some { b with stack := e :: b.stack }
  | .finish name =>
    match b.stack with
    | [] => none
    | e :: stack => if e.name = name then some (add stack e) else none
  | .characters raw =>
    if b.stack = [] then (if raw.all isSpace then some b else none)
    else (resolveText raw).map fun s => b.inside (·.pushText s)
  | .verbatim content =>
    if b.stack = [] then none else some (b.inside (·.pushText (resolveVerbatim content)))
  | .comment content => some (b.inside (·.push (.comment (String.ofList content))))
  | .instruction target content =>
    some (b.inside (·.push (.instruction (String.ofList target) (String.ofList content))))

end Builder

namespace Document

/-- The document that a row of tokens makes up. -/
def ofTokens? (tokens : List Token) : Option Document := do
  let b ← tokens.foldlM Builder.step .start
  if b.stack.isEmpty then b.root else none

/-- The document that a text holds. -/
def read (s : String) : Option Document :=
  (tokens? s).bind ofTokens?

end Document

end Scorebook.Markup

import Scorebook.Book.Identifier

/-!
# Distinct identifiers

Parts may share a name, and different names may have one identifier. Identifiers are therefore
handed out one by one. The first request for an identifier gets it bare. A later one gets the
identifier of the name with a number behind it, and the numbers of all names with one identifier
are counted up together, past those that are taken.

A candidate that is taken is one of those issued, and no two of the numbered candidates of a name
are equal, so a request ends after at most one more candidate than there are identifiers issued.
-/

namespace Scorebook

structure Allocator where
  issued : List String
  /-- The last number tried, for each identifier that was ever asked for. -/
  counters : List (String × Nat)
  deriving DecidableEq, Repr

namespace Allocator

def empty : Allocator := ⟨[], []⟩

/-- The last number tried for an identifier; the bare identifier counts as number one. -/
def counter (a : Allocator) (id : String) : Nat :=
  (a.counters.lookup id).getD 1

/-- The identifier of a name with a number behind it. -/
def numbered (name : String) (k : Nat) : String :=
  Identifier.ofName (name ++ toString k)

/-- The first of so many numbered candidates that is not taken, with its number. -/
def search (issued : List String) (name : String) : Nat → Nat → String × Nat
  | 0, k => (numbered name k, k)
  | tries + 1, k =>
    if numbered name k ∈ issued then search issued name tries (k + 1) else (numbered name k, k)

/-- The identifier given for a request, with the last number tried for it. -/
def choose (a : Allocator) (name : String) : String × Nat :=
  let id := Identifier.ofName name
  if id ∈ a.issued then search a.issued name a.issued.length (a.counter id + 1)
  else (id, a.counter id)

/-- Hand out an identifier for a name. -/
def allocate (a : Allocator) (name : String) : String × Allocator :=
  let (id, k) := a.choose name
  (id, ⟨id :: a.issued, (Identifier.ofName name, k) :: a.counters⟩)

/-- Identifiers for names in a row. -/
def allocateAll (a : Allocator) : List String → List String × Allocator
  | [] => ([], a)
  | name :: names =>
    let (id, a) := a.allocate name
    let (ids, a) := allocateAll a names
    (id :: ids, a)

end Allocator

end Scorebook

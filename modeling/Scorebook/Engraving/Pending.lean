/-!
# Pending decorations

A document states a decoration before the note that it belongs to, while it is written after that
note. Until the note comes, decorations wait. Those that wait when a note comes are attached to it
all together: by category, and within a category the latest first. Those that still wait at the
end of a voice belong to nothing; they are handed back by category, the earliest first.
-/

namespace Scorebook

/-- The kinds of decoration that wait for a note. -/
inductive Category where
  | dynamic | spanner | text | fermata
  deriving DecidableEq, Repr

namespace Category

/-- The order in which decorations are attached and handed back. -/
def order : List Category := [dynamic, spanner, text, fermata]

/-- The name that a document gives to elements of this kind. -/
def elementType : Category → String
  | dynamic => "Dynamic"
  | spanner => "Spanner"
  | text => "PlayTechAnnotation"
  | fermata => "Fermata"

theorem mem_order (c : Category) : c ∈ order := by
  cases c <;> decide

theorem nodup_order : order.Nodup := by
  decide

end Category

/-- Decorations in the order in which they were met, the earliest first. -/
structure Pending where
  waiting : List (Category × String)
  deriving DecidableEq, Repr

namespace Pending

def empty : Pending := ⟨[]⟩

/-- One more decoration waits, unless it is written as nothing. -/
def push (p : Pending) (category : Category) (mark : String) : Pending :=
  if mark = "" then p else ⟨p.waiting ++ [(category, mark)]⟩

/-- The marks of one category, the earliest first. -/
def marks (p : Pending) (category : Category) : List String :=
  (p.waiting.filter (·.1 = category)).map Prod.snd

theorem marks_empty (category : Category) : empty.marks category = [] := rfl

theorem push_blank (p : Pending) (category : Category) : p.push category "" = p := rfl

theorem marks_push (p : Pending) (category c : Category) {mark : String} (h : mark ≠ "") :
    (p.push category mark).marks c = p.marks c ++ if category = c then [mark] else [] := by
  by_cases hc : category = c <;> simp [push, marks, h, hc]

/-! ## Removal -/

/-- What waits of the other categories. -/
def without (p : Pending) (category : Category) : Pending :=
  ⟨p.waiting.filter (·.1 ≠ category)⟩

/-- Take out the marks of these categories in turn, those of one category in the order that
`arrange` gives them. -/
def takeOut (arrange : List String → List String) :
    List Category → Pending → List (Category × String) × Pending
  | [], p => ([], p)
  | category :: categories, p =>
    let (taken, rest) := takeOut arrange categories (p.without category)
    ((arrange (p.marks category)).map (category, ·) ++ taken, rest)

/-- Attach all that waits to a note: the latest mark of a category comes first. -/
def drain (p : Pending) : String × Pending :=
  let (taken, rest) := takeOut List.reverse Category.order p
  (String.join (taken.map Prod.snd), rest)

/-- Hand back all that waits when no note comes, the earliest mark of a category first. -/
def take (p : Pending) : List (Category × String) × Pending :=
  takeOut id Category.order p

theorem marks_without (p : Pending) {category c : Category} (h : c ≠ category) :
    (p.without category).marks c = p.marks c := by
  simp only [marks, without, List.filter_filter]
  congr 1
  refine List.filter_congr fun d _ => ?_
  by_cases hd : d.1 = c
  · simp [hd, h]
  · simp [hd]

theorem takeOut_eq (arrange : List String → List String) {categories : List Category}
    (h : categories.Nodup) (p : Pending) :
    takeOut arrange categories p =
      (categories.flatMap fun c => (arrange (p.marks c)).map (c, ·),
        ⟨p.waiting.filter (·.1 ∉ categories)⟩) := by
  induction categories generalizing p with
  | nil => simp [takeOut, List.filter_eq_self.2]
  | cons category categories ih =>
    obtain ⟨hmem, hnodup⟩ := List.nodup_cons.1 h
    have hmarks : ∀ c ∈ categories, (p.without category).marks c = p.marks c := fun c hc =>
      p.marks_without fun heq => hmem (heq ▸ hc)
    have hrest : (categories.map fun c => (arrange ((p.without category).marks c)).map (c, ·)) =
        categories.map fun c => (arrange (p.marks c)).map (c, ·) :=
      List.map_congr_left fun c hc => by rw [hmarks c hc]
    simp only [takeOut, ih hnodup, List.flatMap_def, List.map_cons, List.flatten_cons, hrest]
    simp [without, List.filter_filter, Bool.and_comm]

/-- Attaching empties the row, since every category has its turn. -/
theorem drain_eq (p : Pending) :
    p.drain =
      (String.join (Category.order.flatMap fun c => (p.marks c).reverse), .empty) := by
  simp [drain, takeOut_eq _ Category.nodup_order, Category.mem_order, List.map_flatMap, empty,
    Function.comp_def]

/-- Handing back empties the row as well. -/
theorem take_eq (p : Pending) :
    p.take = (Category.order.flatMap fun c => (p.marks c).map (c, ·), .empty) := by
  simp [take, takeOut_eq _ Category.nodup_order, Category.mem_order, empty]

end Pending

end Scorebook

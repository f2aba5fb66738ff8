import Mathlib.Data.List.Forall2

/-!
# Outcomes

A step that can fail is followed by the next one only if it succeeds. So a run succeeds exactly if
all of its steps do, and otherwise it fails for the first cause that there is.

The causes of a run are listed in the order of its steps (`FailsAtFirst`), and the lists are put
together as the steps are: side by side for steps in a row, one list for each item of a loop. A
step that cannot be reached adds causes that do no harm, since the list is only read up to its
first entry.
-/

namespace Except

variable {ε α β : Type}

/-! ## Success -/

theorem bind_eq_ok {x : Except ε α} {f : α → Except ε β} {b : β} :
    x >>= f = .ok b ↔ ∃ a, x = .ok a ∧ f a = .ok b := by
  cases x with
  | error e => simp [bind, Except.bind]
  | ok a => simp [bind, Except.bind]

theorem map_eq_ok {x : Except ε α} {f : α → β} {b : β} :
    x.map f = .ok b ↔ ∃ a, x = .ok a ∧ f a = b := by
  cases x with
  | error e => simp [Except.map]
  | ok a => simp [Except.map]

theorem mapM_eq_ok {f : α → Except ε β} {as : List α} {bs : List β} :
    as.mapM f = .ok bs ↔ List.Forall₂ (fun a b => f a = .ok b) as bs := by
  induction as generalizing bs with
  | nil =>
    rw [List.mapM_nil, List.forall₂_nil_left_iff]
    exact ⟨fun h => by cases h; rfl, fun h => by rw [h]; rfl⟩
  | cons a as ih =>
    rw [List.mapM_cons, bind_eq_ok, List.forall₂_cons_left_iff]
    constructor
    · rintro ⟨b, hb, h⟩
      obtain ⟨bs', hbs, h⟩ := bind_eq_ok.1 h
      cases h
      exact ⟨b, bs', hb, ih.1 hbs, rfl⟩
    · rintro ⟨b, bs', hb, hbs, rfl⟩
      exact ⟨b, hb, bind_eq_ok.2 ⟨bs', ih.2 hbs, rfl⟩⟩

/-! ## The first cause of a failure -/

def error? : Except ε α → Option ε
  | .ok _ => none
  | .error e => some e

/-- The outcome is a failure for the first of these causes, and a success if there is none. -/
def FailsAtFirst (x : Except ε α) (causes : List ε) : Prop :=
  x.error? = causes.head?

theorem FailsAtFirst.eq_error_iff {x : Except ε α} {causes : List ε} (h : x.FailsAtFirst causes)
    {e : ε} : x = .error e ↔ causes.head? = some e := by
  rw [← h]
  cases x with
  | error e' => simp [error?]
  | ok a => simp [error?]

theorem failsAtFirst_ok (a : α) : (Except.ok a : Except ε α).FailsAtFirst [] := rfl

theorem FailsAtFirst.map {x : Except ε α} {causes : List ε} (h : x.FailsAtFirst causes)
    (f : α → β) : (x.map f).FailsAtFirst causes := by
  unfold FailsAtFirst at h ⊢
  rw [← h]
  cases x <;> rfl

/-- The causes of the second step matter only where the first one succeeds. -/
theorem FailsAtFirst.bind {x : Except ε α} {f : α → Except ε β} {causes more : List ε}
    (hx : x.FailsAtFirst causes) (hf : ∀ a, x = .ok a → (f a).FailsAtFirst more) :
    (x >>= f).FailsAtFirst (causes ++ more) := by
  unfold FailsAtFirst at hx ⊢
  rw [List.head?_append, ← hx]
  cases x with
  | error e => rfl
  | ok a => exact hf a rfl

theorem FailsAtFirst.bind_ok {x : Except ε α} {causes : List ε} (hx : x.FailsAtFirst causes)
    (f : α → β) : (x >>= fun a => .ok (f a)).FailsAtFirst causes := by
  have := hx.bind fun a _ => failsAtFirst_ok (f a)
  rwa [List.append_nil] at this

theorem failsAtFirst_mapM {f : α → Except ε β} {causes : α → List ε} {as : List α}
    (h : ∀ a ∈ as, (f a).FailsAtFirst (causes a)) :
    (as.mapM f).FailsAtFirst (as.flatMap causes) := by
  induction as with
  | nil => exact failsAtFirst_ok []
  | cons a as ih =>
    rw [List.mapM_cons, List.flatMap_cons]
    refine (h a List.mem_cons_self).bind ?_
    intro b _
    exact (ih fun a' ha' => h a' (List.mem_cons_of_mem _ ha')).bind_ok _

theorem failsAtFirst_foldlM {f : β → α → Except ε β} {causes : α → List ε}
    (h : ∀ b a, (f b a).FailsAtFirst (causes a)) (as : List α) (b : β) :
    (as.foldlM f b).FailsAtFirst (as.flatMap causes) := by
  induction as generalizing b with
  | nil => exact failsAtFirst_ok b
  | cons a as ih =>
    rw [List.foldlM_cons, List.flatMap_cons]
    exact (h b a).bind fun b' _ => ih b'

end Except

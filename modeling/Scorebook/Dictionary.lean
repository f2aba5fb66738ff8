/-!
# Dictionaries

Attributes of an element and tags of a score are texts under distinct keys. A value given under a
key that is there already takes the place of the old one, so the last value of a key is the one
that counts, and the keys stay in the order in which they were first met.
-/

namespace Scorebook

/-- Entries under distinct keys. -/
structure Dictionary where
  entries : List (String × String)
  nodup_keys : (entries.map Prod.fst).Nodup

namespace Dictionary

def keys (d : Dictionary) : List String :=
  d.entries.map Prod.fst

def get? (d : Dictionary) (key : String) : Option String :=
  d.entries.lookup key

def empty : Dictionary :=
  ⟨[], List.nodup_nil⟩

instance : Inhabited Dictionary := ⟨empty⟩

/-! ## Insertion -/

/-- The entries with this value under this key, in the place of the old one if there is one. -/
def put (key value : String) : List (String × String) → List (String × String)
  | [] => [(key, value)]
  | e :: es => if e.1 = key then (key, value) :: es else e :: put key value es

theorem map_fst_put (key value : String) (es : List (String × String)) :
    (put key value es).map Prod.fst =
      if key ∈ es.map Prod.fst then es.map Prod.fst else es.map Prod.fst ++ [key] := by
  induction es with
  | nil => simp [put]
  | cons e es ih =>
    by_cases h : e.1 = key
    · simp [put, h]
    · have h' : ¬key = e.1 := fun he => h he.symm
      simp only [put, if_neg h, List.map_cons, ih, List.mem_cons, h', false_or]
      split <;> simp

theorem lookup_put (key value k : String) (es : List (String × String)) :
    (put key value es).lookup k = if k = key then some value else es.lookup k := by
  induction es with
  | nil =>
    by_cases h : k = key <;> simp [put, h]
  | cons e es ih =>
    obtain ⟨a, b⟩ := e
    by_cases ha : a = key
    · subst ha
      by_cases hk : k = a
      · simp [put, hk]
      · simp [put, List.lookup_cons, hk, beq_false_of_ne hk]
    · by_cases hk : k = a
      · subst hk
        simp [put, ha]
      · simp [put, List.lookup_cons, ha, beq_false_of_ne hk, ih]

def insert (d : Dictionary) (key value : String) : Dictionary where
  entries := put key value d.entries
  nodup_keys := by
    rw [map_fst_put]
    split
    · exact d.nodup_keys
    · next h => exact List.nodup_append.2 ⟨d.nodup_keys, by simp, by
        intro a ha b hb
        rw [List.mem_singleton.1 hb]
        exact fun he => h (he ▸ ha)⟩

theorem get?_insert (d : Dictionary) (key value k : String) :
    (d.insert key value).get? k = if k = key then some value else d.get? k :=
  lookup_put key value k d.entries

/-- The entries of a list, the last value of each key counting. -/
def ofList (es : List (String × String)) : Dictionary :=
  es.foldl (fun d e => d.insert e.1 e.2) empty

end Dictionary

end Scorebook

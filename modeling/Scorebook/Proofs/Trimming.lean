import Mathlib.Data.List.TakeWhile
import Scorebook.Proofs.Source.Token
import Scorebook.Text.Blank

/-!
# Trimmed texts

A text is trimmed to what stands between the blanks at its two ends. What that is can be told
without looking for it (`Trims`): with blanks around it it is the text, and it neither begins nor
ends with one. There is only one such text (`Trims.eq_trim`), and it is empty exactly if there is
nothing but blanks.
-/

namespace Scorebook.Text

open Source

/-- The second text is the first one without the blanks at its two ends. -/
structure Trims (s t : String) : Prop where
  split : ∃ before behind : List Char, s.toList = before ++ (t.toList ++ behind) ∧
    (∀ c ∈ before, isBlank c = true) ∧ ∀ c ∈ behind, isBlank c = true
  head : Stops isBlank t.toList
  last : Stops isBlank t.toList.reverse

theorem exists_dropWhile_isBlank (cs : List Char) :
    ∃ blanks, cs = blanks ++ cs.dropWhile isBlank ∧ ∀ c ∈ blanks, isBlank c = true :=
  ⟨cs.takeWhile isBlank, List.takeWhile_append_dropWhile.symm,
    fun _ hc => List.mem_takeWhile_imp hc⟩

theorem trims_trim (s : String) : Trims s (trim s) := by
  obtain ⟨before, hbefore, hblank⟩ := exists_dropWhile_isBlank s.toList
  obtain ⟨behind, hbehind, hblank'⟩ :=
    exists_dropWhile_isBlank (s.toList.dropWhile isBlank).reverse
  have hsplit : s.toList.dropWhile isBlank = trimChars s.toList ++ behind.reverse := by
    rw [trimChars, ← List.reverse_append, ← hbehind, List.reverse_reverse]
  rw [hsplit] at hbefore
  refine ⟨⟨before, behind.reverse, ?_, hblank, ?_⟩, ?_, ?_⟩
  · rwa [toList_trim]
  · intro c hc
    exact hblank' c (List.mem_reverse.1 hc)
  · have hstops := stops_dropWhile isBlank s.toList
    rw [hsplit] at hstops
    rw [toList_trim]
    exact stops_of_append _ hstops
  · rw [toList_trim, trimChars, List.reverse_reverse]
    exact stops_dropWhile isBlank _

theorem Trims.eq_empty_iff {s t : String} (h : Trims s t) :
    t = "" ↔ ∀ c ∈ s.toList, isBlank c = true := by
  obtain ⟨before, behind, hsplit, hbefore, hbehind⟩ := h.split
  constructor
  · rintro rfl c hc
    rw [hsplit] at hc
    simp only [String.toList_empty, List.nil_append, List.mem_append] at hc
    exact hc.elim (hbefore c) (hbehind c)
  · intro hall
    by_contra hne
    obtain ⟨c, cs, hcons⟩ := List.exists_cons_of_ne_nil fun h => hne (String.toList_eq_nil_iff.1 h)
    have hhead : isBlank c = false := h.head c (by simp [hcons])
    rw [hall c (by simp [hsplit, hcons])] at hhead
    cases hhead

theorem Trims.eq_trim {s t : String} (h : Trims s t) : t = trim s := by
  by_cases ht : t = ""
  · rw [ht, eq_comm, (trims_trim s).eq_empty_iff]
    exact h.eq_empty_iff.1 ht
  · obtain ⟨before, behind, hsplit, hbefore, hbehind⟩ := h.split
    obtain ⟨c, cs, hcons⟩ := List.exists_cons_of_ne_nil fun h => ht (String.toList_eq_nil_iff.1 h)
    have hstops : Stops isBlank (t.toList ++ behind) := by
      rw [hcons]
      exact stops_cons (h.head c (by simp [hcons])) _
    have hfront : s.toList.dropWhile isBlank = t.toList ++ behind := by
      rw [hsplit]
      exact dropWhile_append_stops hbefore hstops
    have hback : (behind.reverse ++ t.toList.reverse).dropWhile isBlank = t.toList.reverse :=
      dropWhile_append_stops (by simpa using hbehind) h.last
    rw [trim, trimChars, hfront, List.reverse_append, hback, List.reverse_reverse,
      String.ofList_toList]

end Scorebook.Text

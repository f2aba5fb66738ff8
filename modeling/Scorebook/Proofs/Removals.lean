import Mathlib.Data.List.DropRight
import Scorebook.Engraving.Pending

/-!
# Every mark leaves once

Decorations are pushed one by one, and they leave all together: a note takes all that wait, and at
the end of a voice all that wait are handed back.

**Since the last removal.** After a row of operations those marks wait, in the order in which they
were pushed, that were pushed since the last removal (`waiting_after`). So a mark that is pushed
waits until the first removal behind it (`waiting_after_push`), which takes it out with all the
others and leaves nothing.

**Accounts.** One removal takes out what waits, in another order (`removed_perm`). Over a whole
run, what is taken out and what still waits at the end is what was pushed (`removedAll_perm`), so
nothing is lost and nothing leaves twice, also where equal marks are pushed more than once.

Main result: `performAll_gives_each_mark_once`.
-/

namespace Scorebook.Pending

/-! ## Operations -/

/-- What is done to decorations that wait. -/
inductive Operation where
  | push (category : Category) (mark : String)
  | drain
  | take
  deriving DecidableEq, Repr

/-- What a removal gives: the text behind a note, or the marks that belong to nothing. -/
inductive Given where
  | attached (text : String)
  | unattached (marks : List (Category × String))
  deriving DecidableEq, Repr

/-- What an operation gives, if it is a removal, and what waits after it. -/
def perform (p : Pending) : Operation → Option Given × Pending
  | .push category mark => (none, p.push category mark)
  | .drain => (some (.attached p.drain.1), p.drain.2)
  | .take => (some (.unattached p.take.1), p.take.2)

/-- What each of these operations gives, and what waits after the last one. -/
def performAll (p : Pending) : List Operation → List (Option Given) × Pending
  | [] => ([], p)
  | op :: ops =>
    let (given, rest) := p.perform op
    let (more, rest) := performAll rest ops
    (given :: more, rest)

/-- The marks that an operation takes out, in the order in which it does. -/
def removed (p : Pending) : Operation → List (Category × String)
  | .push _ _ => []
  | .drain => (takeOut List.reverse Category.order p).1
  | .take => (takeOut id Category.order p).1

/-- The marks that these operations take out one after the other. -/
def removedAll (p : Pending) : List Operation → List (Category × String)
  | [] => []
  | op :: ops => p.removed op ++ removedAll (p.perform op).2 ops

/-- What waits after these operations, when nothing waited before. -/
def after (ops : List Operation) : Pending :=
  (empty.performAll ops).2

/-! ## What was pushed -/

namespace Operation

def removes : Operation → Bool
  | push _ _ => false
  | drain => true
  | take => true

/-- The mark that is pushed, if it is written at all. -/
def pushed? : Operation → Option (Category × String)
  | push category mark => if mark = "" then none else some (category, mark)
  | drain => none
  | take => none

/-- The marks that are pushed, the earliest first. -/
def pushed (ops : List Operation) : List (Category × String) :=
  ops.filterMap pushed?

/-- The operations behind the last removal. -/
def sinceRemoval (ops : List Operation) : List Operation :=
  ops.rtakeWhile fun op => !op.removes

/-- The pushed marks of one category, the earliest first. -/
def marks (category : Category) (ops : List Operation) : List String :=
  ops.filterMap fun op => (op.pushed?.filter (·.1 = category)).map Prod.snd

/-- The marks of each category in this order, with their category. -/
def arranged (order : List String → List String) (ops : List Operation) :
    List (Category × String) :=
  (order (marks .dynamic ops)).map (.dynamic, ·) ++
    (order (marks .spanner ops)).map (.spanner, ·) ++
    (order (marks .text ops)).map (.text, ·) ++
    (order (marks .fermata ops)).map (.fermata, ·)

/-- The marks that an operation has to take out when these were done since the last removal: for a
note the latest of a category comes first, and when they are handed back the earliest. -/
def due (since : List Operation) : Operation → List (Category × String)
  | push _ _ => []
  | drain => arranged List.reverse since
  | take => arranged id since

/-- What an operation gives that takes out these marks. -/
def given (out : List (Category × String)) : Operation → Option Given
  | push _ _ => none
  | drain => some (.attached (String.join (out.map Prod.snd)))
  | take => some (.unattached out)

theorem sinceRemoval_concat (ops : List Operation) (op : Operation) :
    sinceRemoval (ops ++ [op]) = if op.removes then [] else sinceRemoval ops ++ [op] := by
  unfold sinceRemoval
  by_cases h : op.removes = true
  · rw [if_pos h, List.rtakeWhile_concat_neg _ _ _ (by simp [h])]
  · rw [if_neg h, List.rtakeWhile_concat_pos _ _ _ (by simp [h])]

theorem sinceRemoval_append {between : List Operation} (h : ∀ op ∈ between, op.removes = false)
    (ops : List Operation) : sinceRemoval (ops ++ between) = sinceRemoval ops ++ between := by
  induction between using List.reverseRecOn with
  | nil => rw [List.append_nil, List.append_nil]
  | append_singleton between op ih =>
    have hop : op.removes = false := h op (by simp)
    have hbetween := ih fun o ho => h o (List.mem_append_left _ ho)
    rw [← List.append_assoc, sinceRemoval_concat, hop, hbetween, List.append_assoc]
    rfl

theorem pushed_append (ops more : List Operation) :
    pushed (ops ++ more) = pushed ops ++ pushed more :=
  List.filterMap_append

theorem pushed_cons (op : Operation) (ops : List Operation) :
    pushed (op :: ops) = op.pushed?.toList ++ pushed ops := by
  unfold pushed
  cases h : op.pushed? <;> simp [h]

theorem pushed?_eq_none_of_removes {op : Operation} (h : op.removes = true) :
    op.pushed? = none := by
  cases op with
  | push category mark => cases h
  | drain | take => rfl

theorem mark_ne_of_mem_pushed {ops : List Operation} {entry : Category × String}
    (h : entry ∈ pushed ops) : entry.2 ≠ "" := by
  obtain ⟨op, -, hop⟩ := List.mem_filterMap.1 h
  cases op with
  | push category mark =>
    by_cases hmark : mark = ""
    · simp [pushed?, hmark] at hop
    · simp only [pushed?, if_neg hmark, Option.some.injEq] at hop
      rw [← hop]
      exact hmark
  | drain | take => cases hop

/-- The marks of a category that wait are those that were pushed. -/
theorem marks_pushed (ops : List Operation) (category : Category) :
    Pending.marks ⟨pushed ops⟩ category = marks category ops := by
  unfold Pending.marks marks pushed
  rw [List.filter_filterMap, List.map_filterMap]

end Operation

open Operation

/-! ## One operation -/

theorem waiting_push (p : Pending) (category : Category) (mark : String) :
    (p.push category mark).waiting =
      p.waiting ++ (Operation.push category mark).pushed?.toList := by
  by_cases h : mark = ""
  · simp [push, pushed?, h]
  · simp [push, pushed?, h]

/-- A removal leaves nothing, and a push leaves what waited and its own mark behind it. -/
theorem waiting_perform (p : Pending) (op : Operation) :
    (p.perform op).2.waiting = if op.removes then [] else p.waiting ++ op.pushed?.toList := by
  cases op with
  | push category mark => exact p.waiting_push category mark
  | drain =>
    show p.drain.2.waiting = []
    rw [drain_eq]
    rfl
  | take =>
    show p.take.2.waiting = []
    rw [take_eq]
    rfl

theorem perform_of_removes (p : Pending) {op : Operation} (h : op.removes = true) :
    (p.perform op).2 = empty := by
  have hwaiting : (p.perform op).2.waiting = [] := by rw [waiting_perform, if_pos h]
  exact congrArg Pending.mk hwaiting

/-- What an operation gives is made of the marks that it takes out. -/
theorem fst_perform (p : Pending) (op : Operation) :
    (p.perform op).1 = op.given (p.removed op) := by
  cases op <;> rfl

theorem fst_takeOut (order : List String → List String) {p : Pending} {since : List Operation}
    (h : p.waiting = pushed since) :
    (takeOut order Category.order p).1 = arranged order since := by
  have hmarks : ∀ category, p.marks category = Operation.marks category since := by
    intro category
    rw [← marks_pushed, ← h]
  rw [takeOut_eq order Category.nodup_order]
  simp [arranged, Category.order, hmarks]

/-- Where the marks wait that were pushed since the last removal, what is taken out is due. -/
theorem removed_eq_due {p : Pending} {since : List Operation} (h : p.waiting = pushed since)
    (op : Operation) : p.removed op = op.due since := by
  cases op with
  | push category mark => rfl
  | drain => exact fst_takeOut List.reverse h
  | take => exact fst_takeOut id h

/-! ## A run -/

theorem performAll_append (p : Pending) (ops more : List Operation) :
    p.performAll (ops ++ more) =
      ((p.performAll ops).1 ++ ((p.performAll ops).2.performAll more).1,
        ((p.performAll ops).2.performAll more).2) := by
  induction ops generalizing p with
  | nil => rfl
  | cons op ops ih =>
    simp only [List.cons_append, performAll, ih]

theorem length_performAll (p : Pending) (ops : List Operation) :
    (p.performAll ops).1.length = ops.length := by
  induction ops generalizing p with
  | nil => rfl
  | cons op ops ih => exact congrArg (· + 1) (ih (p.perform op).2)

theorem after_concat (ops : List Operation) (op : Operation) :
    after (ops ++ [op]) = ((after ops).perform op).2 := by
  rw [after, performAll_append]
  rfl

/-- **After a run those marks wait that were pushed since the last removal.** -/
theorem waiting_after (ops : List Operation) : (after ops).waiting = pushed (sinceRemoval ops) := by
  induction ops using List.reverseRecOn with
  | nil => rfl
  | append_singleton ops op ih =>
    rw [after_concat, waiting_perform, sinceRemoval_concat]
    split_ifs
    · rfl
    · rw [pushed_append, pushed_cons, ih]
      simp [pushed]

/-- Until the next removal a mark waits behind those that waited before it. -/
theorem waiting_after_push (before : List Operation) {category : Category} {mark : String}
    (hmark : mark ≠ "") {between : List Operation} (h : ∀ op ∈ between, op.removes = false) :
    (after (before ++ .push category mark :: between)).waiting =
      (after before).waiting ++ (category, mark) :: pushed between := by
  have hrow : ∀ op ∈ Operation.push category mark :: between, op.removes = false := by
    intro op hop
    rcases List.mem_cons.1 hop with rfl | hop
    · rfl
    · exact h op hop
  rw [waiting_after, waiting_after, sinceRemoval_append hrow, pushed_append, pushed_cons]
  simp [pushed?, hmark]

theorem removed_after (before : List Operation) (op : Operation) :
    (after before).removed op = op.due (sinceRemoval before) :=
  removed_eq_due (waiting_after before) op

/-- What an operation gives stands at its place. -/
theorem getElem?_performAll (before : List Operation) (op : Operation) (more : List Operation) :
    (empty.performAll (before ++ op :: more)).1[before.length]? =
      some (op.given ((after before).removed op)) := by
  have hlength := length_performAll empty before
  rw [performAll_append, List.getElem?_append_right (by omega), hlength, Nat.sub_self,
    ← fst_perform]
  rfl

/-! ## Accounts -/

/-- Taking out the marks of some categories moves them, and no mark else. -/
theorem takeOut_perm {arrange : List String → List String}
    (harrange : ∀ marks, (arrange marks).Perm marks) (categories : List Category) (p : Pending) :
    ((takeOut arrange categories p).1 ++ (takeOut arrange categories p).2.waiting).Perm
      p.waiting := by
  induction categories generalizing p with
  | nil => exact .rfl
  | cons category categories ih =>
    have hmarks : ((arrange (p.marks category)).map (category, ·)).Perm
        (p.waiting.filter (·.1 = category)) := by
      refine ((harrange _).map _).trans (.of_eq ?_)
      rw [marks, List.map_map]
      refine (List.map_congr_left ?_).trans (List.map_id _)
      intro entry hentry
      have hcategory : entry.1 = category := by simpa using (List.mem_filter.1 hentry).2
      exact Prod.ext hcategory.symm rfl
    rw [takeOut, List.append_assoc]
    refine (hmarks.append (ih (p.without category))).trans ?_
    have hsplit := List.filter_append_perm (·.1 = category) p.waiting
    simpa [without] using hsplit

theorem removed_perm (p : Pending) (op : Operation) :
    (p.removed op ++ (p.perform op).2.waiting).Perm (p.waiting ++ op.pushed?.toList) := by
  cases op with
  | push category mark => exact .of_eq (p.waiting_push category mark)
  | drain =>
    rw [pushed?_eq_none_of_removes rfl, Option.toList_none, List.append_nil]
    exact takeOut_perm List.reverse_perm Category.order p
  | take =>
    rw [pushed?_eq_none_of_removes rfl, Option.toList_none, List.append_nil]
    exact takeOut_perm List.Perm.refl Category.order p

/-- **What is taken out and what still waits is what was pushed.** -/
theorem removedAll_perm (p : Pending) (ops : List Operation) :
    (p.removedAll ops ++ (p.performAll ops).2.waiting).Perm (p.waiting ++ pushed ops) := by
  induction ops generalizing p with
  | nil => exact .of_eq (List.append_nil _).symm
  | cons op ops ih =>
    rw [removedAll, List.append_assoc, pushed_cons, ← List.append_assoc p.waiting]
    calc
      (p.removed op ++ (removedAll (p.perform op).2 ops ++
          ((p.perform op).2.performAll ops).2.waiting)).Perm
        (p.removed op ++ ((p.perform op).2.waiting ++ pushed ops)) := (ih _).append_left _
      _ = p.removed op ++ (p.perform op).2.waiting ++ pushed ops := (List.append_assoc ..).symm
      List.Perm _ (p.waiting ++ op.pushed?.toList ++ pushed ops) :=
        (p.removed_perm op).append_right _

theorem mark_ne_of_mem_removedAll {ops : List Operation} {entry : Category × String}
    (h : entry ∈ empty.removedAll ops) : entry.2 ≠ "" := by
  have hpushed := (removedAll_perm empty ops).subset (List.mem_append_left _ h)
  exact mark_ne_of_mem_pushed hpushed

/-- **Every mark that is written at all leaves once**, and at the first removal behind its push.
What is taken out at a time are the marks pushed since the last removal, in the order that is due,
and nothing waits then. -/
theorem performAll_gives_each_mark_once (ops : List Operation) :
    (empty.performAll ops).1.length = ops.length ∧
    (∀ before op more, ops = before ++ op :: more →
      (empty.performAll ops).1[before.length]? = some (op.given ((after before).removed op)) ∧
      (after before).removed op = op.due (sinceRemoval before) ∧
      (op.removes = true → after (before ++ [op]) = empty)) ∧
    (∀ before category mark between more,
      ops = before ++ .push category mark :: (between ++ more) → mark ≠ "" →
      (∀ op ∈ between, op.removes = false) →
      (after (before ++ .push category mark :: between)).waiting =
        (after before).waiting ++ (category, mark) :: pushed between) ∧
    (empty.removedAll ops ++ (after ops).waiting).Perm (pushed ops) ∧
    ∀ entry ∈ empty.removedAll ops, entry.2 ≠ "" := by
  refine ⟨length_performAll empty ops, ?_, ?_, removedAll_perm empty ops, ?_⟩
  · intro before op more hops
    refine ⟨?_, removed_after before op, fun hremoves => ?_⟩
    · rw [hops]
      exact getElem?_performAll before op more
    · rw [after_concat]
      exact perform_of_removes _ hremoves
  · intro before category mark between more _ hmark hbetween
    exact waiting_after_push before hmark hbetween
  · intro entry hentry
    exact mark_ne_of_mem_removedAll hentry

/-- A note takes the latest mark of a category first and what is handed back comes with the earliest
first; a mark that is written as nothing does not wait. -/
example :
    (empty.performAll
      [.push .fermata "\\fermata", .push .dynamic "\\p", .push .dynamic "\\f", .drain, .drain,
        .push .dynamic "\\p", .push .text "", .push .dynamic "\\f", .take]).1 =
      [none, none, none, some (.attached "\\f\\p\\fermata"), some (.attached ""), none, none, none,
        some (.unattached [(.dynamic, "\\p"), (.dynamic, "\\f")])] := by
  decide

end Scorebook.Pending

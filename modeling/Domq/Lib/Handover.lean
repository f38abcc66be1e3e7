import Mathlib.Data.List.Basic
import Mathlib.Data.List.Nodup
import Mathlib.Data.List.Infix

/-!
# Hand-over histories

What a container has been given and what it has handed out, as a history of `put` and `take`
entries, oldest first.

* `outstanding`: what was put and not taken, in the order in which it was put.
* `Order`: first in first out, or last in first out. `Ordered`: every take hands out the first, or
  the last, of what is outstanding before it. `arrange` is how the outstanding items lie in a list
  from whose front they are taken.
* `Every`: a property of each entry and of what came before it.
* `Stores`: a list holds exactly what is outstanding, nothing is handed out twice, and the history
  is ordered. `Stores.put` and `Stores.take` are the two rules; they ask that the items put be
  distinct.
-/

namespace Domq.Lib.Handover

variable {α β : Type}

inductive Entry (α : Type)
  | put (x : α)
  | take (x : α)

def Entry.putItem : Entry α → Option α
  | .put x => some x
  | .take _ => none

def Entry.takenItem : Entry α → Option α
  | .put _ => none
  | .take x => some x

def puts (h : List (Entry α)) : List α := h.filterMap Entry.putItem

def takes (h : List (Entry α)) : List α := h.filterMap Entry.takenItem

open Classical in
/-- What was put and not taken. -/
noncomputable def outstanding (h : List (Entry α)) : List α := (puts h).filter (· ∉ takes h)

/-- Each entry, with the entries before it, has the property. -/
def Every (P : List β → β → Prop) (l : List β) : Prop := ∀ l₁ e l₂, l = l₁ ++ e :: l₂ → P l₁ e

theorem every_nil (P : List β → β → Prop) : Every P [] := fun _ _ _ h => by
  simp at h

theorem Every.snoc {P : List β → β → Prop} {l : List β} {e : β} (h : Every P l) (he : P l e) :
    Every P (l ++ [e]) := by
  intro l₁ e' l₂ heq
  rcases List.eq_nil_or_concat l₂ with rfl | ⟨l₂, e'', rfl⟩
  · obtain ⟨rfl, hlast⟩ := List.append_inj' heq rfl
    rwa [← (List.cons.inj hlast).1]
  · rw [List.concat_eq_append, ← List.cons_append, ← List.append_assoc] at heq
    exact h l₁ e' l₂ (List.append_inj' heq rfl).1

/-! ## Order -/

inductive Order
  | fifo
  | lifo

namespace Order

/-- The item to hand out next. -/
def next : Order → List α → Option α
  | fifo, l => l.head?
  | lifo, l => l.getLast?

/-- The items in the order in which they are handed out. -/
def arrange : Order → List α → List α
  | fifo, l => l
  | lifo, l => l.reverse

/-- An item is added. -/
def insert : Order → α → List α → List α
  | fifo, x, l => l ++ [x]
  | lifo, x, l => x :: l

theorem insert_arrange (o : Order) (x : α) (l : List α) :
    o.insert x (o.arrange l) = o.arrange (l ++ [x]) := by
  cases o with
  | fifo => rfl
  | lifo =>
    show x :: l.reverse = (l ++ [x]).reverse
    rw [List.reverse_append]
    rfl

@[simp] theorem length_insert (o : Order) (x : α) (l : List α) :
    (o.insert x l).length = l.length + 1 := by
  cases o with
  | fifo => exact List.length_append
  | lifo => rfl

@[simp] theorem length_arrange (o : Order) (l : List α) : (o.arrange l).length = l.length := by
  cases o with
  | fifo => rfl
  | lifo => exact List.length_reverse

@[simp] theorem mem_arrange (o : Order) {x : α} {l : List α} : x ∈ o.arrange l ↔ x ∈ l := by
  cases o with
  | fifo => rfl
  | lifo => exact List.mem_reverse

theorem next_of_arrange {o : Order} {x : α} {l rest : List α} (h : o.arrange l = x :: rest) :
    o.next l = some x := by
  cases o with
  | fifo => exact congrArg List.head? h
  | lifo =>
    show l.getLast? = some x
    rw [← List.head?_reverse]
    exact congrArg List.head? h

theorem nodup_arrange (o : Order) {l : List α} : (o.arrange l).Nodup ↔ l.Nodup := by
  cases o with
  | fifo => rfl
  | lifo => exact List.nodup_reverse

theorem arrange_filter (o : Order) (p : α → Bool) (l : List α) :
    o.arrange (l.filter p) = (o.arrange l).filter p := by
  cases o with
  | fifo => rfl
  | lifo => exact List.filter_reverse.symm

end Order

/-- Every take hands out the item that is next. -/
def Ordered (o : Order) (h : List (Entry α)) : Prop :=
  Every (fun h₁ e => ∀ x, e = .take x → o.next (outstanding h₁) = some x) h

/-! ## Histories that grow -/

variable {o : Order} {h : List (Entry α)} {data rest : List α} {x : α}

@[simp] theorem puts_snoc_put : puts (h ++ [.put x]) = puts h ++ [x] := by
  rw [puts, List.filterMap_append]
  rfl

@[simp] theorem puts_snoc_take : puts (h ++ [.take x]) = puts h := by
  rw [puts, List.filterMap_append]
  exact List.append_nil _

@[simp] theorem takes_snoc_put : takes (h ++ [.put x]) = takes h := by
  rw [takes, List.filterMap_append]
  exact List.append_nil _

@[simp] theorem takes_snoc_take : takes (h ++ [.take x]) = takes h ++ [x] := by
  rw [takes, List.filterMap_append]
  rfl

theorem mem_outstanding : x ∈ outstanding h ↔ x ∈ puts h ∧ x ∉ takes h := by
  simp [outstanding]

theorem outstanding_put (hx : x ∉ takes h) :
    outstanding (h ++ [.put x]) = outstanding h ++ [x] := by
  unfold outstanding
  rw [puts_snoc_put, takes_snoc_put, List.filter_append]
  congr 1
  simp [hx]

open Classical in
theorem outstanding_take :
    outstanding (h ++ [.take x]) = (outstanding h).filter (· ≠ x) := by
  unfold outstanding
  rw [puts_snoc_take, takes_snoc_take, List.filter_filter]
  apply List.filter_congr
  intro y _
  simp [and_comm]

/-! ## A list that holds what is outstanding -/

structure Stores (o : Order) (h : List (Entry α)) (data : List α) : Prop where
  eq : data = o.arrange (outstanding h)
  distinct : (puts h).Nodup
  once : (takes h).Nodup
  taken : ∀ y ∈ takes h, y ∈ puts h
  ordered : Ordered o h

theorem stores_nil (o : Order) : Stores o ([] : List (Entry α)) [] where
  eq := by cases o <;> rfl
  distinct := List.nodup_nil
  once := List.nodup_nil
  taken := fun _ hy => hy
  ordered := every_nil _

theorem Stores.mem_iff (hs : Stores o h data) : x ∈ data ↔ x ∈ puts h ∧ x ∉ takes h := by
  rw [hs.eq, Order.mem_arrange, mem_outstanding]

theorem Stores.length (hs : Stores o h data) : data.length = (outstanding h).length := by
  rw [hs.eq, Order.length_arrange]

/-- **Putting.** -/
theorem Stores.put (hs : Stores o h data) (hx : x ∉ puts h) :
    Stores o (h ++ [.put x]) (o.insert x data) where
  eq := by rw [hs.eq, Order.insert_arrange, outstanding_put fun ht => hx (hs.taken x ht)]
  distinct := by
    rw [puts_snoc_put, ← List.concat_eq_append]
    exact hs.distinct.concat hx
  once := by
    rw [takes_snoc_put]
    exact hs.once
  taken := by
    intro y hy
    rw [takes_snoc_put] at hy
    rw [puts_snoc_put]
    exact List.mem_append_left _ (hs.taken y hy)
  ordered := hs.ordered.snoc fun _ he => nomatch he

/-- **Taking** the front of the list. -/
theorem Stores.take (hs : Stores o h (x :: rest)) : Stores o (h ++ [.take x]) rest where
  eq := by
    classical
    have hnodup : (x :: rest).Nodup := by
      rw [hs.eq, Order.nodup_arrange]
      exact hs.distinct.filter _
    have hrest : rest.filter (fun y => decide (y ≠ x)) = rest :=
      List.filter_eq_self.mpr fun y hy => by
        simpa using ne_of_mem_of_not_mem hy (List.nodup_cons.mp hnodup).1
    rw [outstanding_take, Order.arrange_filter, ← hs.eq, List.filter_cons_of_neg (by simp), hrest]
  distinct := by
    rw [puts_snoc_take]
    exact hs.distinct
  once := by
    rw [takes_snoc_take, ← List.concat_eq_append]
    exact hs.once.concat (hs.mem_iff.mp List.mem_cons_self).2
  taken := by
    intro y hy
    rw [puts_snoc_take]
    rw [takes_snoc_take, List.mem_append, List.mem_singleton] at hy
    rcases hy with hy | rfl
    · exact hs.taken y hy
    · exact (hs.mem_iff.mp List.mem_cons_self).1
  ordered := by
    refine hs.ordered.snoc fun y he => ?_
    cases he
    exact Order.next_of_arrange hs.eq.symm

end Domq.Lib.Handover

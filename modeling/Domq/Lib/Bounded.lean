import Mathlib.Data.List.Basic
import Mathlib.Order.Lattice

/-!
# Lists with a capacity

A list that never holds more than its capacity; the capacity can only grow.

* `put d w`: the items from `d` on are replaced by `w`, as far as `w` reaches.
* `shrink k`: at most the first `k` are kept, and there is room for `k`.
* `dropEnd k`, `clear`: the last `k`, all of them are dropped.
* `Grows k`: `k` items of any kind are added within the capacity.
-/

namespace Domq.Lib

@[ext] structure Bounded (α : Type) where
  items : List α
  capacity : Nat
  fits : items.length ≤ capacity

namespace Bounded

variable {α : Type}

def empty (capacity : Nat) : Bounded α := ⟨[], capacity, Nat.zero_le _⟩

def free (t : Bounded α) : Nat := t.capacity - t.items.length

def put (d : Nat) (w : List α) (t : Bounded α) : Bounded α :=
  ⟨t.items.take d ++ w ++ t.items.drop (d + w.length), max t.capacity (d + w.length), by
    have hfits := t.fits
    simp only [List.length_append, List.length_take, List.length_drop]
    omega⟩

def shrink (k : Nat) (t : Bounded α) : Bounded α :=
  ⟨t.items.take k, max t.capacity k, by
    rw [List.length_take]
    omega⟩

def dropEnd (k : Nat) (t : Bounded α) : Bounded α :=
  ⟨t.items.take (t.items.length - k), t.capacity, by
    have hfits := t.fits
    rw [List.length_take]
    omega⟩

def clear (t : Bounded α) : Bounded α := ⟨[], t.capacity, Nat.zero_le _⟩

/-- `t'` is `t` with `k` items more. -/
def Grows (k : Nat) (t t' : Bounded α) : Prop :=
  t'.capacity = t.capacity ∧ ∃ tail, tail.length = k ∧ t'.items = t.items ++ tail

theorem items_put (d : Nat) (w : List α) (t : Bounded α) :
    (t.put d w).items = t.items.take d ++ w ++ t.items.drop (d + w.length) := rfl

/-- What is put at the end is appended. -/
@[simp] theorem items_put_end (w : List α) (t : Bounded α) :
    (t.put t.items.length w).items = t.items ++ w := by
  rw [items_put, List.take_length, List.drop_of_length_le (Nat.le_add_right _ _), List.append_nil]

/-- Nothing is lost when there is room for everything. -/
theorem items_shrink {k : Nat} {t : Bounded α} (h : t.items.length ≤ k) :
    (t.shrink k).items = t.items := List.take_of_length_le h

end Bounded

end Domq.Lib

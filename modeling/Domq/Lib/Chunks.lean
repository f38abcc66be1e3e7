import Mathlib.Data.List.Basic

/-!
# Cutting items off a stream

A reader gets a stream in pieces and cuts complete items off the front of what it has. `Cutter` is
the operation that takes one item: it makes the input shorter, and more input behind does not change
what it takes. `Cuts l bs r` says that the items that can be taken from `l` are `bs`, and then `r`
is left.

* `Cutter.cuts_exists`, `Cuts.unique`: the items and the rest are determined.
* `Cuts.append`: it makes no difference where the input is cut into pieces: what is left of the
  first piece, with the second behind, gives the remaining items.
-/

namespace Domq.Lib

/-- Taking one item off the front. -/
structure Cutter (α β : Type) where
  cut : List α → Option (β × List α)
  shorter : ∀ {l b r}, cut l = some (b, r) → r.length < l.length
  stable : ∀ {l b r} (m : List α), cut l = some (b, r) → cut (l ++ m) = some (b, r ++ m)

variable {α β : Type}

/-- The items that can be taken from a list, and what is left. -/
inductive Cuts (C : Cutter α β) : List α → List β → List α → Prop
  | done {l : List α} (h : C.cut l = none) : Cuts C l [] l
  | item {l l' r : List α} {b : β} {bs : List β} (h : C.cut l = some (b, l'))
      (ht : Cuts C l' bs r) :
      Cuts C l (b :: bs) r

theorem Cutter.cuts_exists (C : Cutter α β) (l : List α) : ∃ bs r, Cuts C l bs r := by
  induction hn : l.length using Nat.strongRecOn generalizing l with
  | ind n ih =>
    cases h : C.cut l with
    | none => exact ⟨[], l, .done h⟩
    | some br =>
      obtain ⟨b, l'⟩ := br
      obtain ⟨bs, r, ht⟩ := ih l'.length (hn ▸ C.shorter h) l' rfl
      exact ⟨b :: bs, r, .item h ht⟩

variable {C : Cutter α β} {l m r r' : List α} {bs bs' : List β}

theorem Cuts.unique (h : Cuts C l bs r) (h' : Cuts C l bs' r') : bs = bs' ∧ r = r' := by
  induction h generalizing bs' with
  | done hnone =>
    cases h' with
    | done _ => exact ⟨rfl, rfl⟩
    | item hsome _ =>
      rw [hnone] at hsome
      cases hsome
  | item hsome _ ih =>
    cases h' with
    | done hnone =>
      rw [hnone] at hsome
      cases hsome
    | item hsome' ht' =>
      rw [hsome] at hsome'
      cases hsome'
      obtain ⟨rfl, rfl⟩ := ih ht'
      exact ⟨rfl, rfl⟩

theorem Cuts.cut_rest (h : Cuts C l bs r) : C.cut r = none := by
  induction h with
  | done hnone => exact hnone
  | item _ _ ih => exact ih

/-- **Pieces make no difference.** -/
theorem Cuts.append (h : Cuts C l bs r) (h' : Cuts C (r ++ m) bs' r') :
    Cuts C (l ++ m) (bs ++ bs') r' := by
  induction h with
  | done _ => exact h'
  | item hsome _ ih => exact .item (C.stable m hsome) (ih h')

end Domq.Lib

import Mathlib.Data.List.Basic
import Mathlib.Data.List.Induction
import Mathlib.Data.List.Pairwise
import Mathlib.Data.List.TakeWhile
import Mathlib.Order.Basic

/-!
# Recency lists

A list of keys with stamps, the most recently used key first. `use` moves a key to the front with a
new stamp. When stamps never decrease the list is ordered by stamp as well, so the keys stamped
before a given time are a suffix of it; a walk from the back that stops at the first other key meets
exactly these.

* `recency us`: the recency list after the uses `us`; it holds every key used with its last stamp
  (`mem_recency`).
* `filter_use`: using a key and looking at part of the keys commute.
* `sorted_use`: uses with growing stamps keep the order.
* `length_takeWhile`: a walk over a list where `P` cannot come back counts `P`.
* `of_mem_drop`, `countP_take_of_pairwise`: the elements with such a property are the last ones.
* `sublist_eq_filter`: a sublist without repetition is what is left when the others are dropped.
-/

namespace Domq.Lib

variable {κ τ α : Type}

/-- `k` is used at `v`. -/
def use [DecidableEq κ] (k : κ) (v : τ) (l : List (κ × τ)) : List (κ × τ) :=
  (k, v) :: l.filter fun u => u.1 ≠ k

section

variable [DecidableEq κ]

theorem filter_use (P : κ → Bool) (k : κ) (v : τ) (l : List (κ × τ)) :
    (use k v l).filter (fun u => P u.1) =
      if P k then use k v (l.filter fun u => P u.1) else l.filter fun u => P u.1 := by
  have hcomm : (l.filter fun u => u.1 ≠ k).filter (fun u => P u.1) =
      (l.filter fun u => P u.1).filter fun u => u.1 ≠ k := List.filter_comm ..
  unfold use
  by_cases hk : P k
  · rw [if_pos hk, List.filter_cons_of_pos (by simpa using hk), hcomm]
  · rw [if_neg hk, List.filter_cons_of_neg (by simpa using hk), hcomm, List.filter_eq_self]
    intro u hu
    have hPu : P u.1 := (List.mem_filter.mp hu).2
    simp only [ne_eq, decide_eq_true_eq]
    rintro rfl
    exact hk hPu

theorem mem_use {k : κ} {v : τ} {l : List (κ × τ)} {u : κ × τ} :
    u ∈ use k v l ↔ u = (k, v) ∨ (u ∈ l ∧ u.1 ≠ k) := by
  simp [use]

theorem sorted_use [Preorder τ] {k : κ} {v : τ} {l : List (κ × τ)}
    (hl : l.Pairwise fun a b => b.2 ≤ a.2) (hv : ∀ u ∈ l, u.2 ≤ v) :
    (use k v l).Pairwise fun a b => b.2 ≤ a.2 := by
  refine List.pairwise_cons.mpr ⟨fun u hu => ?_, hl.filter _⟩
  exact hv u (List.mem_filter.mp hu).1

/-- The recency list after `us`, given in the order of time. -/
def recency (us : List (κ × τ)) : List (κ × τ) := us.foldl (fun l u => use u.1 u.2 l) []

/-- The last stamp of `k`. -/
def lastUse (us : List (κ × τ)) (k : κ) : Option τ :=
  (us.reverse.find? fun u => u.1 = k).map Prod.snd

@[simp] theorem recency_append (us : List (κ × τ)) (u : κ × τ) :
    recency (us ++ [u]) = use u.1 u.2 (recency us) := by
  simp [recency, List.foldl_append]

theorem lastUse_append (us : List (κ × τ)) (v : κ × τ) (k : κ) :
    lastUse (us ++ [v]) k = if v.1 = k then some v.2 else lastUse us k := by
  unfold lastUse
  rw [List.reverse_append, List.reverse_singleton, List.singleton_append, List.find?_cons]
  by_cases hv : v.1 = k
  · simp [hv]
  · simp [hv]

theorem mem_recency {us : List (κ × τ)} {u : κ × τ} :
    u ∈ recency us ↔ lastUse us u.1 = some u.2 := by
  induction us using List.reverseRecOn with
  | nil => simp [recency, lastUse]
  | append_singleton us v ih =>
    rw [recency_append, mem_use, lastUse_append, ih]
    by_cases hv : v.1 = u.1
    · rw [if_pos hv, Option.some.injEq]
      constructor
      · rintro (rfl | ⟨-, hne⟩)
        · rfl
        · exact absurd hv.symm hne
      · intro h
        exact .inl (Prod.ext hv.symm h.symm)
    · rw [if_neg hv]
      constructor
      · rintro (rfl | ⟨h, -⟩)
        · exact absurd rfl hv
        · exact h
      · exact fun h => .inr ⟨h, Ne.symm hv⟩

theorem sorted_recency [Preorder τ] {us : List (κ × τ)}
    (hus : us.Pairwise fun a b => a.2 ≤ b.2) : (recency us).Pairwise fun a b => b.2 ≤ a.2 := by
  induction us using List.reverseRecOn with
  | nil => exact List.Pairwise.nil
  | append_singleton us v ih =>
    obtain ⟨hus', -, hle⟩ := List.pairwise_append.mp hus
    rw [recency_append]
    refine sorted_use (ih hus') fun u hu => ?_
    have hmem := mem_recency.mp hu
    obtain ⟨x, hx, hxu⟩ := Option.map_eq_some_iff.mp hmem
    rw [← hxu]
    exact hle x (List.mem_reverse.mp (List.mem_of_find?_eq_some hx)) v (by simp)

end

/-- A walk from the front as long as `P` holds, where `P` does not come back once it has failed. -/
theorem length_takeWhile (P : α → Bool) {l : List α} (hl : l.Pairwise fun a b => P b → P a) :
    (l.takeWhile P).length = l.countP P := by
  induction l with
  | nil => rfl
  | cons a l ih =>
    obtain ⟨ha, hl'⟩ := List.pairwise_cons.mp hl
    by_cases hP : P a
    · rw [List.takeWhile_cons_of_pos hP, List.countP_cons_of_pos hP, List.length_cons, ih hl']
    · have hnone : l.countP P = 0 := by
        rw [List.countP_eq_zero]
        exact fun b hb hPb => hP (ha b hb hPb)
      rw [List.takeWhile_cons_of_neg hP, List.countP_cons_of_neg hP, hnone, List.length_nil]

/-- Where `P`, once true, stays true to the end of the list, the last elements have it. -/
theorem of_mem_drop (P : α → Bool) {l : List α} (hl : l.Pairwise fun a b => P a → P b) {n : Nat}
    (hn : n ≤ l.countP P) {a : α} (ha : a ∈ l.drop (l.length - n)) : P a := by
  have hrev : l.reverse.Pairwise fun a b => P b → P a := List.pairwise_reverse.mpr hl
  have hlen := length_takeWhile P hrev
  rw [List.countP_reverse] at hlen
  have hmem : a ∈ l.reverse.take n := by
    rw [List.take_reverse, List.mem_reverse]
    exact ha
  rw [← List.takeWhile_append_dropWhile (p := P) (l := l.reverse),
    List.take_append_of_le_length (by omega)] at hmem
  exact List.mem_takeWhile_imp (List.mem_of_mem_take hmem)

theorem countP_take_of_pairwise (P : α → Bool) {l : List α}
    (hl : l.Pairwise fun a b => P a → P b) {n : Nat} (hn : n ≤ l.countP P) :
    (l.take (l.length - n)).countP P = l.countP P - n := by
  have hlast : (l.drop (l.length - n)).countP P = n := by
    rw [List.countP_eq_length.mpr fun a ha => of_mem_drop P hl hn ha, List.length_drop]
    have := List.countP_le_length (p := P) (l := l)
    omega
  have hsum : l.countP P = (l.take (l.length - n)).countP P + (l.drop (l.length - n)).countP P := by
    rw [← List.countP_append, List.take_append_drop]
  omega

theorem sublist_eq_filter [DecidableEq κ] {f : α → κ} {l l' : List α} (h : l'.Sublist l)
    (hl : (l.map f).Nodup) : l' = l.filter fun a => f a ∈ l'.map f := by
  induction h with
  | slnil => rfl
  | @cons l₁ l₂ a h ih =>
    rw [List.map_cons, List.nodup_cons] at hl
    have ha : f a ∉ l₁.map f := fun hmem => hl.1 ((h.map f).subset hmem)
    rw [List.filter_cons_of_neg (by simpa using ha)]
    exact ih hl.2
  | @cons_cons l₁ l₂ a h ih =>
    rw [List.map_cons, List.nodup_cons] at hl
    rw [List.filter_cons_of_pos (by simp)]
    congr 1
    rw [List.filter_congr (q := fun x => decide (f x ∈ l₁.map f))]
    · exact ih hl.2
    · intro x hx
      have hne : f x ≠ f a := fun hxa => hl.1 (hxa ▸ List.mem_map_of_mem hx)
      simp [hne]

end Domq.Lib

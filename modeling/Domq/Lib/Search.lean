import Domq.Lib.Text
import Mathlib.Data.List.Infix

/-!
# Searching strings

The searches of `std::string`, over any type of characters; `none` is `npos`.

* `rfind w s`: the last position of `w` in `s`. There is none exactly when `w` does not occur
  (`rfind_eq_none_iff`), and behind any text a word is found where it was appended
  (`rfind_append_self`).
* `infix_of_infix_append`: when appending a text makes no new occurrence of a word.
* `findFirstOf del s pos`: the first position from `pos` on of a character of `del`.
* `IsTokens del s ws`: the words `ws` are the longest pieces of `s` without a character of `del`, in
  order. There is exactly one such list, `tokens del s` (`isTokens_iff`).
-/

namespace Domq.Lib

variable {α : Type} [DecidableEq α]

/-- `s.rfind(w)`. -/
def rfind (w : List α) : List α → Option Nat
  | [] => if w = [] then some 0 else none
  | a :: s =>
    match rfind w s with
    | some i => some (i + 1)
    | none => if w <+: a :: s then some 0 else none

theorem rfind_eq_none_iff (w s : List α) : rfind w s = none ↔ ¬ w <:+: s := by
  induction s with
  | nil => simp [rfind]
  | cons a s ih =>
    rw [rfind, List.infix_cons_iff, not_or]
    rcases h : rfind w s with - | i
    · simp only [ite_eq_right_iff, reduceCtorEq, imp_false]
      exact ⟨fun hp => ⟨hp, ih.mp h⟩, And.left⟩
    · rw [h] at ih
      simp only [reduceCtorEq, false_iff, not_not] at ih ⊢
      exact fun hn => hn.2 ih

/-- What is found lies inside the text. -/
theorem rfind_add_length_le {w s : List α} {i : Nat} (h : rfind w s = some i) :
    i + w.length ≤ s.length := by
  induction s generalizing i with
  | nil =>
    rw [rfind] at h
    split at h
    · rename_i hw
      simp only [Option.some.injEq] at h
      simp [hw, ← h]
    · simp at h
  | cons a s ih =>
    rw [rfind] at h
    rcases hs : rfind w s with - | j
    · simp only [hs] at h
      split at h
      · rename_i hp
        simp only [Option.some.injEq] at h
        have := hp.length_le
        omega
      · simp at h
    · simp only [hs, Option.some.injEq] at h
      have := ih hs
      simp only [List.length_cons]
      omega

/-- **A word is found where it was appended.** -/
theorem rfind_append_self {w : List α} (hw : w ≠ []) (s : List α) :
    rfind w (s ++ w) = some s.length := by
  induction s with
  | nil =>
    obtain ⟨a, v, rfl⟩ := List.exists_cons_of_ne_nil hw
    have hnone : rfind (a :: v) v = none := by
      rw [rfind_eq_none_iff]
      intro h
      have := h.length_le
      simp only [List.length_cons] at this
      omega
    rw [List.nil_append, rfind, hnone]
    simp
  | cons a s ih =>
    rw [List.cons_append, rfind, ih]
    rfl

omit [DecidableEq α] in
/-- A word none of whose ends begins `t`, and that is not in `t`, is in `s ++ t` only inside `s`. -/
theorem infix_of_infix_append {w s t : List α} (ht : ¬ w <:+: t)
    (hends : ∀ v ∈ w.tails, v <+: t → v = []) (h : w <:+: s ++ t) : w <:+: s := by
  obtain ⟨u, x, hux⟩ := h
  rcases List.append_eq_append_iff.mp hux with ⟨c, rfl, -⟩ | ⟨c, huw, rfl⟩
  · exact ⟨u, c, rfl⟩
  · rcases List.append_eq_append_iff.mp huw with ⟨e, rfl, rfl⟩ | ⟨d, rfl, rfl⟩
    · have hc : c = [] := hends c ((List.mem_tails _ _).mpr (List.suffix_append e c))
        (List.prefix_append c x)
      subst hc
      exact ⟨u, [], by simp⟩
    · exact absurd ⟨d, x, rfl⟩ ht

/-! ## Tokens -/

/-- `s.find_first_of(del, pos)`. -/
def findFirstOf (del s : List α) (pos : Nat) : Option Nat :=
  ((s.drop pos).findIdx? fun a => a ∈ del).map fun i => pos + i

theorem findFirstOf_eq_none {del s : List α} {pos : Nat} (h : findFirstOf del s pos = none) :
    ∀ a ∈ s.drop pos, a ∉ del := by
  simpa [findFirstOf] using h

/-- What stands before the first delimiter, and behind it. -/
theorem findFirstOf_eq_some {del s : List α} {pos i : Nat} (h : findFirstOf del s pos = some i) :
    ∃ w a rest, s.drop pos = w ++ a :: rest ∧ (∀ b ∈ w, b ∉ del) ∧ a ∈ del ∧
      i = pos + w.length := by
  obtain ⟨j, hj, rfl⟩ := Option.map_eq_some_iff.mp h
  obtain ⟨hlt, hp, hbefore⟩ := List.findIdx?_eq_some_iff_getElem.mp hj
  refine ⟨(s.drop pos).take j, (s.drop pos)[j], (s.drop pos).drop (j + 1), ?_, ?_, ?_, ?_⟩
  · rw [List.getElem_cons_drop, List.take_append_drop]
  · intro b hb
    obtain ⟨k, hk, rfl⟩ := List.mem_take_iff_getElem.mp hb
    simpa using hbefore k (by omega)
  · simpa using hp
  · rw [List.length_take, Nat.min_eq_left (by omega)]

/-- `s` is a sequence of words free of delimiters, each not empty and with delimiters around it. -/
inductive IsTokens (del : List α) : List α → List (List α) → Prop
  | nil {d : List α} (hd : ∀ a ∈ d, a ∈ del) : IsTokens del d []
  | cons {d w s : List α} {ws : List (List α)} (hd : ∀ a ∈ d, a ∈ del) (hw : w ≠ [])
      (hfree : ∀ a ∈ w, a ∉ del) (hmax : ∀ a ∈ s.head?, a ∈ del) (h : IsTokens del s ws) :
      IsTokens del (d ++ (w ++ s)) (w :: ws)

/-- The words of a text. -/
def tokens (del s : List α) : List (List α) := (s.splitOnP fun a => a ∈ del).filter fun w => w ≠ []

theorem tokens_of_free {del w : List α} (hw : w ≠ []) (hfree : ∀ a ∈ w, a ∉ del) :
    tokens del w = [w] := by
  unfold tokens
  rw [List.splitOnP_eq_singleton (by simpa using hfree)]
  simp [hw]

theorem tokens_append_cons {del w : List α} (hfree : ∀ a ∈ w, a ∉ del) {a : α} (ha : a ∈ del)
    (s : List α) :
    tokens del (w ++ a :: s) = (if w = [] then [] else [w]) ++ tokens del s := by
  unfold tokens
  rw [List.splitOnP_append_cons_of_forall_mem (by simpa using hfree) a (by simpa using ha),
    List.filter_cons]
  by_cases hw : w = []
  · simp [hw]
  · simp [hw]

theorem tokens_append_of_del {del d : List α} (hd : ∀ a ∈ d, a ∈ del) (s : List α) :
    tokens del (d ++ s) = tokens del s := by
  induction d with
  | nil => rfl
  | cons a d ih =>
    have h := tokens_append_cons (w := []) (by simp) (hd a List.mem_cons_self) (d ++ s)
    rw [List.nil_append, if_pos rfl, List.nil_append] at h
    rw [List.cons_append, h, ih fun b hb => hd b (List.mem_cons_of_mem a hb)]

theorem IsTokens.eq_tokens {del s : List α} {ws : List (List α)} (h : IsTokens del s ws) :
    ws = tokens del s := by
  induction h with
  | @nil d hd =>
    have h := tokens_append_of_del hd []
    rw [List.append_nil] at h
    rw [h]
    rfl
  | @cons d w s ws hd hw hfree hmax _ ih =>
    rw [tokens_append_of_del hd, ih]
    rcases s with - | ⟨a, s⟩
    · rw [List.append_nil, tokens_of_free hw hfree]
      rfl
    · have ha : a ∈ del := hmax a rfl
      have hs : tokens del (a :: s) = tokens del s :=
        tokens_append_of_del (d := [a]) (by simpa using ha) s
      rw [tokens_append_cons hfree ha, if_neg hw, hs]
      rfl

omit [DecidableEq α] in
/-- A delimiter before a text changes nothing. -/
theorem IsTokens.cons_del {del s : List α} {ws : List (List α)} (h : IsTokens del s ws) {a : α}
    (ha : a ∈ del) : IsTokens del (a :: s) ws := by
  have hall : ∀ {d : List α}, (∀ b ∈ d, b ∈ del) → ∀ b ∈ a :: d, b ∈ del := by
    intro d hd b hb
    rcases List.mem_cons.mp hb with rfl | hb
    · exact ha
    · exact hd b hb
  rcases h with hd | ⟨hd, hw, hfree, hmax, h⟩
  · exact .nil (hall hd)
  · exact .cons (d := a :: _) (hall hd) hw hfree hmax h

omit [DecidableEq α] in
/-- A character before a text that starts with a word makes the word longer. -/
theorem IsTokens.cons_free {del s : List α} {ws : List (List α)} {a b : α}
    (h : IsTokens del (b :: s) ws) (ha : a ∉ del) (hb : b ∉ del) :
    ∃ ws', IsTokens del (a :: b :: s) ws' := by
  generalize hs : b :: s = t at h
  rcases h with hd | @⟨d, w, t', ws', hd, hw, hfree, hmax, h⟩
  · exact absurd (hd b (hs ▸ List.mem_cons_self)) hb
  · have hnil : d = [] := by
      rcases d with - | ⟨c, d⟩
      · rfl
      · obtain ⟨rfl, -⟩ := List.cons.inj hs
        exact absurd (hd b List.mem_cons_self) hb
    subst hnil
    refine ⟨_, .cons (d := []) (w := a :: w) hd (List.cons_ne_nil a w) ?_ hmax h⟩
    intro c hc
    rcases List.mem_cons.mp hc with rfl | hc
    · exact ha
    · exact hfree c hc

theorem exists_isTokens (del s : List α) : ∃ ws, IsTokens del s ws := by
  induction s with
  | nil => exact ⟨[], .nil (by simp)⟩
  | cons a s ih =>
    obtain ⟨ws, h⟩ := ih
    by_cases ha : a ∈ del
    · exact ⟨ws, h.cons_del ha⟩
    · -- the character is a word of its own, unless it goes on with the next one
      have hone : (∀ b ∈ s.head?, b ∈ del) → IsTokens del (a :: s) ([a] :: ws) := fun hmax =>
        .cons (d := []) (w := [a]) (by simp) (by simp) (by simpa using ha) hmax h
      rcases s with - | ⟨b, s⟩
      · exact ⟨_, hone (by simp)⟩
      · by_cases hb : b ∈ del
        · exact ⟨_, hone (by simpa using hb)⟩
        · exact h.cons_free ha hb

theorem isTokens_tokens (del s : List α) : IsTokens del s (tokens del s) := by
  obtain ⟨ws, h⟩ := exists_isTokens del s
  rwa [← h.eq_tokens]

/-- **The words of a text are determined by it.** -/
theorem isTokens_iff {del s : List α} {ws : List (List α)} :
    IsTokens del s ws ↔ ws = tokens del s := by
  constructor
  · exact IsTokens.eq_tokens
  · rintro rfl
    exact isTokens_tokens del s

end Domq.Lib

import Mathlib.Data.List.Find
import Mathlib.Data.List.Nodup
import Mathlib.Logic.Function.Basic
import Mathlib.Tactic.Common

/-!
# The latest live holder of a key

Holders are opened for a key, several for one key, and end some time. `hist` is the history of
openings, oldest first, and `key i` the key of the holder `i` as long as it lives.

* `latest hist key k`: the holder of `k` that was opened last among those that live.
* `latest_open`: a new holder is the latest one of its key, and of no other.
* `latest_end`: when holders end, nothing changes for the keys none of them had;
  `latest_eq_none_iff`: there is no latest holder exactly if there is none.
-/

namespace Domq.Lib

variable {I K : Type} [DecidableEq I] [DecidableEq K]

/-- The holder of `k` opened last of those that live. -/
def latest (hist : List (I × K)) (key : I → Option K) (k : K) : Option I :=
  (hist.reverse.find? fun o => o.2 = k && (key o.1).isSome).map Prod.fst

/-- No holder was opened twice, and who lives was opened for the key it has. -/
structure Known (hist : List (I × K)) (key : I → Option K) : Prop where
  nodup : (hist.map Prod.fst).Nodup
  mem : ∀ {i k}, key i = some k → (i, k) ∈ hist

/-- The keys of the holders when those in `ends` have ended. -/
def without (key : I → Option K) (ends : List I) (i : I) : Option K :=
  if i ∈ ends then none else key i

variable {hist : List (I × K)} {key : I → Option K} {i : I} {k : K}

omit [DecidableEq I] [DecidableEq K] in
theorem Known.key_eq (h : Known hist key) {k' : K} (hmem : (i, k) ∈ hist) (hk : key i = some k') :
    k' = k :=
  (Prod.mk.inj (List.inj_on_of_nodup_map h.nodup (h.mem hk) hmem rfl)).2

omit [DecidableEq K] in
theorem Known.without (h : Known hist key) (ends : List I) : Known hist (without key ends) := by
  refine ⟨h.nodup, fun {i k} hk => ?_⟩
  unfold Lib.without at hk
  split at hk
  · simp at hk
  · exact h.mem hk

omit [DecidableEq K] in
theorem Known.open (h : Known hist key) (hi : i ∉ hist.map Prod.fst) (k : K) :
    Known (hist ++ [(i, k)]) (Function.update key i (some k)) := by
  refine ⟨?_, fun {j k'} hk => ?_⟩
  · rw [List.map_append, List.nodup_append]
    refine ⟨h.nodup, by simp, fun a ha b hb => ?_⟩
    rintro rfl
    rw [show a = i by simpa using hb] at ha
    exact hi ha
  · by_cases hj : j = i
    · subst hj
      rw [Function.update_self, Option.some.injEq] at hk
      simp [hk]
    · rw [Function.update_of_ne hj] at hk
      exact List.mem_append_left _ (h.mem hk)

/-- **A new holder.** -/
theorem latest_open (hi : i ∉ hist.map Prod.fst) (k k' : K) :
    latest (hist ++ [(i, k)]) (Function.update key i (some k)) k' =
      if k' = k then some i else latest hist key k' := by
  unfold latest
  rw [List.reverse_append, List.reverse_singleton, List.singleton_append, List.find?_cons]
  by_cases hk : k' = k
  · simp [hk]
  · have hold : hist.reverse.find? (fun o => o.2 = k' &&
        (Function.update key i (some k) o.1).isSome) =
        hist.reverse.find? fun o => o.2 = k' && (key o.1).isSome := by
      apply List.find?_congr
      intro o ho
      have hne : o.1 ≠ i := by
        rintro rfl
        exact hi (List.mem_map_of_mem (List.mem_reverse.mp ho))
      rw [Function.update_of_ne hne]
    simp [hk, Ne.symm hk, hold]

omit [DecidableEq I] in
theorem latest_eq_none_iff (h : Known hist key) :
    latest hist key k = none ↔ ∀ i, key i ≠ some k := by
  unfold latest
  rw [Option.map_eq_none_iff, List.find?_eq_none]
  constructor
  · intro hnone i hi
    have := hnone _ (List.mem_reverse.mpr (h.mem hi))
    simp [hi] at this
  · rintro hno ⟨i, k'⟩ ho hlive
    simp only [Bool.and_eq_true, decide_eq_true_eq] at hlive
    obtain ⟨rfl, hlive⟩ := hlive
    obtain ⟨k'', hk⟩ := Option.isSome_iff_exists.mp hlive
    rw [h.key_eq (List.mem_reverse.mp ho) hk] at hk
    exact hno i hk

/-- **Holders that end** are not missed by the keys they did not have. -/
theorem latest_end (h : Known hist key) {ends : List I} (hk : ∀ i ∈ ends, key i ≠ some k) :
    latest hist (without key ends) k = latest hist key k := by
  unfold latest
  congr 1
  apply List.find?_congr
  rintro ⟨i, k'⟩ ho
  by_cases hkk : k' = k
  · subst hkk
    have hsame : without key ends i = key i := by
      unfold without
      split
      · rename_i hi
        rcases hkey : key i with - | k''
        · rfl
        · rw [h.key_eq (List.mem_reverse.mp ho) hkey] at hkey
          exact absurd hkey (hk i hi)
      · rfl
    simp [hsame]
  · simp [hkk]

end Domq.Lib

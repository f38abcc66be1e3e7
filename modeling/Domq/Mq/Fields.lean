import Domq.Mq.LoadRedis

/-!
# How the fields of a queue's metadata are told apart

`QueueMgr::GetQueueValue` (`queuemgr.cpp`) goes through an `HGETALL` reply. It compares each field
with five names in turn, by `strncmp` bounded by the length of the *field*, and counts what it
recognised.

* A field is taken for a name it is a beginning of, the empty one included, and for a name that it
  continues with a NUL byte (`strncmpEq_length_iff`).
* The value of the last field taken for a name stays (`getQueueValueLoop_eq`).

Result: `getQueueValue_right_iff`: which replies are parsed as their field names say.
-/

namespace Domq.Mq

open Domq.Lib Domq.Redis

/-- The fields of a queue's metadata. -/
inductive MetaField
  | name | duration | maxcount | type | lastvisit
  deriving DecidableEq

namespace MetaField

/-- The name of a field. -/
def fieldName : MetaField → Bytes
  | .name => ascii "name"
  | .duration => ascii "duration"
  | .maxcount => ascii "maxcount"
  | .type => ascii "type"
  | .lastvisit => ascii "lastvisit"

/-- The member of the queue has the value that the text `w` of the field stands for. -/
def Holds (w : Bytes) (queue : Queue) : MetaField → Prop
  | .name => queue.option.msgQueueName = w
  | .duration => queue.option.duration = Int32.ofInt (atol w)
  | .maxcount => queue.option.maxCount = Int32.ofInt (atol w)
  | .type => queue.option.msgType = Int32.ofInt (atol w)
  | .lastvisit => queue.lastVisit = atol w

/-- Two texts stand for the same value of the field. -/
def Same (v w : Bytes) : MetaField → Prop
  | .name => v = w
  | .duration | .maxcount | .type => Int32.ofInt (atol v) = Int32.ofInt (atol w)
  | .lastvisit => atol v = atol w

end MetaField

/-- The field that `GetQueueValue` takes a name for: the first that `strncmp` does not tell from
it. -/
def takenFor (f : Bytes) : Option MetaField :=
  let is (k : MetaField) := strncmpEq f k.fieldName f.length
  if is .name then some .name
  else if is .duration then some .duration
  else if is .maxcount then some .maxcount
  else if is .type then some .type
  else if is .lastvisit then some .lastvisit
  else none

/-- The value of the last field taken for `k`. -/
def lastTaken (k : MetaField) : List (Bytes × Bytes) → Option Bytes
  | [] => none
  | (f, v) :: h => (lastTaken k h).or (if takenFor f = some k then some v else none)

/-- The reply is parsed as its field names say: `0` is returned exactly if all five are there, and
then each member is the value of the field of that name. -/
def ParsedRight (queue : Queue) (h : List (Bytes × Bytes)) : Prop :=
  (getQueueValue queue (pairs h) ≠ none ↔ Complete h) ∧
    ∀ queue', getQueueValue queue (pairs h) = some queue' →
      ∀ k : MetaField, ∃ w, hget h k.fieldName = some w ∧ k.Holds w queue'

/-! ## Comparing names -/

/-- What `strncmp` with the length of the field recognises. -/
theorem strncmpEq_length_iff {t : Bytes} (ht : ∀ b ∈ t, b ≠ 0) (f : Bytes) :
    strncmpEq f t f.length = true ↔ f <+: t ∨ t ++ [0] <+: f := by
  induction f generalizing t with
  | nil => simp [strncmpEq]
  | cons a f ih =>
    rw [List.length_cons, strncmpEq]
    rcases t with - | ⟨b, t⟩
    · by_cases ha : a = 0
      · simp [ha]
      · simp [ha, Ne.symm ha]
    · have hb : b ≠ 0 := ht b List.mem_cons_self
      by_cases hab : a = b
      · subst hab
        simp only [List.headD_cons, List.tail_cons, ne_eq, not_true_eq_false, if_false, hb]
        rw [ih fun c hc => ht c (List.mem_cons_of_mem a hc), List.cons_append,
          List.cons_prefix_cons, List.cons_prefix_cons]
        simp
      · simp [hab, Ne.symm hab]

theorem takenFor_fieldName (k : MetaField) : takenFor k.fieldName = some k := by
  rcases k <;> decide

/-! ## The loop -/

/-- The queue after all fields: the values of the last ones, over what was there. -/
def readTaken (h : List (Bytes × Bytes)) (queue : Queue) : Queue :=
  let int (k : MetaField) (old : Int32) :=
    ((lastTaken k h).map fun v => Int32.ofInt (atol v)).getD old
  { queue with
    option :=
      { msgQueueName := (lastTaken .name h).getD queue.option.msgQueueName
        msgType := int .type queue.option.msgType
        duration := int .duration queue.option.duration
        maxCount := int .maxcount queue.option.maxCount }
    lastVisit := ((lastTaken .lastvisit h).map atol).getD queue.lastVisit }

/-- The number of fields that are recognised. -/
def recognised (h : List (Bytes × Bytes)) : Nat := h.countP fun fv => (takenFor fv.1).isSome

/-- Writes one field. -/
def MetaField.put (v : Bytes) (queue : Queue) : MetaField → Queue
  | .name => { queue with option := { queue.option with msgQueueName := v } }
  | .duration => { queue with option := { queue.option with duration := Int32.ofInt (atol v) } }
  | .maxcount => { queue with option := { queue.option with maxCount := Int32.ofInt (atol v) } }
  | .type => { queue with option := { queue.option with msgType := Int32.ofInt (atol v) } }
  | .lastvisit => { queue with lastVisit := atol v }

/-- One turn of the loop. -/
theorem getQueueValueLoop_cons (f v : Bytes) (h : List (Bytes × Bytes)) (queue : Queue)
    (count : Nat) :
    getQueueValueLoop (pairs ((f, v) :: h)).elements queue count =
      getQueueValueLoop (pairs h).elements
        (((takenFor f).map (MetaField.put v queue)).getD queue)
        (count + if (takenFor f).isSome then 1 else 0) := by
  have hel : (pairs ((f, v) :: h)).elements =
      .string f :: .string v :: (pairs h).elements := rfl
  rw [hel, getQueueValueLoop]
  simp only [takenFor, Reply.str, MetaField.fieldName]
  by_cases h₁ : strncmpEq f (ascii "name") f.length
  · simp [h₁, MetaField.put]
  by_cases h₂ : strncmpEq f (ascii "duration") f.length
  · simp [h₁, h₂, MetaField.put]
  by_cases h₃ : strncmpEq f (ascii "maxcount") f.length
  · simp [h₁, h₂, h₃, MetaField.put]
  by_cases h₄ : strncmpEq f (ascii "type") f.length
  · simp [h₁, h₂, h₃, h₄, MetaField.put]
  by_cases h₅ : strncmpEq f (ascii "lastvisit") f.length
  · simp [h₁, h₂, h₃, h₄, h₅, MetaField.put]
  · simp [h₁, h₂, h₃, h₄, h₅]

theorem readTaken_cons (f v : Bytes) (h : List (Bytes × Bytes)) (queue : Queue) :
    readTaken ((f, v) :: h) queue =
      readTaken h (((takenFor f).map (MetaField.put v queue)).getD queue) := by
  rcases hk : takenFor f with - | k
  · simp [readTaken, lastTaken, hk]
  · rcases k <;> simp [readTaken, lastTaken, hk, MetaField.put]

/-- **The loop of `GetQueueValue`**: the last field taken for a name counts, and all are counted. -/
theorem getQueueValueLoop_eq (h : List (Bytes × Bytes)) (queue : Queue) (count : Nat) :
    getQueueValueLoop (pairs h).elements queue count =
      (readTaken h queue, count + recognised h) := by
  induction h generalizing queue count with
  | nil => rfl
  | cons fv h ih =>
    obtain ⟨f, v⟩ := fv
    rw [getQueueValueLoop_cons, ih, readTaken_cons, recognised, recognised, List.countP_cons,
      Prod.mk.injEq]
    exact ⟨rfl, by rw [Nat.add_assoc, Nat.add_comm (List.countP _ _)]⟩

theorem getQueueValue_eq (h : List (Bytes × Bytes)) (queue : Queue) :
    getQueueValue queue (pairs h) =
      if recognised h < 5 then none else some (readTaken h queue) := by
  unfold getQueueValue
  rw [getQueueValueLoop_eq, Nat.zero_add]

/-! ## Which replies are parsed right -/

theorem hget_of_mem_fields {h : List (Bytes × Bytes)} {f : Bytes} (hf : f ∈ fields h) :
    ∃ w, hget h f = some w := by
  induction h with
  | nil => exact absurd hf (by simp [fields])
  | cons fv h ih =>
    obtain ⟨g, v⟩ := fv
    by_cases hg : g = f
    · exact ⟨v, if_pos hg⟩
    · have hf' : f = g ∨ f ∈ fields h := List.mem_cons.mp hf
      obtain ⟨w, hw⟩ := ih (hf'.resolve_left (Ne.symm hg))
      exact ⟨w, (if_neg hg).trans hw⟩

theorem lastTaken_of_mem {h : List (Bytes × Bytes)} {k : MetaField} (hf : k.fieldName ∈ fields h) :
    ∃ v, lastTaken k h = some v := by
  induction h with
  | nil => exact absurd hf (by simp [fields])
  | cons fv h ih =>
    obtain ⟨g, v⟩ := fv
    have hf' : k.fieldName = g ∨ k.fieldName ∈ fields h := List.mem_cons.mp hf
    rw [lastTaken]
    rcases hl : lastTaken k h with - | u
    · rcases hf' with rfl | hf'
      · exact ⟨v, by rw [takenFor_fieldName, if_pos rfl, Option.none_or]⟩
      · obtain ⟨u, hu⟩ := ih hf'
        rw [hl] at hu
        exact absurd hu (by simp)
    · exact ⟨u, rfl⟩

theorem mem_metaNames (k : MetaField) : k.fieldName ∈ metaNames := by
  rcases k <;> decide

theorem complete_iff {h : List (Bytes × Bytes)} :
    Complete h ↔ ∀ k : MetaField, k.fieldName ∈ fields h := by
  constructor
  · exact fun hc k => hc _ (mem_metaNames k)
  · intro hc f hf
    simp only [metaNames, List.mem_cons, List.not_mem_nil, or_false] at hf
    rcases hf with rfl | rfl | rfl | rfl | rfl
    · exact hc .name
    · exact hc .duration
    · exact hc .maxcount
    · exact hc .type
    · exact hc .lastvisit

/-- Five fields of these names are five recognised ones. -/
theorem recognised_of_complete {h : List (Bytes × Bytes)} (hc : Complete h) : 5 ≤ recognised h := by
  unfold recognised
  rw [List.countP_eq_length_filter,
    ← List.length_map (f := (Prod.fst : Bytes × Bytes → Bytes))]
  have hsub : metaNames ⊆ (h.filter fun fv => (takenFor fv.1).isSome).map Prod.fst := by
    intro f hf
    obtain ⟨⟨g, w⟩, hmem, rfl⟩ := List.mem_map.mp (hc f hf)
    refine List.mem_map.mpr ⟨(g, w), List.mem_filter.mpr ⟨hmem, ?_⟩, rfl⟩
    exact (show ∀ f ∈ metaNames, (takenFor f).isSome = true by decide) g hf
  exact List.Nodup.length_le_of_subset (show metaNames.Nodup by decide) hsub

/-- The member that is read has the value of a text exactly if that text and the last one taken for
the field stand for the same. -/
theorem holds_readTaken_iff {h : List (Bytes × Bytes)} {k : MetaField} {v w : Bytes}
    (hv : lastTaken k h = some v) (queue : Queue) :
    k.Holds w (readTaken h queue) ↔ k.Same v w := by
  rcases k <;> simp [MetaField.Holds, MetaField.Same, readTaken, hv]

/-- When `GetQueueValue` parses a reply right: with all five fields there, the last field taken for
each name stands for the same value as the field of that name; otherwise, fewer than five are
recognised. -/
def Distinguished (h : List (Bytes × Bytes)) : Prop :=
  (Complete h → ∀ (k : MetaField) (v w : Bytes), lastTaken k h = some v →
    hget h k.fieldName = some w → k.Same v w) ∧
  (¬ Complete h → recognised h < 5)

/-- **Parsing of metadata.** -/
theorem getQueueValue_right_iff (queue : Queue) (h : List (Bytes × Bytes)) :
    ParsedRight queue h ↔ Distinguished h := by
  unfold ParsedRight Distinguished
  rw [getQueueValue_eq]
  by_cases hc : Complete h
  · have hcount := recognised_of_complete hc
    rw [if_neg (by omega)]
    simp only [hc, not_true_eq_false, false_imp_iff, and_true, true_imp_iff, ne_eq, reduceCtorEq,
      not_false_eq_true, true_and, Option.some.injEq, forall_eq']
    rw [complete_iff] at hc
    refine forall_congr' fun k => ?_
    obtain ⟨v, hv⟩ := lastTaken_of_mem (hc k)
    obtain ⟨w, hw⟩ := hget_of_mem_fields (hc k)
    simp [hv, hw, holds_readTaken_iff hv]
  · simp only [hc, not_false_eq_true, true_imp_iff, false_imp_iff, true_and, iff_false, ne_eq,
      not_not]
    by_cases hcount : recognised h < 5
    · simp [hcount]
    · simp [hcount]

/-- A hash without `lastvisit`, but with a field `n`, is accepted. -/
theorem getQueueValue_wrong : ¬ ∀ (queue : Queue) (h : List (Bytes × Bytes)),
    (fields h).Nodup → ParsedRight queue h := by
  intro hall
  have hp := hall Queue.empty
    [(ascii "name", ascii "q"), (ascii "duration", ascii "60"), (ascii "maxcount", ascii "9"),
      (ascii "type", ascii "0"), (ascii "n", ascii "r")] (by decide)
  have hsome := hp.1.mp (by rw [getQueueValue_eq, if_neg (by decide)]; simp)
  exact absurd (hsome (ascii "lastvisit") (by decide)) (by decide)

end Domq.Mq

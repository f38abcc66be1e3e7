import Domq.Redis.Store

/-!
# The Redis keys of a queue

`QueueMetaData` (`queuemgr.h`): every queue and every subscriber has keys built from its name by a
fixed prefix, and `__meta_queuenames` is the set of all queue names. Names are the `CStr`s the
request decoder produces, so the `c_str()` of a key is the key; only the name that `LoadQueues`
reads from a hash may be any text, and there `cStr` cuts the key as `c_str()` does.

`kindOf` reads the kind of value a key holds off its prefix. Every command of `QueueMgr` is
`WellKeyed` (it expects that kind), a `WellTyped` store keeps it, and so no such command is ever
refused for its type (`WellTyped.fits`, `WellTyped.exec`).
-/

namespace Domq.Mq

open Domq.Lib Domq.Redis

/-- `QueueMetaData::allQueueName`, as `QueueMgr::Open` sets it. -/
def allQueueName : Bytes := ascii "__meta_queuenames"

/-- `QueueMetaData::GetQueueMetaName`. -/
def getQueueMetaName (queueName : Bytes) : Bytes := ascii "__meta_queue_" ++ queueName

/-- `QueueMetaData::GetQueueMsgName`. -/
def getQueueMsgName (queueName : Bytes) : Bytes := ascii "_queue_" ++ queueName

/-- `QueueMetaData::GetSubQueueMetaName`. -/
def getSubQueueMetaName (queueName : Bytes) : Bytes := ascii "__meta_sub_" ++ queueName

/-- `QueueMetaData::GetQueueSubName`. -/
def getQueueSubName (queueName clientName : Bytes) : Bytes :=
  ascii "_subqueue_" ++ queueName ++ ascii "-" ++ clientName

/-- What `%s` sends of a key: its `c_str()`, which ends at the first NUL. -/
def cStr (key : Bytes) : Bytes := (CStr.ofBytes key).bytes

/-- The kind of value `QueueMgr` keeps under a key. -/
def kindOf (k : Bytes) : Option Kind :=
  if k = allQueueName then some .set
  else if (ascii "__meta_queue_").isPrefixOf k || (ascii "__meta_sub_").isPrefixOf k then some .hash
  else if (ascii "_queue_").isPrefixOf k || (ascii "_subqueue_").isPrefixOf k then some .list
  else none

/-- The command expects the kind of value its key is for. -/
def WellKeyed (c : Cmd) : Prop := ∀ k κ, c.target = some (k, κ) → kindOf k = some κ

/-- Every key holds the kind of value it is for. -/
def WellTyped (st : Store) : Prop := ∀ k κ, kindOf k = some κ → st.Fits k κ

/-! ## Kinds -/

@[simp] theorem kindOf_allQueueName : kindOf allQueueName = some .set := rfl

@[simp] theorem kindOf_getQueueMetaName (q : Bytes) :
    kindOf (getQueueMetaName q) = some .hash := rfl

@[simp] theorem kindOf_getQueueMsgName (q : Bytes) : kindOf (getQueueMsgName q) = some .list := rfl

@[simp] theorem kindOf_getSubQueueMetaName (q : Bytes) :
    kindOf (getSubQueueMetaName q) = some .hash := rfl

@[simp] theorem kindOf_getQueueSubName (q c : Bytes) :
    kindOf (getQueueSubName q c) = some .list := by
  unfold getQueueSubName
  rw [List.append_assoc, List.append_assoc]
  rfl

/-! ## Keys and NUL bytes -/

theorem cStr_append {p : Bytes} (hp : ∀ b ∈ p, b ≠ 0) (s : Bytes) :
    cStr (p ++ s) = p ++ cStr s := by
  show (p ++ s).takeWhile (fun b => b ≠ 0) = p ++ s.takeWhile (fun b => b ≠ 0)
  exact List.takeWhile_append_of_pos fun b hb => by simpa using hp b hb

theorem cStr_bytes (c : CStr) : cStr c.bytes = c.bytes := by
  unfold cStr
  rw [CStr.ofBytes_bytes]

/-- A key of C strings is sent whole. -/
@[simp] theorem cStr_getSubQueueMetaName (q : CStr) :
    cStr (getSubQueueMetaName q.bytes) = getSubQueueMetaName q.bytes := by
  unfold getSubQueueMetaName
  rw [cStr_append (by decide), cStr_bytes]

@[simp] theorem cStr_getQueueSubName (q c : CStr) :
    cStr (getQueueSubName q.bytes c.bytes) = getQueueSubName q.bytes c.bytes := by
  unfold getQueueSubName
  rw [List.append_assoc, List.append_assoc, cStr_append (by decide), cStr_append q.noNul,
    cStr_append (by decide), cStr_bytes]

@[simp] theorem kindOf_cStr_getSubQueueMetaName (q : Bytes) :
    kindOf (cStr (getSubQueueMetaName q)) = some .hash := by
  unfold getSubQueueMetaName
  rw [cStr_append (by decide)]
  rfl

@[simp] theorem kindOf_cStr_getQueueSubName (q c : Bytes) :
    kindOf (cStr (getQueueSubName q c)) = some .list := by
  unfold getQueueSubName
  rw [List.append_assoc, List.append_assoc, cStr_append (by decide)]
  rfl

/-! ## Distinct keys -/

theorem getQueueMetaName_injective : Function.Injective getQueueMetaName :=
  fun _ _ h => List.append_cancel_left h

theorem getQueueMsgName_injective : Function.Injective getQueueMsgName :=
  fun _ _ h => List.append_cancel_left h

theorem getSubQueueMetaName_injective : Function.Injective getSubQueueMetaName :=
  fun _ _ h => List.append_cancel_left h

theorem getQueueSubName_injective (q : Bytes) : Function.Injective (getQueueSubName q) :=
  fun _ _ h => List.append_cancel_left h

theorem getQueueMetaName_ne_sub (q q' : Bytes) : getQueueMetaName q ≠ getSubQueueMetaName q' := by
  intro h
  have hq : (getQueueMetaName q)[7]? = some 113 := rfl
  have hs : (getSubQueueMetaName q')[7]? = some 115 := rfl
  rw [h, hs] at hq
  exact absurd hq (by decide)

theorem getQueueMsgName_ne_subName (q q' c : Bytes) : getQueueMsgName q ≠ getQueueSubName q' c := by
  intro h
  have hq : (getQueueMsgName q)[1]? = some 113 := rfl
  have hs : (getQueueSubName q' c)[1]? = some 115 := by
    unfold getQueueSubName
    rw [List.append_assoc, List.append_assoc]
    rfl
  rw [h, hs] at hq
  exact absurd hq (by decide)

/-! ## When two keys coincide -/

/-- What a key is for. -/
inductive Key
  | names
  | metadata (q : CStr)
  | msgs (q : CStr)
  | subs (q : CStr)
  | sub (q c : CStr)

/-- The Redis key. -/
def Key.name : Key → Bytes
  | .names => allQueueName
  | .metadata q => getQueueMetaName q.bytes
  | .msgs q => getQueueMsgName q.bytes
  | .subs q => getSubQueueMetaName q.bytes
  | .sub q c => getQueueSubName q.bytes c.bytes

/-- The name `q'` is `q` with a separator and some `s` behind it, and `c` is `c'` with `s` and a
separator in front of it. -/
def Overlap (q c q' c' : CStr) : Prop :=
  ∃ s, q'.bytes = q.bytes ++ ascii "-" ++ s ∧ c.bytes = s ++ ascii "-" ++ c'.bytes

/-- The two keys are lists of subscribers whose names overlap. -/
def Clash : Key → Key → Prop
  | .sub q c, .sub q' c' => Overlap q c q' c' ∨ Overlap q' c' q c
  | _, _ => False

/-- Which of the fixed texts a key starts with. -/
def family (k : Bytes) : Bool × Bool × Bool × Bool :=
  ((ascii "__meta_queue_").isPrefixOf k, (ascii "_queue_").isPrefixOf k,
    (ascii "__meta_sub_").isPrefixOf k, (ascii "_subqueue_").isPrefixOf k)

/-- The text the key of each kind starts with. -/
def Key.tag : Key → Bool × Bool × Bool × Bool
  | .names => (false, false, false, false)
  | .metadata _ => (true, false, false, false)
  | .msgs _ => (false, true, false, false)
  | .subs _ => (false, false, true, false)
  | .sub _ _ => (false, false, false, true)

theorem family_name (k : Key) : family k.name = k.tag := by
  cases k with
  | sub q c =>
    show family (ascii "_subqueue_" ++ q.bytes ++ ascii "-" ++ c.bytes) = _
    rw [List.append_assoc, List.append_assoc]
    rfl
  | _ => rfl

/-- The separator can be found in two places. -/
theorem separated_eq_iff (q c q' c' : CStr) :
    q.bytes ++ ascii "-" ++ c.bytes = q'.bytes ++ ascii "-" ++ c'.bytes ↔
      (q = q' ∧ c = c') ∨ Overlap q c q' c' ∨ Overlap q' c' q c := by
  constructor
  · intro h
    rw [List.append_assoc, List.append_assoc] at h
    rcases List.append_eq_append_iff.mp h with ⟨r, hq, hc⟩ | ⟨r, hq, hc⟩
    · cases r with
      | nil =>
        rw [List.append_nil] at hq
        exact .inl ⟨CStr.ext hq.symm, CStr.ext (List.append_cancel_left hc)⟩
      | cons b s =>
        obtain ⟨rfl, hs⟩ := List.cons.inj hc
        exact .inr (.inl ⟨s, by rw [hq, List.append_assoc]; rfl, by
          rw [List.append_assoc]
          exact hs⟩)
    · cases r with
      | nil =>
        rw [List.append_nil] at hq
        exact .inl ⟨CStr.ext hq, CStr.ext (List.append_cancel_left hc).symm⟩
      | cons b s =>
        obtain ⟨rfl, hs⟩ := List.cons.inj hc
        exact .inr (.inr ⟨s, by rw [hq, List.append_assoc]; rfl, by
          rw [List.append_assoc]
          exact hs⟩)
  · rintro (⟨rfl, rfl⟩ | ⟨s, hq, hc⟩ | ⟨s, hq, hc⟩)
    · rfl
    · rw [hq, hc]
      simp
    · rw [hq, hc]
      simp

/-- Overlapping names are different names. -/
theorem Overlap.ne {q c q' c' : CStr} (h : Overlap q c q' c') : q ≠ q' := by
  rintro rfl
  obtain ⟨s, hq, -⟩ := h
  have hlen := congrArg List.length hq
  have hsep : (ascii "-").length = 1 := rfl
  simp only [List.length_append, hsep] at hlen
  omega

theorem getQueueSubName_eq_iff (q c q' c' : CStr) :
    (Key.sub q c).name = (Key.sub q' c').name ↔
      (q = q' ∧ c = c') ∨ Overlap q c q' c' ∨ Overlap q' c' q c := by
  rw [← separated_eq_iff]
  simp only [Key.name, getQueueSubName, List.append_assoc, List.append_cancel_left_eq]

/-- Keys that clash coincide and are for different things. -/
theorem Clash.ne {k k' : Key} (h : Clash k k') : k.name = k'.name ∧ k ≠ k' := by
  cases k with
  | sub q c =>
    cases k' with
    | sub q' c' =>
      refine ⟨(getQueueSubName_eq_iff q c q' c').mpr (.inr h), fun heq => ?_⟩
      cases heq
      rcases h with h | h
      · exact h.ne rfl
      · exact h.ne rfl
    | _ => exact h.elim
  | _ => exact h.elim

/-- **Storage isolation.** Two keys coincide only when they are for the same thing, exactly if they
are not the lists of two subscribers whose queue and client names overlap at the separator. -/
theorem key_separates_iff (k k' : Key) : (k.name = k'.name → k = k') ↔ ¬ Clash k k' := by
  constructor
  · intro h hcl
    exact hcl.ne.2 (h hcl.ne.1)
  · intro h heq
    -- keys of different kinds start differently
    have htag := congrArg family heq
    rw [family_name, family_name] at htag
    cases k <;> cases k' <;> cases htag
    case mpr.names.names.refl => rfl
    case mpr.metadata.metadata.refl q q' => rw [CStr.bytes_inj.mp (getQueueMetaName_injective heq)]
    case mpr.msgs.msgs.refl q q' => rw [CStr.bytes_inj.mp (getQueueMsgName_injective heq)]
    case mpr.subs.subs.refl q q' => rw [CStr.bytes_inj.mp (getSubQueueMetaName_injective heq)]
    case mpr.sub.sub.refl q c q' c' =>
      rcases (getQueueSubName_eq_iff q c q' c').mp heq with ⟨rfl, rfl⟩ | hov
      · rfl
      · exact absurd hov h

/-- The client `b-c` of the queue `a` and the client `c` of the queue `a-b` have one list. -/
theorem subscribers_share_list : ¬ Function.Injective Key.name := by
  intro h
  have heq := h (show (Key.sub ⟨ascii "a", by decide⟩ ⟨ascii "b-c", by decide⟩).name =
    (Key.sub ⟨ascii "a-b", by decide⟩ ⟨ascii "c", by decide⟩).name from rfl)
  injection heq with hq hc
  exact absurd (congrArg CStr.bytes hq) (by decide)

/-! ## Typed stores -/

variable {st : Store} {c : Cmd}

/-- A command that goes where it should finds what it expects. -/
theorem WellTyped.fits (h : WellTyped st) (hc : WellKeyed c) : c.Fits st :=
  fun k κ ht => h k κ (hc k κ ht)

theorem WellTyped.exec (h : WellTyped st) (hc : WellKeyed c) : WellTyped (c.exec st).2 := by
  intro k κ hk
  refine Cmd.exec_fits (fun κ' ht => ?_) (h k κ hk)
  have := hc k κ' ht
  rw [hk] at this
  exact (Option.some.inj this).symm

theorem wellTyped_empty : WellTyped fun _ => none := fun _ _ _ _ h => absurd h (by simp)

end Domq.Mq

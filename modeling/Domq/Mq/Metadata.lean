import Domq.Mq.Protocol

/-!
# What Redis holds about a queue

`CreatePublisher` writes a queue's metadata as one hash (`metaFields`), and `GetQueueValue` reads it
back. `Typed` says that Redis holds such a hash for a queue, and of which type; `Stored` that it
holds nothing else: a name without metadata has no subscribers, a name with metadata is a member of
the set of names.

`Knows` is what an event of a call says about the store it left: the name is there, the type read is
the stored one, the client is in the subscriber hash. It stays true while names and subscribers are
only added and types are kept (`Grows`, `Knows.mono`), and it is true when the event happens
(`knows_exec`).
-/

namespace Domq.Mq

open Domq.Lib Domq.Redis OpenArgs

/-! ## Writing and reading the hash -/

theorem hmset_metaFields_nil (a : OpenArgs) (now : Nat) :
    hmset [] (metaFields a now) = metaFields a now := rfl

theorem hmset_metaFields (a a' : OpenArgs) (now now' : Nat) :
    hmset (metaFields a' now') (metaFields a now) = metaFields a now := rfl

theorem getQueueValue_nil (queue : Queue) : getQueueValue queue (pairs []) = none := rfl

/-- `GetQueueValue` reads what `CreatePublisher` writes. -/
theorem getQueueValue_metaFields (queue : Queue) (a : OpenArgs) (now : Nat) :
    getQueueValue queue (pairs (metaFields a now)) =
      some { queue with option := a.option, lastVisit := (Int32.ofNat now).toInt } := by
  have hread : getQueueValue queue (pairs (metaFields a now)) =
      some { queue with
        option := ⟨a.msgQueueName.bytes, Int32.ofInt (atol (fmtInt a.msgType.toInt)),
          Int32.ofInt (atol (fmtInt a.duration.toInt)),
          Int32.ofInt (atol (fmtInt a.maxCount.toInt))⟩
        lastVisit := atol (fmtInt (Int32.ofNat now).toInt) } := rfl
  rw [hread]
  simp only [atol_fmtInt, Int32.ofInt_toInt, OpenArgs.option]

/-! ## The store -/

/-- The clients in the subscriber hash of a queue. -/
def subscribers (st : Store) (q : CStr) : List Bytes :=
  fields (st.hash (getSubQueueMetaName q.bytes))

/-- Redis holds the metadata of a queue of this type. -/
def Typed (st : Store) (q : CStr) (ty : Int32) : Prop :=
  ∃ (a : OpenArgs) (now : Nat), a.msgQueueName = q ∧ a.msgType = ty ∧
    st.hash (getQueueMetaName q.bytes) = metaFields a now

/-- A queue has metadata and a name in the set of names, or neither metadata nor subscribers. -/
def Stored (st : Store) : Prop :=
  ∀ q : CStr, st.hash (getQueueMetaName q.bytes) = [] ∧ subscribers st q = [] ∨
    (∃ ty, Typed st q ty) ∧ q.bytes ∈ st.members allQueueName

theorem Typed.unique {st : Store} {q : CStr} {ty ty' : Int32} (h : Typed st q ty)
    (h' : Typed st q ty') : ty = ty' := by
  obtain ⟨a, now, -, rfl, ha⟩ := h
  obtain ⟨b, now', -, rfl, hb⟩ := h'
  have hget : ∀ (a : OpenArgs) now,
      hget (metaFields a now) (ascii "type") = some (fmtInt a.msgType.toInt) := fun _ _ => rfl
  have heq := hget a now
  rw [← ha, hb, hget b now', Option.some.injEq, fmtInt_injective.eq_iff, Int32.toInt_inj] at heq
  exact heq.symm

/-- What a reader of the metadata gets. -/
theorem typed_of_getQueueValue {st : Store} (h : Stored st) {q : CStr} {queue queue' : Queue}
    (hv : getQueueValue queue (pairs (st.hash (getQueueMetaName q.bytes))) = some queue') :
    queue'.option.msgQueueName = q.bytes ∧ Typed st q queue'.option.msgType := by
  rcases h q with ⟨hnil, -⟩ | ⟨⟨ty, a, now, rfl, rfl, ha⟩, -⟩
  · rw [hnil, getQueueValue_nil] at hv
    cases hv
  · rw [ha, getQueueValue_metaFields] at hv
    cases hv
    exact ⟨rfl, a, now, rfl, rfl, ha⟩

/-- Names and subscribers are only added, and types kept. -/
structure Grows (st st' : Store) : Prop where
  names : ∀ n ∈ st.members allQueueName, n ∈ st'.members allQueueName
  types : ∀ q ty, Typed st q ty → Typed st' q ty
  subs : ∀ q, ∀ f ∈ subscribers st q, f ∈ subscribers st' q

/-- What an event says about the store it left. -/
def Knows (st : Store) : Ev → Prop
  | .redis (.sismember k n) r => k = allQueueName → r = .integer 1 → n ∈ st.members allQueueName
  | .redis (.sadd k n) _ => k = allQueueName → n ∈ st.members allQueueName
  | .redis (.hgetall k) r => ∀ q : CStr, k = getQueueMetaName q.bytes →
    ∀ queue queue', getQueueValue queue r = some queue' →
      queue'.option.msgQueueName = q.bytes ∧ Typed st q queue'.option.msgType
  | .redis (.hexists k f) r => ∀ q : CStr, k = getSubQueueMetaName q.bytes →
    r = .integer 1 → f ∈ subscribers st q
  | .redis (.hmset k fvs) _ => ∀ q : CStr, k = getSubQueueMetaName q.bytes →
    ∀ f ∈ fields fvs, f ∈ subscribers st q
  | _ => True

theorem Knows.mono {st st' : Store} {ev : Ev} (h : Knows st ev) (hg : Grows st st') :
    Knows st' ev := by
  cases ev with
  | locked now s r => exact trivial
  | redis c r =>
    cases c with
    | sismember k n => exact fun hk hr => hg.names n (h hk hr)
    | sadd k n => exact fun hk => hg.names n (h hk)
    | hgetall k =>
      intro q hk queue queue' hv
      exact ⟨(h q hk queue queue' hv).1, hg.types _ _ (h q hk queue queue' hv).2⟩
    | hexists k f => exact fun q hk hr => hg.subs q f (h q hk hr)
    | hmset k fvs => exact fun q hk f hf => hg.subs q f (h q hk f hf)
    | _ => exact trivial

/-- An event says what is the case. -/
theorem knows_exec {st : Store} {c : Cmd} (hs : Stored st) (hf : c.Fits st) :
    Knows (c.exec st).2 (.redis c (c.exec st).1) := by
  cases c with
  | sismember k n =>
    rintro rfl hr
    rw [Cmd.members_exec hf]
    rw [Cmd.exec_reply hf] at hr
    simp only [Cmd.reply] at hr
    by_contra hn
    have hn' : n ∉ st.members allQueueName := hn
    rw [if_neg hn'] at hr
    cases hr
  | sadd k n =>
    rintro rfl
    rw [Cmd.members_exec hf]
    simp only [Cmd.onMembers, if_true]
    exact mem_sadd.mpr (.inr rfl)
  | hgetall k =>
    rintro q rfl queue queue' hv
    rw [Cmd.exec_reply hf] at hv
    have hread := typed_of_getQueueValue hs hv
    refine ⟨hread.1, ?_⟩
    obtain ⟨a, now, hq, hty, hash⟩ := hread.2
    exact ⟨a, now, hq, hty, (Cmd.hash_exec hf _).trans hash⟩
  | hexists k f =>
    rintro q rfl hr
    unfold subscribers
    rw [Cmd.hash_exec hf]
    rw [Cmd.exec_reply hf] at hr
    simp only [Cmd.reply] at hr
    by_contra hn
    have hn' : f ∉ fields (st.hash (getSubQueueMetaName q.bytes)) := hn
    rw [if_neg hn'] at hr
    cases hr
  | hmset k fvs =>
    rintro q rfl f hf'
    unfold subscribers
    rw [Cmd.hash_exec hf]
    simp only [Cmd.onHash, if_true]
    exact mem_fields_hmset.mpr (.inr hf')
  | _ => exact trivial

end Domq.Mq

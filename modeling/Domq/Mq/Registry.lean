import Domq.Mq.Sequential

/-!
# The set of names and the metadata, when Redis refuses commands

`CreatePublisher` registers a queue by two writes, the name and the metadata, and does not look at
their replies. Runs of `OpenQueue`, `PushMsg` and `PopMsg`, one call after the other, in which Redis
may refuse any command, start from empty metadata.

* `OpenSound` says of a creating `OpenQueue` that it succeeds only if both writes took effect or the
  queue was registered; `Registered` that this held in every call so far, that every name has
  complete metadata, and that a `LoadQueues` that is not refused returns `0`, on any connection on
  which no reply is unread.
* `Clear` is the condition: where a call creates a queue that is not registered, the two writes are
  not refused. A connection with an unread reply is worse (`PushMsg` leaves such replies when a
  command is refused): if that reply is an integer it is taken for the reply to `SISMEMBER`, and
  hiredis may hold the two writes back behind it.
* `registered_of_clear`: in every run whose calls are clear, `Registered` holds in every state.
  `creation_poisons`: with the `HMSET` refused, it does not.
-/

namespace Domq.Mq

open Domq.Lib Domq.Redis

/-! ## What should hold -/

/-- The call creates its queue if it is not registered. -/
def Creates (a : OpenArgs) : Prop := a.role = .publisher ∧ a.create &&& 1 ≠ 0

/-- A creating call that succeeded found the queue registered, or has registered it. -/
def OpenSound (d : Done) : Prop :=
  ∀ a, d.op = .openQueue a → Creates a → d.ret.1 = SUCCESS →
    a.msgQueueName.bytes ∈ d.before.members allQueueName ∨
    a.msgQueueName.bytes ∈ d.after.members allQueueName ∧ ∃ now, ∀ fv ∈ metaFields a now,
      hget (d.after.hash (getQueueMetaName a.msgQueueName.bytes)) fv.1 = some fv.2

/-- **No creation has spoilt the metadata.** -/
structure Registered (s : Server) : Prop where
  opened : ∀ d ∈ s.log, OpenSound d
  complete : ∀ n ∈ s.redis.members allQueueName,
    MetaHash (s.redis.hash (getQueueMetaName n)) ∧ Complete (s.redis.hash (getQueueMetaName n))
  loads : ∀ e : Invocation, e.op = .loadQueueMeta → Unrefused e → s.unread e.t = [] →
    ∃ s' d, s.step e = some s' ∧ s'.log = s.log ++ [d] ∧ d.ret = (0, none)

/-- No queue has a name or metadata. -/
structure NoMetadata (st : Store) : Prop where
  names : st.members allQueueName = []
  hashes : ∀ q, st.hash (getQueueMetaName q) = []

/-! ## The condition -/

/-- The calls the runs are made of. -/
def ClientCall : Op → Prop
  | .openQueue _ | .pushMsg _ _ | .popMsg _ => True
  | _ => False

/-- The writes of a creating call are not refused, once its `SISMEMBER` is not; on a connection with
an unread reply, that reply is no integer. -/
def Clear (s : Server) (e : Invocation) : Prop :=
  match s.unread e.t with
  | [] => e.refuse 0 = none → e.refuse 1 = none ∧ e.refuse 2 = none
  | r :: _ => ∀ n, r.2 ≠ some (.integer n)

/-- A call that creates a queue which is not registered is clear. -/
def ClearCall (s : Server) (e : Invocation) : Prop :=
  ClientCall e.op ∧ ∀ a, e.op = .openQueue a → Creates a →
    a.msgQueueName.bytes ∉ s.redis.members allQueueName → Clear s e

/-! ## The two writes -/

theorem MetaHash.hmset {h fvs : List (Bytes × Bytes)} (hm : MetaHash h)
    (hfvs : ∀ f ∈ fields fvs, f ∈ metaNames) : MetaHash (hmset h fvs) := by
  unfold Redis.hmset
  induction fvs generalizing h with
  | nil => exact hm
  | cons fv fvs ih =>
    exact ih (hm.hset (hfvs fv.1 List.mem_cons_self) fv.2) fun f hf =>
      hfvs f (List.mem_cons_of_mem _ hf)

theorem complete_hmset (h : List (Bytes × Bytes)) (a : OpenArgs) (now : Nat) :
    Complete (hmset h (metaFields a now)) := fun _ hf => mem_fields_hmset.mpr (.inr hf)

theorem hget_hmset_metaFields (h : List (Bytes × Bytes)) (a : OpenArgs) (now : Nat) :
    ∀ fv ∈ metaFields a now, hget (hmset h (metaFields a now)) fv.1 = some fv.2 := by
  simp only [metaFields, List.forall_mem_cons, Redis.hmset, List.foldl_cons, List.foldl_nil,
    hget_hset]
  exact ⟨rfl, rfl, rfl, rfl, rfl, by simp⟩

section Writes

variable {st : Store}

theorem wellKeyed_sadd (n : Bytes) : WellKeyed (.sadd allQueueName n) := by
  rintro k κ ⟨⟩
  exact kindOf_allQueueName

theorem wellKeyed_hmset (q : Bytes) (fvs : List (Bytes × Bytes)) :
    WellKeyed (.hmset (getQueueMetaName q) fvs) := by
  rintro k κ ⟨⟩
  exact kindOf_getQueueMetaName q

theorem hash_hmset (h : WellTyped st) (q q' : Bytes) (fvs : List (Bytes × Bytes)) :
    ((Cmd.hmset (getQueueMetaName q) fvs).exec st).2.hash (getQueueMetaName q') =
      if q = q' then hmset (st.hash (getQueueMetaName q')) fvs
      else st.hash (getQueueMetaName q') := by
  rw [Cmd.hash_exec (h.fits (wellKeyed_hmset q fvs)), Cmd.onHash]
  by_cases hq : q = q'
  · rw [if_pos (congrArg getQueueMetaName hq), if_pos hq]
  · rw [if_neg (fun hk => hq (getQueueMetaName_injective hk)), if_neg hq]

/-- The metadata written, by itself. -/
theorem Sane.hmset (h : Sane st) (a : OpenArgs) (now : Nat) :
    Sane ((Cmd.hmset (getQueueMetaName a.msgQueueName.bytes) (metaFields a now)).exec st).2 := by
  have hf := h.typed.fits (wellKeyed_hmset a.msgQueueName.bytes (metaFields a now))
  have hmem : ((Cmd.hmset (getQueueMetaName a.msgQueueName.bytes)
      (metaFields a now)).exec st).2.members allQueueName = st.members allQueueName :=
    Cmd.members_exec hf _
  refine ⟨h.typed.exec (wellKeyed_hmset _ _), by rw [hmem]; exact h.nodup,
    by rw [hmem]; exact h.names, fun q => ?_, fun q hq => ?_⟩
  · rw [hash_hmset h.typed]
    split
    · exact (h.hashes q).hmset fun f hf => hf
    · exact h.hashes q
  · rw [hmem] at hq
    rw [hash_hmset h.typed]
    split
    · exact complete_hmset _ a now
    · exact h.complete q hq

/-- The name added once the metadata is there. -/
theorem Sane.sadd {q : CStr} (h : Sane st)
    (hc : Complete (st.hash (getQueueMetaName q.bytes))) :
    Sane ((Cmd.sadd allQueueName q.bytes).exec st).2 := by
  have hf := h.typed.fits (wellKeyed_sadd q.bytes)
  have hmem : ((Cmd.sadd allQueueName q.bytes).exec st).2.members allQueueName =
      Redis.sadd (st.members allQueueName) q.bytes := by
    rw [Cmd.members_exec hf, Cmd.onMembers, if_pos rfl]
  have hhash : ∀ k, ((Cmd.sadd allQueueName q.bytes).exec st).2.hash k = st.hash k :=
    fun k => Cmd.hash_exec hf k
  refine ⟨h.typed.exec (wellKeyed_sadd _), ?_, fun n hn => ?_, fun q' => ?_, fun q' hq' => ?_⟩
  · rw [hmem]
    exact nodup_sadd h.nodup
  · rw [hmem] at hn
    rcases mem_sadd.mp hn with hn | rfl
    · exact h.names n hn
    · exact ⟨q, rfl⟩
  · rw [hhash]
    exact h.hashes q'
  · rw [hmem] at hq'
    rw [hhash]
    rcases mem_sadd.mp hq' with hq' | hq'
    · exact h.complete q' hq'
    · rw [hq']
      exact hc

/-- The store after both writes. -/
def createStore (a : OpenArgs) (now : Nat) (st : Store) : Store :=
  ((Cmd.hmset (getQueueMetaName a.msgQueueName.bytes) (metaFields a now)).exec
    ((Cmd.sadd allQueueName a.msgQueueName.bytes).exec st).2).2

variable (a : OpenArgs) (now : Nat)

theorem members_createStore (h : WellTyped st) : (createStore a now st).members allQueueName =
    Redis.sadd (st.members allQueueName) a.msgQueueName.bytes := by
  have hk₁ := wellKeyed_sadd a.msgQueueName.bytes
  have hk₂ := wellKeyed_hmset a.msgQueueName.bytes (metaFields a now)
  refine (Cmd.members_exec ((h.exec hk₁).fits hk₂) _).trans ?_
  refine (Cmd.members_exec (h.fits hk₁) _).trans ?_
  rw [Cmd.onMembers, if_pos rfl]

theorem hash_createStore (h : WellTyped st) (q : Bytes) :
    (createStore a now st).hash (getQueueMetaName q) =
      if a.msgQueueName.bytes = q then
        Redis.hmset (st.hash (getQueueMetaName q)) (metaFields a now)
      else st.hash (getQueueMetaName q) := by
  have hk₁ := wellKeyed_sadd a.msgQueueName.bytes
  have hhash₁ : ((Cmd.sadd allQueueName a.msgQueueName.bytes).exec st).2.hash
      (getQueueMetaName q) = st.hash (getQueueMetaName q) := Cmd.hash_exec (h.fits hk₁) _
  rw [createStore, hash_hmset (h.exec hk₁), hhash₁]

/-- Both writes keep the store sane, though the first alone does not. -/
theorem Sane.create (h : Sane st) : Sane (createStore a now st) := by
  have hmem := members_createStore a now h.typed
  have hhash := hash_createStore a now h.typed
  refine ⟨(h.typed.exec (wellKeyed_sadd _)).exec (wellKeyed_hmset _ _), ?_, fun n hn => ?_,
    fun q => ?_, fun q hq => ?_⟩
  · rw [hmem]
    exact nodup_sadd h.nodup
  · rw [hmem] at hn
    rcases mem_sadd.mp hn with hn | rfl
    · exact h.names n hn
    · exact ⟨a.msgQueueName, rfl⟩
  · rw [hhash]
    split
    · exact (h.hashes q).hmset fun f hf => hf
    · exact h.hashes q
  · rw [hmem] at hq
    rw [hhash]
    split
    · exact complete_hmset _ a now
    · rename_i hne
      exact h.complete q ((mem_sadd.mp hq).resolve_right fun heq => hne heq.symm)

end Writes

/-! ## The calls -/

/-- What single commands keep, a list of commands keeps, whatever is refused. -/
theorem after_keeps {refuse : Nat → Option Bytes} {I : Store → Prop} {cs : List Cmd}
    (hcs : ∀ c ∈ cs, ∀ st, I st → I (c.exec st).2) {s : Nat × Store} (hs : I s.2) :
    I (Talk.after (redisPeer refuse) cs s).2 := by
  induction cs generalizing s with
  | nil => exact hs
  | cons c cs ih =>
    refine ih (fun c' hc' => hcs c' (List.mem_cons_of_mem c hc')) ?_
    show I (refusing refuse c s).2.2
    unfold refusing
    split
    · exact hs
    · exact hcs c List.mem_cons_self s.2 hs

section Calls

variable {s s' : Server} {e : Invocation}

theorem refusing_none {refuse : Nat → Option Bytes} {c : Cmd} {p : Nat × Store}
    (h : refuse p.1 = none) :
    refusing refuse c p = ((c.exec p.2).1, p.1 + 1, (c.exec p.2).2) := by
  unfold refusing
  rw [h]

theorem refusing_reading {refuse : Nat → Option Bytes} {c : Cmd} (hc : IsReading c)
    (p : Nat × Store) : (refusing refuse c p).2 = (p.1 + 1, p.2) := by
  unfold refusing
  split
  · rfl
  · exact congrArg Prod.snd (quiet_reading hc p)

/-- What a clear call that finds its queue missing has read: its own reply, and that was `0`. -/
theorem Clear.next {q : CStr} {n : Int} (h : Clear s e) (hst : WellTyped s.redis)
    (hq : q.bytes ∉ s.redis.members allQueueName)
    (hn : (s.talk e).next (redisPeer e.refuse) (.sismember allQueueName q.bytes) =
      some (.integer n)) : n = 0 ∧ e.refuse 1 = none ∧ e.refuse 2 = none := by
  have hu : (s.talk e).unread = s.unread e.t := List.drop_zero
  unfold Talk.next at hn
  unfold Clear at h
  rw [hu] at hn
  cases hun : s.unread e.t with
  | cons r rest =>
    rw [hun] at h hn
    exact absurd hn (h n)
  | nil =>
    rw [hun] at h hn
    replace hn : some (refusing e.refuse (.sismember allQueueName q.bytes) (0, s.redis)).1 =
      some (.integer n) := hn
    have hkeyed : WellKeyed (.sismember allQueueName q.bytes) := (Tame.sismember _).wellKeyed
    cases hr : e.refuse 0 with
    | some msg =>
      unfold refusing at hn
      rw [hr] at hn
      cases hn
    | none =>
      rw [refusing_none hr, Cmd.exec_reply (hst.fits hkeyed)] at hn
      simp only [Cmd.reply, if_neg hq] at hn
      cases hn
      exact ⟨rfl, h hr⟩

/-- A publisher's call: the store stays sane, and success is truthful. -/
theorem Sane.publisher {a : OpenArgs} {x : Int} {w : Talk (Nat × Store)} (h : Sane s.redis)
    (hclear : Creates a → a.msgQueueName.bytes ∉ s.redis.members allQueueName → Clear s e)
    (hrole : a.role = .publisher)
    (he : (createPublisher a).eval (Talk.exec (redisPeer e.refuse) e.clock e.uuid) (s.talk e) =
      some (x, w)) :
    Sane w.peer.2 ∧ (Creates a → x = SUCCESS →
      a.msgQueueName.bytes ∈ s.redis.members allQueueName ∨
      a.msgQueueName.bytes ∈ w.peer.2.members allQueueName ∧ ∃ now, ∀ fv ∈ metaFields a now,
        hget (w.peer.2.hash (getQueueMetaName a.msgQueueName.bytes)) fv.1 = some fv.2) := by
  have hreading : IsReading (.sismember allQueueName a.msgQueueName.bytes) := fun _ => rfl
  obtain ⟨-, ⟨hpeer, hsucc⟩ | ⟨hnext, hcreate, now, hpeer⟩⟩ :=
    createPublisher_cases rfl (Nat.zero_le _) he
  · replace hpeer : w.peer = (1, s.redis) := hpeer.trans (refusing_reading hreading (0, s.redis))
    rw [hpeer]
    refine ⟨h, fun hcr hx => .inl ?_⟩
    by_contra hq
    obtain ⟨n, hne, hn⟩ := hsucc hx
    exact hne ((hclear hcr hq).next h.typed hq hn).1
  · by_cases hq : a.msgQueueName.bytes ∈ s.redis.members allQueueName
    · -- the writes repeat what is there, refused or not
      refine ⟨?_, fun _ _ => .inl hq⟩
      rw [hpeer]
      refine (after_keeps (I := fun st => Sane st ∧ a.msgQueueName.bytes ∈ st.members allQueueName)
        (fun c hc st hst => ?_) ⟨h, hq⟩).1
      simp only [List.mem_cons, List.not_mem_nil, or_false] at hc
      rcases hc with rfl | rfl | rfl
      · have hf := hst.1.typed.fits (Tame.sismember a.msgQueueName.bytes).wellKeyed
        exact ⟨hst.1.exec (.sismember _), by rw [(Tame.sismember _).members hf]; exact hst.2⟩
      · have hf := hst.1.typed.fits (wellKeyed_sadd a.msgQueueName.bytes)
        refine ⟨hst.1.sadd (hst.1.complete _ hst.2), ?_⟩
        rw [Cmd.members_exec hf, Cmd.onMembers, if_pos rfl]
        exact mem_sadd.mpr (.inr rfl)
      · have hf := hst.1.typed.fits (wellKeyed_hmset a.msgQueueName.bytes (metaFields a now))
        exact ⟨hst.1.hmset a now, (congrArg _ (Cmd.members_exec hf _)).mpr hst.2⟩
    · obtain ⟨-, h₁, h₂⟩ := (hclear ⟨hrole, hcreate⟩ hq).next h.typed hq hnext
      have hstore : w.peer.2 = createStore a now s.redis := by
        rw [hpeer]
        show (refusing e.refuse _ (refusing e.refuse _
          (refusing e.refuse _ (0, s.redis)).2).2).2.2 = _
        rw [refusing_reading hreading, refusing_none (p := (0 + 1, s.redis)) h₁,
          refusing_none (p := (0 + 1 + 1, _)) h₂]
        rfl
      rw [hstore]
      refine ⟨h.create a now, fun _ _ => .inr ⟨?_, now, ?_⟩⟩
      · rw [members_createStore a now h.typed]
        exact mem_sadd.mpr (.inr rfl)
      · rw [hash_createStore a now h.typed, if_pos rfl]
        exact hget_hmset_metaFields _ a now

/-- A call that sends tame commands only. -/
theorem Sane.performs {α : Type} {p : QProg α} (hp : Performs Tame (fun _ => True) p)
    {refuse : Nat → Option Bytes} {clock : Nat → Nat} {uuid : Uuid} {w w' : Talk (Nat × Store)}
    {x : α} (h : p.eval (Talk.exec (redisPeer refuse) clock uuid) w = some (x, w'))
    (hw : Sane w.peer.2) : Sane w'.peer.2 :=
  hp.eval (I := fun st _ => Sane st) (fun hc hst => hst.exec hc) (fun _ hst _ => hst) h hw

/-- **One call.** -/
theorem sane_step (h : Sane s.redis) (hg : ClearCall s e) {x : Ret} {w : Talk (Nat × Store)}
    (he : (callProg e.op).eval (Talk.exec (redisPeer e.refuse) e.clock e.uuid) (s.talk e) =
      some (x, w)) :
    Sane w.peer.2 ∧ OpenSound ⟨e.op, x, s.mgr, s.redis, w.peer.2⟩ := by
  obtain ⟨hop, hclear⟩ := hg
  match hcall : e.op, hop with
  | .pushMsg code data, _ =>
    rw [hcall] at he
    have hp : Performs Tame (fun _ => True) (callProg (.pushMsg code data)) :=
      (pushMsg_performs trivial).bind fun _ => trivial
    exact ⟨Sane.performs hp he h, fun a ha => (by cases ha)⟩
  | .popMsg code, _ =>
    rw [hcall] at he
    have hp : Performs Tame (fun _ => True) (callProg (.popMsg code)) :=
      (popMsg_performs trivial).mono fun _ hc => hc.tame
    exact ⟨Sane.performs hp he h, fun a ha => (by cases ha)⟩
  | .openQueue a, _ =>
    rw [hcall] at he
    obtain ⟨w₁, he, hw⟩ := openQueue_eval he
    have hpeer : w.peer = w₁.peer := by
      rw [hw]
      split
      · rfl
      · rfl
    rw [hpeer]
    by_cases hrole : a.role = .publisher
    · have hcreate : createProg a = createPublisher a := by
        unfold createProg
        rw [hrole]
      rw [hcreate] at he
      obtain ⟨hsane, hopen⟩ := h.publisher (hclear a hcall) hrole he
      refine ⟨hsane, ?_⟩
      rintro a' ⟨⟩
      exact hopen
    · refine ⟨Sane.performs (createProg_performs hrole trivial) he h, ?_⟩
      rintro a' ⟨⟩ hcr
      exact absurd hcr.1 hrole

/-- A `LoadQueues` that is not refused, on a connection without unread replies. -/
theorem loads_of_sane (h : Sane s.redis) (hop : e.op = .loadQueueMeta) (hquiet : Unrefused e)
    (hidle : s.unread e.t = []) :
    ∃ s' d, s.step e = some s' ∧ s'.log = s.log ++ [d] ∧ d.ret = (0, none) := by
  have htalk : (s.talk e).Idle := by
    unfold Talk.Idle Server.talk
    rw [hidle]
    rfl
  obtain ⟨table, w, he, -⟩ := loadQueues_returns e.clock e.uuid htalk h
  have hcall : (callProg e.op).eval (Talk.exec (redisPeer e.refuse) e.clock e.uuid) (s.talk e) =
      some ((0, none), w) := by
    rw [hop, hquiet]
    show (loadQueues >>= fun ret => return (ret, none)).eval _ _ = _
    rw [Prog.eval_bind,
      show loadQueues.eval (Talk.exec (redisPeer fun _ => none) _ _) _ = _ from he]
    rfl
  refine ⟨s.returned e (0, none) w, _, ?_, rfl, rfl⟩
  unfold Server.step
  rw [hcall]
  rfl

end Calls

/-- **No creation spoils the metadata** in a run whose creating calls are clear: in every state of
it, every `OpenQueue` that reported a creation has registered its queue, every name has complete
metadata, and `LoadQueues` returns `0` on a connection without unread replies. -/
theorem registered_of_clear (m : QueueMgr) (st : Store) (hst : WellTyped st) (hno : NoMetadata st)
    (s : Server) (hs : Machine.Reach Server.step ClearCall (.boot m st) s) : Registered s := by
  have hsane : Sane st := by
    refine ⟨hst, by rw [hno.names]; exact List.nodup_nil, ?_, fun q => ?_, fun q hq => ?_⟩
    · rw [hno.names]
      exact fun n hn => (by cases hn)
    · rw [hno.hashes]
      exact ⟨List.nodup_nil, fun f hf => (by cases hf)⟩
    · rw [hno.names] at hq
      cases hq
  have hinv : Sane s.redis ∧ ∀ d ∈ s.log, OpenSound d := by
    refine hs.inv (I := fun s => Sane s.redis ∧ ∀ d ∈ s.log, OpenSound d)
      ⟨hsane, fun d hd => (by cases hd)⟩ ?_
    rintro s e s' ⟨h, hlog⟩ hg hstep
    obtain ⟨x, w, he, rfl⟩ := Server.step_eq hstep
    obtain ⟨hsane, hopen⟩ := sane_step h hg he
    refine ⟨hsane, fun d hd => ?_⟩
    rcases List.mem_append.mp hd with hd | hd
    · exact hlog d hd
    · rw [List.mem_singleton.mp hd]
      exact hopen
  refine ⟨hinv.2, fun n hn => ?_, fun e hop hquiet hidle => ?_⟩
  · obtain ⟨q, rfl⟩ := hinv.1.names n hn
    exact ⟨hinv.1.hashes q, hinv.1.complete q hn⟩
  · exact loads_of_sane hinv.1 hop hquiet hidle

/-! ## Two runs -/

/-- The queue `q` is opened, with the flag to create it; Redis refuses what `refuse` says. -/
def openCall (role : QueueRole) (refuse : Nat → Option Bytes) : Invocation where
  t := 0
  op := .openQueue ⟨⟨ascii "q", noNul_q⟩, PEER2PEER, 0, 0, role, 1, ⟨ascii "c", noNul_c⟩⟩
  clock _ := 100
  uuid := Uuid.ofByte 0
  refuse := refuse

theorem noMetadata_empty : NoMetadata fun _ => none := ⟨rfl, fun _ => rfl⟩

/-- The queue is created. -/
theorem registered_create : ∃ s,
    (Server.boot (QueueMgr.init 1000) fun _ => none).step (openCall .publisher fun _ => none) =
      some s ∧ s.redis.members allQueueName = [ascii "q"] ∧ Registered s := by
  refine ⟨_, rfl, rfl, registered_of_clear (QueueMgr.init 1000) (fun _ => none) wellTyped_empty
    noMetadata_empty _ (.step (openCall .publisher fun _ => none) .init ⟨trivial, ?_⟩ rfl)⟩
  intro a ha hcr hq _
  exact ⟨rfl, rfl⟩

/-- The `HMSET` is refused: the queue is registered without metadata. -/
theorem creation_poisons : ¬ ∀ (m : QueueMgr) (st : Store), WellTyped st → NoMetadata st →
    ∀ s, Machine.Reach Server.step (fun _ e => ClientCall e.op) (.boot m st) s → Registered s := by
  intro h
  have hreg := h (QueueMgr.init 1000) (fun _ => none) wellTyped_empty noMetadata_empty _
    (.step (openCall .publisher fun i => if i = 2 then some (ascii "OOM") else none) .init
      trivial rfl)
  have hname := (hreg.complete (ascii "q") (by decide)).2 (ascii "name") (by decide)
  cases hname

end Domq.Mq

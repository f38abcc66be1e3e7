import Domq.Mq.Broadcast
import Domq.Mq.Registry

/-!
# Crashes and restarts

The workers are killed in any state of any run, and the server is started again on the store they
have left: `Open` calls `LoadQueues`, and the workers start with the table it has loaded, without
sessions and with empty pipelines. Redis refuses nothing. A command that Redis executes after the
crash is one whose reply was being waited for; the state is then the later one in which it was
taken.

* `HalfMade st q`: the name `q` is registered and its metadata is not complete.
* `Naming q call`: the call has had `SADD` executed, and not yet `HMSET`.
* `Registry` is what every state keeps of the names and the metadata (`Registering.step`).
* `Lives`: any number of lives of the server, with what the earlier ones have done.

Results: `Registry.starts` and `Registry.fails`, the two ways a restart can go; `restart`.
-/

namespace Domq.Mq

open Domq.Lib Domq.Redis

/-! ## Names and metadata -/

/-- The name is registered without complete metadata. -/
def HalfMade (st : Store) (q : CStr) : Prop :=
  q.bytes ∈ st.members allQueueName ∧ ¬ Complete (st.hash (getQueueMetaName q.bytes))

/-- The call has added the name of its queue, and is about to write the metadata. -/
def Naming (q : CStr) (call : Call) : Prop :=
  ∃ a r, a.msgQueueName = q ∧
    call = ⟨.openQueue a, [.redis a.isMember (.integer 0), .redis a.addName r]⟩

/-- The names and the metadata, whether complete or not. -/
structure Registry (st : Store) : Prop where
  typed : WellTyped st
  nodup : (st.members allQueueName).Nodup
  names : ∀ n ∈ st.members allQueueName, ∃ q : CStr, n = q.bytes
  hashes : ∀ q : CStr, MetaHash (st.hash (getQueueMetaName q.bytes))

theorem Registry.sane {st : Store} (h : Registry st) (hno : ∀ q, ¬ HalfMade st q) : Sane st where
  typed := h.typed
  nodup := h.nodup
  names := h.names
  hashes := h.hashes
  complete q hq := by
    by_contra hc
    exact hno q ⟨hq, hc⟩

theorem Sane.registry {st : Store} (h : Sane st) : Registry st :=
  ⟨h.typed, h.nodup, h.names, h.hashes⟩

theorem Sane.not_halfMade {st : Store} (h : Sane st) (q : CStr) : ¬ HalfMade st q := fun hq =>
  hq.2 (h.complete q hq.1)

/-! ## The commands -/

/-- What a command is to the registry. -/
inductive Registers (call : Call) : Cmd → Prop
  | reading {c : Cmd} (h : IsReading c) : Registers call c
  | tame {c : Cmd} (h : Tame c) : Registers call c
  | name (a : OpenArgs) (hcall : call = ⟨.openQueue a, [.redis a.isMember (.integer 0)]⟩) :
      Registers call a.addName
  | metadata (a : OpenArgs) (now : Nat) : Registers call (a.writeMeta now)

theorem kindOf_popList (q c : CStr) (ty : Int32) : kindOf (popList q c ty) = some .list := by
  unfold popList
  split
  · exact kindOf_getQueueSubName _ _
  · exact kindOf_getQueueMsgName _

theorem tame_popVisit (q c : CStr) (ty : Int32) (now : Nat) : Tame (popVisit q c ty now) := by
  unfold popVisit
  split
  · exact .visitSub _ _ _
  · exact .visit _ _

theorem Exec.registers {call : Call} {c : Cmd} (h : Exec call c) : Registers call c := by
  cases h with
  | isMember a _ => exact .tame (.sismember _)
  | addName a _ => exact .name a rfl
  | create a _ _ now => exact .metadata a now
  | readMeta a _ _ => exact .tame (.hgetall _)
  | isClient a => exact .tame (.hexists _ _)
  | addClient a => exact .tame (.subscribe _ _)
  | push code data now q cl ty buf evs now' rest _ h =>
    exact .tame (tame_pushCmds (Exec.mem_pushCmds h))
  | pop code now q cl ty => exact .tame (.lpop (kindOf_popList q cl ty))
  | popVisit code now q cl ty r now' => exact .tame (tame_popVisit q cl ty now')
  | names => exact .reading fun _ => rfl
  | load ev evs hr _ hc =>
    refine .reading fun st => ?_
    cases hc <;> rfl

/-- What a call that is naming its queue does next. -/
theorem Naming.exec {q : CStr} {call : Call} {c : Cmd} (h : Naming q call) (hex : Exec call c) :
    ∃ (a : OpenArgs) (now : Nat), a.msgQueueName = q ∧ c = a.writeMeta now := by
  obtain ⟨a, r, hq, rfl⟩ := h
  generalize hcall : (⟨.openQueue a, _⟩ : Call) = call at hex
  cases hex with
  | create a' _ _ now =>
    cases hcall
    exact ⟨a, now, hq, rfl⟩
  | _ => cases hcall

theorem Naming.not_locks {q : CStr} {call : Call} {s : Section} (h : Naming q call) :
    ¬ Locks call s := by
  obtain ⟨a, r, -, rfl⟩ := h
  intro hl
  generalize hcall : (⟨.openQueue a, _⟩ : Call) = call at hl
  cases hl with
  | openLock a' evs hg =>
    cases hg with
    | _ => cases hcall
  | _ => cases hcall

theorem Naming.not_returns {q : CStr} {call : Call} {x : Ret} (h : Naming q call) :
    ¬ Returns call x := by
  obtain ⟨a, r, -, rfl⟩ := h
  rintro (⟨evs, now, code, -, -, hevs⟩ | ⟨-, hr⟩)
  · have hlast := congrArg List.getLast? hevs
    simp at hlast
  · generalize hevs : ([_, _] : List Ev) = evs at hr
    cases hr with
    | missing _ h => simp [OpenArgs.addName, OpenArgs.readMeta] at hevs
    | _ => cases hevs

/-! ## Every step -/

/-- What holds in every state: where the metadata of a name is not complete, the call that has added
the name is about to write it. -/
structure Registering (w : World) : Prop where
  registry : Registry w.redis
  naming : ∀ q, HalfMade w.redis q → ∃ t call, w.cur t = some call ∧ Naming q call

section

variable {st : Store} {call : Call} {c : Cmd}

theorem reading_store (h : IsReading c) : (c.exec st).2 = st := by
  unfold Cmd.exec
  split
  · rw [h st]
  · rfl

theorem Registry.exec (h : Registry st) (hf : c.Fits st) (hk : WellKeyed c)
    (hr : Registers call c) : Registry (c.exec st).2 := by
  cases hr with
  | reading hr =>
    rw [reading_store hr]
    exact h
  | tame ht =>
    have hmem := ht.members hf allQueueName
    refine ⟨h.typed.exec hk, by rw [hmem]; exact h.nodup, by rw [hmem]; exact h.names, fun q => ?_⟩
    rcases ht.hash hf q.bytes with heq | ⟨v, heq⟩
    · rw [heq]
      exact h.hashes q
    · rw [heq]
      exact (h.hashes q).hset (by decide) v
  | name a =>
    have hmem : (a.addName.exec st).2.members allQueueName =
        Redis.sadd (st.members allQueueName) a.msgQueueName.bytes := by
      rw [Cmd.members_exec hf, OpenArgs.addName, Cmd.onMembers, if_pos rfl]
    refine ⟨h.typed.exec hk, by rw [hmem]; exact nodup_sadd h.nodup, fun n hn => ?_, fun q => ?_⟩
    · rw [hmem] at hn
      rcases mem_sadd.mp hn with hn | rfl
      · exact h.names n hn
      · exact ⟨a.msgQueueName, rfl⟩
    · rw [Cmd.hash_exec hf]
      exact h.hashes q
  | metadata a now =>
    have hmem : ((a.writeMeta now).exec st).2.members allQueueName = st.members allQueueName :=
      Cmd.members_exec hf _
    refine ⟨h.typed.exec hk, by rw [hmem]; exact h.nodup, by rw [hmem]; exact h.names, fun q => ?_⟩
    rw [OpenArgs.writeMeta, hash_hmset h.typed]
    split
    · exact (h.hashes q).hmset fun f hf => hf
    · exact h.hashes q

/-- Metadata that is complete stays so. -/
theorem Complete.exec (hst : WellTyped st) (hf : c.Fits st) (hr : Registers call c) {q : CStr}
    (h : Complete (st.hash (getQueueMetaName q.bytes))) :
    Complete ((c.exec st).2.hash (getQueueMetaName q.bytes)) := by
  cases hr with
  | reading hr => rwa [reading_store hr]
  | tame ht =>
    rcases ht.hash hf q.bytes with heq | ⟨v, heq⟩
    · rwa [heq]
    · rw [heq]
      exact h.hset _ v
  | name a =>
    rw [Cmd.hash_exec hf]
    exact h
  | metadata a now =>
    rw [OpenArgs.writeMeta, hash_hmset hst]
    split
    · exact complete_hmset _ a now
    · exact h

/-- A name that is half made was so before, or was added just now. -/
theorem HalfMade.before (hst : WellTyped st) (hf : c.Fits st) (hr : Registers call c) {q : CStr}
    (h : HalfMade (c.exec st).2 q) :
    HalfMade st q ∨ ∃ a, a.msgQueueName = q ∧
      call = ⟨.openQueue a, [.redis a.isMember (.integer 0)]⟩ ∧ c = a.addName := by
  obtain ⟨hmem, hinc⟩ := h
  have hold : ¬ Complete (st.hash (getQueueMetaName q.bytes)) := fun hc =>
    hinc (hc.exec hst hf hr)
  cases hr with
  | reading hr =>
    rw [reading_store hr] at hmem
    exact .inl ⟨hmem, hold⟩
  | tame ht =>
    rw [ht.members hf] at hmem
    exact .inl ⟨hmem, hold⟩
  | name a hcall =>
    rw [Cmd.members_exec hf, OpenArgs.addName, Cmd.onMembers, if_pos rfl] at hmem
    rcases mem_sadd.mp hmem with hmem | heq
    · exact .inl ⟨hmem, hold⟩
    · exact .inr ⟨a, (CStr.bytes_inj.mp heq).symm, hcall, rfl⟩
  | metadata a now =>
    rw [Cmd.members_exec hf] at hmem
    exact .inl ⟨hmem, hold⟩

end

/-- **One step.** -/
theorem Registering.step {G : Guard Act World Env Op} {w w' : World} {t : Tid} (h : Registering w)
    (hs : Step G w t w') : Registering w' := by
  cases hs with
  | call op hcur hg =>
    refine ⟨h.registry, fun q hq => ?_⟩
    obtain ⟨t', call, hcall, hn⟩ := h.naming q hq
    refine ⟨t', call, ?_, hn⟩
    have ht : t' ≠ t := by
      rintro rfl
      rw [hcur] at hcall
      cases hcall
    exact (Function.update_of_ne ht _ _).trans hcall
  | quiet pipe clock => exact ⟨h.registry, h.naming⟩
  | redis call c e a pipe hcur hex hf hnext hg =>
    have hr := hex.registers
    refine ⟨h.registry.exec hf hex.wellKeyed hr, fun q hq => ?_⟩
    rcases HalfMade.before h.registry.typed hf hr hq with hold | ⟨b, hb, rfl, rfl⟩
    · obtain ⟨t', call', hcall, hn⟩ := h.naming q hold
      refine ⟨t', call', ?_, hn⟩
      have ht : t' ≠ t := by
        rintro rfl
        cases hcur.symm.trans hcall
        obtain ⟨b, now, rfl, rfl⟩ := hn.exec hex
        refine hq.2 ?_
        show Complete (((b.writeMeta now).exec w.redis).2.hash _)
        rw [OpenArgs.writeMeta, hash_hmset h.registry.typed, if_pos rfl]
        exact complete_hmset _ b now
      exact (Function.update_of_ne ht _ _).trans hcall
    · refine ⟨t, _, ?_, b, (b.addName.exec w.redis).1, hb, rfl⟩
      show Function.update w.cur t _ t = _
      rw [Function.update_self, hcur]
      rfl
  | locked call s e hcur hl hg hlock =>
    obtain ⟨-, m', -, rfl⟩ := World.lock_eq hlock
    refine ⟨h.registry, fun q hq => ?_⟩
    obtain ⟨t', call', hcall, hn⟩ := h.naming q hq
    refine ⟨t', call', ?_, hn⟩
    have ht : t' ≠ t := by
      rintro rfl
      cases hcur.symm.trans hcall
      exact hn.not_locks hl
    exact (Function.update_of_ne ht _ _).trans hcall
  | ret call x hcur hret =>
    refine ⟨h.registry, fun q hq => ?_⟩
    obtain ⟨t', call', hcall, hn⟩ := h.naming q hq
    refine ⟨t', call', ?_, hn⟩
    have ht : t' ≠ t := by
      rintro rfl
      cases hcur.symm.trans hcall
      exact hn.not_returns hret
    exact (Function.update_of_ne ht _ _).trans hcall

theorem registering_of_reach {G : Guard Act World Env Op} {c₀ c : Conf} (hb : Boot c₀)
    (hst : Sane c₀.shared.redis) (hc : (server .redis).Reach G c₀ c) : Registering c.shared :=
  (reach_protocol hb hst.typed
    ⟨hst.registry, fun q hq => absurd hq (hst.not_halfMade q)⟩
    (fun _ _ _ hw _ hs => hw.step hs) hc).1

/-! ## `LoadQueues` at the start -/

/-- A hash that is not complete has fewer than five fields. -/
theorem getQueueValue_incomplete {h : List (Bytes × Bytes)} (hm : MetaHash h) (hc : ¬ Complete h)
    (queue : Queue) : getQueueValue queue (pairs h) = none := by
  have hlen : h.length < 5 := by
    by_contra hle
    have hlen : metaNames.length ≤ (fields h).length := by
      rw [fields, List.length_map]
      exact not_lt.mp hle
    have hperm := (List.subperm_of_subset hm.nodup hm.names).perm_of_length_le hlen
    exact hc fun f hf => hperm.mem_iff.mpr hf
  unfold getQueueValue
  rw [getQueueValueLoop_metaHash hm]
  simp only
  rw [if_pos (by omega)]

section Start

variable (clock : Nat → Nat) (uuid : Uuid) {w : Talk (Nat × Store)}

/-- The queue of a member whose hash is not complete. -/
theorem loadQueue_fails {tmp : CStr → Option Queue} {q : CStr} (htmp : tmp q = none) (hw : w.Idle)
    (hst : WellTyped w.peer.2) (hm : MetaHash (w.peer.2.hash (getQueueMetaName q.bytes)))
    (hc : ¬ Complete (w.peer.2.hash (getQueueMetaName q.bytes))) :
    ∃ ret w', (loadQueue tmp (.string q.bytes)).eval (Talk.exec quiet clock uuid) w =
      some (.error ret, w') ∧ ret ≠ 0 ∧ Read w w' := by
  have hstring : ¬ checkReply (some (.string q.bytes)) .string (-1) true ≠ 0 := fun h => h rfl
  have hkeyed₁ : WellKeyed (.hgetall (getQueueMetaName q.bytes)) := by
    rintro k κ ⟨⟩
    exact kindOf_getQueueMetaName _
  have hkeyed₂ : WellKeyed (.llen (getQueueMsgName q.bytes)) := by
    rintro k κ ⟨⟩
    exact kindOf_getQueueMsgName _
  generalize hx : (loadQueue tmp (.string q.bytes)).eval (Talk.exec quiet clock uuid) w = x
  unfold loadQueue at hx
  simp only [if_neg hstring] at hx
  rw [show (Reply.string q.bytes).str = q.bytes from rfl, CStr.ofBytes_bytes, htmp] at hx
  obtain ⟨r₁, r₂, w₁, hr₁, hr₂, hu, hmgr, htaken, -, h⟩ := hw.askTwo hx
  rw [quiet_reading (fun _ => rfl)] at hr₁ hr₂
  obtain ⟨hr₂, hpeer⟩ := Prod.mk.inj hr₂
  rw [quiet_reading (fun _ => rfl)] at hr₂ hpeer
  rw [Cmd.exec_reply (hst.fits hkeyed₂)] at hr₂
  rw [Cmd.exec_reply (hst.fits hkeyed₁)] at hr₁
  obtain rfl : r₁ = some (pairs (w.peer.2.hash (getQueueMetaName q.bytes))) := hr₁
  obtain rfl : r₂ = some (.integer (w.peer.2.list (getQueueMsgName q.bytes)).length) := hr₂
  have harray : ¬ checkReply (some (pairs (w.peer.2.hash (getQueueMetaName q.bytes)))) .array (-1)
    true ≠ 0 := fun h => h rfl
  have hinteger : ¬ checkReply (some (.integer (w.peer.2.list (getQueueMsgName q.bytes)).length))
    .integer (-1) true ≠ 0 := fun h => h rfl
  simp only [if_neg harray] at h
  rw [Talk.eval_getReply_unread _ hu] at h
  simp only [if_neg hinteger, Option.getD_none, getQueueValue_incomplete hm hc] at h
  refine ⟨_, _, h.symm, by decide, htaken, ?_, hmgr⟩
  show w₁.peer.2 = _
  rw [hpeer]

/-- The loop ends at the first member whose hash is not complete. -/
theorem loadLoop_fails (members : List Bytes) (tmp : CStr → Option Queue) (hw : w.Idle)
    (hst : Registry w.peer.2) (hsub : ∀ n ∈ members, ∃ q : CStr, n = q.bytes)
    (hnodup : members.Nodup) (htmp : ∀ q : CStr, q.bytes ∈ members → tmp q = none) {q : CStr}
    (hq : q.bytes ∈ members) (hinc : ¬ Complete (w.peer.2.hash (getQueueMetaName q.bytes))) :
    ∃ ret w', (loadLoop (members.map .string) tmp).eval (Talk.exec quiet clock uuid) w =
      some (ret, w') ∧ ret ≠ 0 ∧ Read w w' := by
  induction members generalizing tmp w with
  | nil => cases hq
  | cons n members ih =>
    obtain ⟨p, rfl⟩ := hsub n List.mem_cons_self
    obtain ⟨hnot, hnodup⟩ := List.nodup_cons.mp hnodup
    rw [List.map_cons, loadLoop, Prog.eval_bind]
    by_cases hp : Complete (w.peer.2.hash (getQueueMetaName p.bytes))
    · obtain ⟨queue, w₁, he, -, hread⟩ := loadQueue_returns clock uuid
        (htmp p List.mem_cons_self) hw hst.typed (hst.hashes p) hp
      have hq' : q.bytes ∈ members := by
        rcases List.mem_cons.mp hq with heq | hq
        · rw [heq] at hinc
          exact absurd hp hinc
        · exact hq
      rw [he]
      obtain ⟨ret, w', he', hne, hread'⟩ := ih (Function.update tmp p (some queue)) hread.idle
        (hread.store ▸ hst) (fun n hn => hsub n (List.mem_cons_of_mem _ hn)) hnodup
        (fun p' hp' => by
          rw [Function.update_of_ne (by rintro rfl; exact hnot hp')]
          exact htmp p' (List.mem_cons_of_mem _ hp'))
        hq' (by rwa [hread.store])
      refine ⟨ret, w', ?_, hne, hread.trans hread'⟩
      rw [← CStr.ofBytes_bytes p] at he'
      exact he'
    · obtain ⟨ret, w', he, hne, hread⟩ := loadQueue_fails clock uuid
        (htmp p List.mem_cons_self) hw hst.typed (hst.hashes p) hp
      rw [he]
      exact ⟨ret, w', rfl, hne, hread⟩

end Start

/-- `LoadQueues` on this store returns `0`, whoever calls it, and loads the table of the store. -/
def Starts (st : Store) : Prop :=
  ∀ clock uuid m, ∃ table w,
    loadQueues.eval (Talk.exec quiet clock uuid) (.idle m (0, st)) = some (0, w) ∧ w.peer.2 = st ∧
      w.mgr = { m with name2Queue := table } ∧ TableOf st table

/-- `LoadQueues` on this store returns an error, whoever calls it, and leaves the store as it is. -/
def FailsToStart (st : Store) : Prop :=
  ∀ clock uuid m, ∃ ret w,
    loadQueues.eval (Talk.exec quiet clock uuid) (.idle m (0, st)) = some (ret, w) ∧ ret ≠ 0 ∧
      w.peer.2 = st ∧ w.mgr = m

section

variable {st : Store}

theorem Registry.starts (h : Registry st) (hno : ∀ q, ¬ HalfMade st q) : Starts st := by
  intro clock uuid m
  obtain ⟨table, w, he, -, hstore, hmgr, htable⟩ := loadQueues_returns clock uuid
    (w := .idle m (0, st)) rfl (h.sane hno)
  exact ⟨table, w, he, hstore, hmgr, htable⟩

theorem Registry.fails (h : Registry st) {q : CStr} (hq : HalfMade st q) : FailsToStart st := by
  intro clock uuid m
  have hkeyed : WellKeyed (.smembers allQueueName) := by
    rintro k κ ⟨⟩
    exact kindOf_allQueueName
  have hidle : Talk.Idle (.idle m (0, st) : Talk (Nat × Store)) := rfl
  generalize hx : loadQueues.eval (Talk.exec quiet clock uuid) (.idle m (0, st)) = x
  obtain ⟨r, w₁, hr, hidle₁, hmgr, -, hrest⟩ := hidle.command hx
  rw [quiet_reading (fun _ => rfl)] at hr
  obtain ⟨hr, hpeer⟩ := Prod.mk.inj hr
  replace hr : r = some (Cmd.exec (.smembers allQueueName) st).1 := hr
  rw [Cmd.exec_reply (h.typed.fits hkeyed)] at hr
  have hstore : w₁.peer.2 = st := by rw [hpeer]; rfl
  subst hr
  obtain ⟨ret, w', he, hne, hread⟩ := loadLoop_fails clock uuid (st.members allQueueName)
    (fun _ => none) hidle₁ (hstore.symm ▸ h) h.names h.nodup (fun _ _ => rfl) hq.1
    (by rw [hstore]; exact hq.2)
  exact ⟨ret, w', hrest.symm.trans he, hne, hread.store.trans hstore, hread.mgr.trans hmgr⟩

end

/-! ## Any number of lives -/

/-- The server is started on the store `st₀`, killed in any state, and started again on the store
that is left, as often as that succeeds: the history of the lives that are over, and the state of
the present one. -/
inductive Lives (G : Guard Act World Env Op) (st₀ : Store) : List Event → Conf → Prop
  | first (m : QueueMgr) {c : Conf} (hc : (server .redis).Reach G (boot m st₀) c) :
      Lives G st₀ [] c
  | restart {past : List Event} {c c' : Conf} (m : QueueMgr) (clock : Nat → Nat) (uuid : Uuid)
      {w : Talk (Nat × Store)} (h : Lives G st₀ past c)
      (hload : loadQueues.eval (Talk.exec quiet clock uuid) (.idle m (0, c.shared.redis)) =
        some (0, w))
      (hc' : (server .redis).Reach G (boot w.mgr w.peer.2) c') :
      Lives G st₀ (past ++ c.shared.log) c'

/-- What holds in every state of every life. -/
structure Survives (st₀ : Store) (past : List Event) (w : World) : Prop where
  registering : Registering w
  lists : ∀ k, poppedFrom k (past ++ w.log) ++ w.redis.list k =
    st₀.list k ++ pushedTo k (past ++ w.log)

/-- One life, on the store of the one before it. -/
theorem Survives.reach {G : Guard Act World Env Op} {st₀ st : Store} {past : List Event}
    {m : QueueMgr} {c : Conf} (hst : Sane st)
    (hlists : ∀ k, poppedFrom k past ++ st.list k = st₀.list k ++ pushedTo k past)
    (hc : (server .redis).Reach G (boot m st) c) : Survives st₀ past c.shared := by
  have hb := boot_boot m st
  obtain ⟨hf, -, -⟩ := reach_protocol hb hst.typed (Fifos.boot hb)
    (fun w t w' hw _ hs => hw.step hs) hc
  refine ⟨registering_of_reach hb hst hc, fun k => ?_⟩
  have hlife : poppedFrom k c.shared.log ++ c.shared.redis.list k =
      st.list k ++ pushedTo k c.shared.log := hf.lists k
  calc poppedFrom k (past ++ c.shared.log) ++ c.shared.redis.list k
      = poppedFrom k past ++ (poppedFrom k c.shared.log ++ c.shared.redis.list k) := by
        rw [poppedFrom, List.filterMap_append, List.append_assoc]
        rfl
    _ = st₀.list k ++ (pushedTo k past ++ pushedTo k c.shared.log) := by
        rw [hlife, ← List.append_assoc, hlists, List.append_assoc]
    _ = st₀.list k ++ pushedTo k (past ++ c.shared.log) := by
        rw [pushedTo, pushedTo, pushedTo, List.filterMap_append]

theorem Lives.survives {G : Guard Act World Env Op} {st₀ : Store} {past : List Event} {c : Conf}
    (hst : Sane st₀) (h : Lives G st₀ past c) : Survives st₀ past c.shared := by
  induction h with
  | first m hc => exact .reach hst (fun k => by simp [poppedFrom, pushedTo]) hc
  | @restart past c c' m clock uuid w h hload hc' ih =>
    have hregistry := ih.registering.registry
    have hno : ∀ q, ¬ HalfMade c.shared.redis q := by
      intro q hq
      obtain ⟨ret, w', he, hne, -⟩ := hregistry.fails hq clock uuid m
      cases he.symm.trans hload
      exact hne rfl
    obtain ⟨table, w', he, hstore, -⟩ := hregistry.starts hno clock uuid m
    cases he.symm.trans hload
    rw [hstore] at hc'
    exact .reach (hregistry.sane hno) ih.lists hc'

/-- **Crashes and restarts.** In every state of every life of the server: where the metadata of a
name is not complete, a call has had the name added and its `HMSET` is still to come. Killed in a
state without such a name, the server starts again with the table of all queues; killed in one with
such a name, it never starts again, and its store stays as it is. Through all lives every list is a
FIFO queue: a message that was popped never comes again, and one that was pushed is not lost. -/
theorem restart {G : Guard Act World Env Op} {st₀ : Store} {past : List Event} {c : Conf}
    (hst : Sane st₀) (h : Lives G st₀ past c) :
    (∀ q, HalfMade c.shared.redis q → ∃ t call, c.shared.cur t = some call ∧ Naming q call) ∧
    ((∀ q, ¬ HalfMade c.shared.redis q) → Starts c.shared.redis) ∧
    ((∃ q, HalfMade c.shared.redis q) → FailsToStart c.shared.redis) ∧
    ∀ k, poppedFrom k (past ++ c.shared.log) ++ c.shared.redis.list k =
      st₀.list k ++ pushedTo k (past ++ c.shared.log) := by
  obtain ⟨hregistering, hlists⟩ := h.survives hst
  exact ⟨hregistering.naming, hregistering.registry.starts,
    fun ⟨_, hq⟩ => hregistering.registry.fails hq, hlists⟩

theorem sane_empty : Sane fun _ => none where
  typed := wellTyped_empty
  nodup := List.nodup_nil
  names _ hn := absurd hn List.not_mem_nil
  hashes _ := ⟨List.nodup_nil, fun _ hf => absurd hf List.not_mem_nil⟩
  complete _ hq := absurd hq List.not_mem_nil

/-- A publisher's `OpenQueue` of a queue that does not exist, and `n` steps of it. -/
def createQueue (n : Nat) : List (Sys.Move Env Op) :=
  callSteps 0
    (.openQueue ⟨⟨ascii "q", noNul_q⟩, PEER2PEER, 0, 0, .publisher, 1, ⟨ascii "c", noNul_c⟩⟩) n
    (openEnv 0)

/-- Killed after a send, the server starts again with the message in its list; killed between the
two writes of a creation, it does not start again. -/
theorem restart_killed :
    (∃ past c, Lives Sys.free (fun _ => none) past c ∧
      pushedTo (getQueueMsgName (ascii "q")) past = [ascii "a"] ∧
      c.shared.redis.list (getQueueMsgName (ascii "q")) = [ascii "a"] ∧ Starts c.shared.redis) ∧
    ∃ c, Lives Sys.free (fun _ => none) [] c ∧ FailsToStart c.shared.redis := by
  constructor
  · obtain ⟨c, hc, hmem, hcomplete, hlist, hpushed⟩ : ∃ c : Conf,
        (server .redis).Reach Sys.free (boot (QueueMgr.init 1000) fun _ => none) c ∧
        c.shared.redis.members allQueueName = [ascii "q"] ∧
        Complete (c.shared.redis.hash (getQueueMetaName (ascii "q"))) ∧
        c.shared.redis.list (getQueueMsgName (ascii "q")) = [ascii "a"] ∧
        pushedTo (getQueueMsgName (ascii "q")) c.shared.log = [ascii "a"] :=
      ⟨_, Sys.reach_free (server .redis) _
        (createQueue 8 ++ callSteps 0 (.pushMsg (hexText (List.replicate 16 0)) (ascii "a")) 7
          (openEnv 0)) (Option.some_get (rfl : Option.isSome _ = true)).symm, rfl,
        by unfold Complete; decide, rfl, rfl⟩
    have hlife := Lives.first _ hc
    have hno : ∀ q, ¬ HalfMade c.shared.redis q := by
      rintro q ⟨hq, hinc⟩
      rw [hmem] at hq
      rw [List.mem_singleton.mp hq] at hinc
      exact hinc hcomplete
    have hstarts := (restart sane_empty hlife).2.1 hno
    obtain ⟨table, w, hload, hstore, -⟩ := hstarts (fun _ => 5) (.ofByte 1) (QueueMgr.init 1000)
    refine ⟨_, _, .restart _ _ _ hlife hload .init, hpushed, ?_, ?_⟩
    · rw [boot, hstore]
      exact hlist
    · rw [boot, hstore]
      exact hstarts
  · obtain ⟨c, hc, hmem, hhash⟩ : ∃ c : Conf,
        (server .redis).Reach Sys.free (boot (QueueMgr.init 1000) fun _ => none) c ∧
        c.shared.redis.members allQueueName = [ascii "q"] ∧
        c.shared.redis.hash (getQueueMetaName (ascii "q")) = [] :=
      ⟨_, Sys.reach_free (server .redis) _ (createQueue 5)
        (Option.some_get (rfl : Option.isSome _ = true)).symm, rfl, rfl⟩
    have hlife := Lives.first _ hc
    refine ⟨c, hlife, (restart sane_empty hlife).2.2.1 ⟨⟨ascii "q", noNul_q⟩, ?_, ?_⟩⟩
    · rw [hmem]
      exact List.mem_singleton_self _
    · rw [hhash]
      exact fun h => absurd (h (ascii "name") List.mem_cons_self) List.not_mem_nil

end Domq.Mq

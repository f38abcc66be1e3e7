import Domq.Lib.Latest
import Domq.Mq.Expiry

/-!
# The index of clients

`_client2MsgCode` finds the session of a client for a queue (`queuemgr.h`). `OpenQueue` writes the
entry; `CloseQueue` and `RemoveExpireMsgQueueCode` erase the entry of the client and queue of every
session they end, although the entry may belong to another session of the same client and queue.

The runs are those of the whole server (`Domq.Mq.System`): any calls on any threads, any replies.
`sessionPair` is the client and queue of a live session, `openedFor` the history of openings, and
the right entry is the `latest` of `Domq.Lib.Latest`.

Results:
* `index_lock_iff`: from a right index a section leads to a right one exactly if it ends all
  sessions of a client and queue of which it ends one (`EndsAll`).
* `index_of_reach`: the index is right in every state of every run whose sections all do.
-/

namespace Domq.Mq

open Domq.Lib QueueMgr

/-! ## Sessions of a client and a queue -/

/-- The client and the queue of a live session. -/
def sessionPair (m : QueueMgr) (code : Bytes) : Option (CStr × CStr) :=
  (m.msgQueueCode2QueueName code).map fun item => (item.clientName, item.queueName)

/-- The sessions opened, each with its client and queue. -/
def openedFor (log : List Event) : List (Bytes × CStr × CStr) :=
  (opens log).map fun o => (o.1, o.2.2, o.2.1)

/-- The index is right: it has the live session opened last for a client and a queue, and no entry
where no session lives. -/
def IndexRight (w : World) : Prop :=
  ∀ pair, w.mgr.client2MsgCode pair = latest (openedFor w.log) (sessionPair w.mgr) pair

/-- The sessions a section ends. -/
def Section.ends (m : QueueMgr) : Section → List Bytes
  | .closeQueue code => [code]
  | .removeExpireMsgQueueCode e =>
    (m.msgCodeSequence.drop (m.msgCodeSequence.length - m.passed e)).map SeqItem.msgQueueCode
  | _ => []

/-- With a session the section ends all sessions of its client and queue. -/
def Section.EndsAll (m : QueueMgr) (s : Section) : Prop :=
  ∀ code ∈ s.ends m, ∀ pair, sessionPair m code = some pair →
    ∀ code', sessionPair m code' = some pair → code' ∈ s.ends m

/-- Runs whose sections end all sessions of a client and queue with one of them. -/
def endingAll : Guard Act World Env Op where
  call _ _ _ := True
  act w _ _ a :=
    match a with
    | .locked s => s.EndsAll w.mgr
    | _ => True

/-! ## What a section does to the index -/

/-- A session is opened and gets the entry, or sessions end and their entries go. -/
inductive IndexStep (m m' : QueueMgr) (ends : List Bytes) : Option (Bytes × CStr × CStr) → Prop
  | opened {code : Bytes} {queue client : CStr}
      (hpair : sessionPair m' = Function.update (sessionPair m) code (some (client, queue)))
      (hindex : m'.client2MsgCode =
        Function.update m.client2MsgCode (client, queue) (some code)) :
      IndexStep m m' ends (some (code, queue, client))
  | ended (hpair : sessionPair m' = without (sessionPair m) ends)
      (hgone : ∀ pair, (∃ code ∈ ends, sessionPair m code = some pair) →
        m'.client2MsgCode pair = none)
      (hkept : ∀ pair, (∀ code ∈ ends, sessionPair m code ≠ some pair) →
        m'.client2MsgCode pair = m.client2MsgCode pair) :
      IndexStep m m' ends none

namespace QueueMgr

variable {m m' : QueueMgr}

/-- Nothing happens. -/
theorem indexStep_same (hpair : sessionPair m' = sessionPair m)
    (hindex : m'.client2MsgCode = m.client2MsgCode) : IndexStep m m' [] none := by
  refine .ended ?_ (by simp) (fun pair _ => by rw [hindex])
  rw [hpair]
  funext code
  simp [without]

theorem touch_client2MsgCode (now : Nat) (code : Bytes) (item : CodeItem) (queue : Queue) :
    (m.touch now code item queue).client2MsgCode = m.client2MsgCode := by
  simp only [touch]
  split
  · rfl
  · rfl

theorem touch_sessionPair {code : Bytes} {item : CodeItem}
    (h : m.msgQueueCode2QueueName code = some item) (now : Nat) (queue : Queue) :
    sessionPair (m.touch now code item queue) = sessionPair m := by
  funext code'
  have hs := touch_session now code item queue m h code'
  have hswap : ∀ o : Option CodeItem, o.map (fun i => (i.clientName, i.queueName)) =
      (o.map fun i => (i.queueName, i.clientName)).map Prod.swap := by
    intro o
    rcases o <;> rfl
  unfold sessionPair
  rw [hswap, hs, ← hswap]

theorem sessionPair_of_none {code : Bytes} (h : m.msgQueueCode2QueueName code = none) :
    sessionPair m code = none := by
  rw [sessionPair, h]
  rfl

theorem sessionPair_of_some {code : Bytes} {item : CodeItem}
    (h : m.msgQueueCode2QueueName code = some item) :
    sessionPair m code = some (item.clientName, item.queueName) := by
  rw [sessionPair, h]
  rfl

/-- The index has lost the entries of the clients and queues of some sessions, and no other. -/
def Drops (m m' : QueueMgr) (ends : List Bytes) : Prop :=
  ∀ pair, ((∃ code ∈ ends, sessionPair m code = some pair) → m'.client2MsgCode pair = none) ∧
    ((∀ code ∈ ends, sessionPair m code ≠ some pair) →
      m'.client2MsgCode pair = m.client2MsgCode pair)

theorem drops_nil (m : QueueMgr) : Drops m m [] := by
  intro pair
  simp

/-- The session of a code is ended, as `CloseQueue` and `RemoveExpireMsgQueueCode` do it. -/
theorem drops_session {code : Bytes} {item : CodeItem}
    (h : m.msgQueueCode2QueueName code = some item) (table : Bytes → Option CodeItem)
    (seq : List SeqItem) :
    Drops m { m with
      client2MsgCode := Function.update m.client2MsgCode (item.clientName, item.queueName) none
      msgQueueCode2QueueName := table
      msgCodeSequence := seq } [code] := by
  intro pair
  constructor
  · rintro ⟨code', hc, hp⟩
    rw [List.mem_singleton.mp hc, sessionPair_of_some h, Option.some.injEq] at hp
    simp only [← hp, Function.update_self]
  · intro hno
    have hne : pair ≠ (item.clientName, item.queueName) := by
      rintro rfl
      exact hno code List.mem_cons_self (sessionPair_of_some h)
    simp only [Function.update_of_ne hne]

/-- One session after the other. -/
theorem Drops.cons {m₁ : QueueMgr} {code : Bytes} {ends : List Bytes} (h₁ : Drops m m₁ [code])
    (h₂ : Drops m₁ m' ends) (hsame : ∀ c ∈ ends, sessionPair m₁ c = sessionPair m c) :
    Drops m m' (code :: ends) := by
  intro pair
  constructor
  · rintro ⟨c, hc, hpair⟩
    by_cases hin : ∃ c ∈ ends, sessionPair m c = some pair
    · obtain ⟨c', hc', hpair'⟩ := hin
      exact (h₂ pair).1 ⟨c', hc', (hsame c' hc').trans hpair'⟩
    · have hno : ∀ c ∈ ends, sessionPair m c ≠ some pair := fun c hc hp => hin ⟨c, hc, hp⟩
      have hkept := (h₂ pair).2 fun c hc => by
        rw [hsame c hc]
        exact hno c hc
      rcases List.mem_cons.mp hc with rfl | hc
      · rw [hkept]
        exact (h₁ pair).1 ⟨c, List.mem_singleton.mpr rfl, hpair⟩
      · exact absurd hpair (hno c hc)
  · intro hno
    have hkept := (h₂ pair).2 fun c hc => by
      rw [hsame c hc]
      exact hno c (List.mem_cons_of_mem _ hc)
    rw [hkept]
    exact (h₁ pair).2 (List.forall_mem_singleton.mpr (hno code List.mem_cons_self))

/-- The index after the loop of `RemoveExpireMsgQueueCode`. -/
theorem removeExpireLoop_index (e : Int) (l : List SeqItem) (i : Int) (m : QueueMgr) {n : Nat}
    {m' : QueueMgr} (h : removeExpireLoop e l i m = some (n, m'))
    (hnd : (l.map SeqItem.msgQueueCode).Nodup) :
    Drops m m' ((l.take n).map SeqItem.msgQueueCode) := by
  induction l generalizing i m n with
  | nil =>
    obtain ⟨rfl, rfl⟩ : 0 = n ∧ m = m' := by simpa [removeExpireLoop] using h
    exact drops_nil m
  | cons it rest ih =>
    rw [List.map_cons, List.nodup_cons] at hnd
    unfold removeExpireLoop at h
    split at h
    · split at h
      · obtain ⟨rfl, rfl⟩ : 0 = n ∧ m = m' := by simpa using h
        exact drops_nil m
      · split at h
        · simp at h
        · rename_i item hitem
          obtain ⟨⟨n', m''⟩, hloop, heq⟩ := Option.map_eq_some_iff.mp h
          obtain ⟨rfl, rfl⟩ : n' + 1 = n ∧ m'' = m' := by simpa using heq
          rw [List.take_succ_cons, List.map_cons]
          refine Drops.cons (drops_session hitem _ _) (ih _ _ hloop hnd.2) fun code hcode => ?_
          -- the other nodes have other codes, whose sessions are untouched
          have hne : code ≠ it.msgQueueCode := by
            rintro rfl
            exact hnd.1 (((List.take_sublist n' rest).map _).subset hcode)
          unfold sessionPair
          simp only [Function.update_of_ne hne]
    · obtain ⟨rfl, rfl⟩ : 0 = n ∧ m = m' := by simpa using h
      exact drops_nil m

/-- The codes the loop passes, from the back, are those behind the cut. -/
theorem mem_take_reverse (l : List SeqItem) (n : Nat) (code : Bytes) :
    code ∈ (l.reverse.take n).map SeqItem.msgQueueCode ↔
      code ∈ (l.drop (l.length - n)).map SeqItem.msgQueueCode := by
  rw [List.take_reverse, List.map_reverse, List.mem_reverse]

/-- `RemoveExpireMsgQueueCode` and the index. -/
theorem Sessions.removeExpire_index (h : m.Sessions) {e : Int}
    (he : m.removeExpireMsgQueueCode e = some m') :
    IndexStep m m' (Section.ends m (.removeExpireMsgQueueCode e)) none := by
  have hnd : (m.msgCodeSequence.reverse.map SeqItem.msgQueueCode).Nodup := by
    rw [List.map_reverse]
    exact List.nodup_reverse.mpr h.codes
  obtain ⟨n, m₁, hloop, hn, -, hmap⟩ := removeExpireLoop_spec e m.msgCodeSequence.reverse 0 m
    (fun it hit => h.listed it (List.mem_reverse.mp hit)) hnd
  obtain rfl : n = m.passed e := by rw [hn]; simp [passed]
  have hm' : m' = { m₁ with
      msgCodeSequence := m.msgCodeSequence.take (m.msgCodeSequence.length - m.passed e) } := by
    unfold removeExpireMsgQueueCode at he
    rw [hloop] at he
    exact (Option.some.inj he).symm
  have hindex := removeExpireLoop_index e _ 0 m hloop hnd
  simp only [Drops, mem_take_reverse] at hmap hindex
  subst hm'
  refine .ended ?_ (fun pair => (hindex pair).1) (fun pair => (hindex pair).2)
  funext code
  unfold sessionPair without Section.ends
  simp only [hmap]
  split
  · rfl
  · rfl

/-- `CloseQueue` and the index. -/
theorem closeQueue_index (code : Bytes) : IndexStep m (m.closeQueue code).2 [code] none := by
  unfold QueueMgr.closeQueue
  rcases hi : m.msgQueueCode2QueueName code with - | item
  · have hpair := sessionPair_of_none hi
    refine .ended ?_ ?_ (fun _ _ => rfl)
    · funext code'
      by_cases hc : code' = code
      · subst hc
        simp [without, hpair]
      · simp [without, hc]
    · rintro pair ⟨code', hc, hp⟩
      rw [List.mem_singleton.mp hc, hpair] at hp
      simp at hp
  · have hdrops := drops_session hi
    refine .ended ?_ (fun pair => (hdrops _ _ pair).1) (fun pair => (hdrops _ _ pair).2)
    funext code'
    by_cases hc : code' = code
    · subst hc
      simp [without, sessionPair]
    · simp [without, sessionPair, hc]

/-- Every section, and the index. -/
theorem Sessions.index_run (h : m.Sessions) {now : Nat} {u : Uuid} {s : Section} {r : s.Res}
    (hs : s.run now u m = some (r, m')) : IndexStep m m' (s.ends m) (s.opens r) := by
  rcases s with code | code | ⟨q, c⟩ | a | code | n | e
  · rcases m.pushLock_cases now code with ⟨ret, -, hl, -⟩ | ⟨item, queue, hi, -, hl⟩
    · rw [Section.run, hl] at hs
      cases hs
      exact indexStep_same rfl rfl
    · rw [Section.run, hl] at hs
      cases hs
      exact indexStep_same (touch_sessionPair hi now queue) (touch_client2MsgCode ..)
  · rcases m.popLock_cases now code with ⟨ret, -, hl, -⟩ | ⟨item, queue, hi, -, hl⟩
    · rw [Section.run, hl] at hs
      cases hs
      exact indexStep_same rfl rfl
    · rw [Section.run, hl] at hs
      cases hs
      exact indexStep_same (touch_sessionPair hi now queue) (touch_client2MsgCode ..)
  · rw [Section.run] at hs
    cases hs
    exact indexStep_same rfl rfl
  · rw [Section.run] at hs
    cases hs
    refine .opened ?_ rfl
    funext code
    by_cases hc : code = genMsgQueueCode u
    · simp [sessionPair, hc]
    · simp [sessionPair, hc]
  · have hm : m' = (m.closeQueue code).2 := by
      rw [Section.run, Option.some.injEq] at hs
      rw [hs]
    subst hm
    exact closeQueue_index code
  · rw [Section.run] at hs
    cases hs
    exact indexStep_same rfl rfl
  · rw [Section.run] at hs
    obtain ⟨m₁, he, heq⟩ := Option.map_eq_some_iff.mp hs
    obtain rfl : m₁ = m' := congrArg Prod.snd heq
    exact h.removeExpire_index he

end QueueMgr

/-! ## Every run -/

/-- The session table with its history: every code was opened once, with a uuid generated before. -/
structure IndexInv (w : World) : Prop where
  table : Table w
  known : Known (openedFor w.log) (sessionPair w.mgr)
  used : ∀ o ∈ openedFor w.log, ∃ u ∈ w.used, genMsgQueueCode u = o.1

variable {w w' : World} {t : Tid} {e : Env}

theorem openedFor_locked (log : List Event) (call : Option Call) (now : Nat) (s : Section)
    (r : s.Res) : openedFor (log ++ [.did t call (.locked now s r)]) =
      openedFor log ++ ((s.opens r).map fun o => (o.1, o.2.2, o.2.1)).toList := by
  unfold openedFor
  rw [opens_locked, List.map_append]
  rcases s.opens r with - | o <;> rfl

theorem IndexStep.opened_eq {m m' : QueueMgr} {ends : List Bytes} {code : Bytes}
    {queue client : CStr} (h : IndexStep m m' ends (some (code, queue, client))) :
    sessionPair m' = Function.update (sessionPair m) code (some (client, queue)) ∧
      m'.client2MsgCode = Function.update m.client2MsgCode (client, queue) (some code) := by
  rcases h with ⟨hpair, hindex⟩ | -
  exact ⟨hpair, hindex⟩

theorem IndexStep.ended_eq {m m' : QueueMgr} {ends : List Bytes} (h : IndexStep m m' ends none) :
    sessionPair m' = without (sessionPair m) ends ∧ Drops m m' ends := by
  rcases h with - | ⟨hpair, hgone, hkept⟩
  exact ⟨hpair, fun pair => ⟨hgone pair, hkept pair⟩⟩

/-- Sessions end, and the index stays right exactly if with one of a client and queue all do. -/
theorem IndexStep.ended_right_iff {m m' : QueueMgr} {s : Section}
    {hist : List (Bytes × CStr × CStr)} (h : IndexStep m m' (s.ends m) none)
    (hk : Known hist (sessionPair m))
    (hright : ∀ pair, m.client2MsgCode pair = latest hist (sessionPair m) pair) :
    (∀ pair, m'.client2MsgCode pair = latest hist (sessionPair m') pair) ↔ s.EndsAll m := by
  obtain ⟨hpair, hdrops⟩ := h.ended_eq
  have hgone := fun pair => (hdrops pair).1
  have hkept := fun pair => (hdrops pair).2
  rw [hpair]
  constructor
  · intro hright' code hcode pair hp code' hp'
    by_contra hnot
    have hnone := hright' pair
    rw [hgone pair ⟨code, hcode, hp⟩] at hnone
    have hno := (latest_eq_none_iff (hk.without _)).mp hnone.symm code'
    rw [without, if_neg hnot] at hno
    exact hno hp'
  · intro hall pair
    by_cases hex : ∃ code ∈ s.ends m, sessionPair m code = some pair
    · obtain ⟨code, hcode, hp⟩ := hex
      rw [hgone pair ⟨code, hcode, hp⟩]
      refine ((latest_eq_none_iff (hk.without _)).mpr fun code' hp' => ?_).symm
      unfold without at hp'
      split at hp'
      · simp at hp'
      · rename_i hnot
        exact hnot (hall code hcode pair hp code' hp')
    · have hno : ∀ code ∈ s.ends m, sessionPair m code ≠ some pair :=
        fun code hcode hp => hex ⟨code, hcode, hp⟩
      rw [hkept pair hno, hright pair, latest_end hk hno]

/-- A section that opens a session ends none. -/
theorem Section.ends_of_opens {s : Section} {r : s.Res} {o : Bytes × CStr × CStr}
    (h : s.opens r = some o) (m : QueueMgr) : s.ends m = [] := by
  rcases s <;> first | rfl | exact absurd h (by simp [Section.opens])

theorem IndexInv.lock (h : IndexInv w) {s : Section} {r : s.Res}
    (hl : w.lock t e s = some (r, w')) :
    IndexInv w' ∧ (IndexRight w → (IndexRight w' ↔ s.EndsAll w.mgr)) := by
  have htab := (h.table.lock hl).1
  obtain ⟨hu, m', hrun, rfl⟩ := World.lock_eq hl
  have hstep := h.table.sessions.index_run hrun
  have hused : ∀ {u : Uuid}, u ∈ w.used →
      u ∈ if s.takesUuid then e.uuid :: w.used else w.used := by
    intro u hmem
    split
    · exact List.mem_cons_of_mem _ hmem
    · exact hmem
  rcases ho : s.opens r with - | ⟨code, queue, client⟩
  · rw [ho] at hstep
    have hlog : openedFor (w.did t (.locked e.now s r)).log = openedFor w.log := by
      simp [World.did, openedFor_locked, ho]
    refine ⟨⟨htab, ?_, ?_⟩, fun hright => ?_⟩
    · have hpair := hstep.ended_eq.1
      show Known (openedFor (w.did t (.locked e.now s r)).log) (sessionPair m')
      rw [hlog, hpair]
      exact h.known.without _
    · intro o hmem
      obtain ⟨u, hu', hcode⟩ := h.used o (hlog ▸ hmem)
      exact ⟨u, hused hu', hcode⟩
    · unfold IndexRight
      show (∀ pair, m'.client2MsgCode pair = latest
        (openedFor (w.did t (.locked e.now s r)).log) (sessionPair m') pair) ↔ _
      rw [hlog]
      exact hstep.ended_right_iff h.known hright
  · rw [ho] at hstep
    obtain ⟨htakes, hgen⟩ := Section.opens_code hrun ho
    have hnew : code ∉ (openedFor w.log).map Prod.fst := by
      intro hmem
      obtain ⟨o, ho', rfl⟩ := List.mem_map.mp hmem
      obtain ⟨v, hv, hvo⟩ := h.used o ho'
      exact hu htakes (genMsgQueueCode_injective (hvo.trans hgen.symm) ▸ hv)
    have hlog : openedFor (w.did t (.locked e.now s r)).log =
        openedFor w.log ++ [(code, client, queue)] := by
      simp [World.did, openedFor_locked, ho]
    obtain ⟨hpair, hindex⟩ := hstep.opened_eq
    refine ⟨⟨htab, ?_, ?_⟩, fun hright => ?_⟩
    · show Known (openedFor (w.did t (.locked e.now s r)).log) (sessionPair m')
      rw [hlog, hpair]
      exact h.known.open hnew _
    · intro o hmem
      rcases List.mem_append.mp (hlog ▸ hmem) with hmem | hmem
      · obtain ⟨u, hu', hcode⟩ := h.used o hmem
        exact ⟨u, hused hu', hcode⟩
      · rw [List.mem_singleton.mp hmem]
        exact ⟨e.uuid, by simp [htakes, World.did], hgen⟩
    · refine iff_of_true ?_ (by simp [Section.EndsAll, Section.ends_of_opens ho])
      intro pair
      show m'.client2MsgCode pair =
        latest (openedFor (w.did t (.locked e.now s r)).log) (sessionPair m') pair
      rw [hlog, hpair, latest_open hnew, hindex]
      by_cases hp : pair = (client, queue)
      · rw [hp, Function.update_self, if_pos rfl]
      · rw [Function.update_of_ne hp, if_neg hp]
        exact hright pair

/-- **One section.** From a right index it leads to a right one exactly if it ends all sessions of a
client and queue with one of them. -/
theorem index_lock_iff (h : IndexInv w) (hright : IndexRight w) {s : Section} {r : s.Res}
    (hl : w.lock t e s = some (r, w')) : IndexRight w' ↔ s.EndsAll w.mgr := (h.lock hl).2 hright

/-- An action that is no section leaves the sessions and their history alone. -/
theorem IndexInv.other (h : IndexInv w) (htab : Table w') (hmgr : w'.mgr = w.mgr)
    (hused : w'.used = w.used) (hlog : openedFor w'.log = openedFor w.log) :
    IndexInv w' ∧ (IndexRight w → IndexRight w') := by
  refine ⟨⟨htab, ?_, ?_⟩, fun hright pair => ?_⟩
  · rw [hlog, hmgr]
    exact h.known
  · rw [hlog, hused]
    exact h.used
  · rw [hlog, hmgr]
    exact hright pair

theorem IndexInv.exec (link : Link) (h : IndexInv w) (hright : IndexRight w) {a : Act} {r : a.Res}
    (hg : endingAll.act w t e a) (hex : w.exec link t e a = some (r, w')) :
    IndexInv w' ∧ IndexRight w' := by
  have htab := h.table.exec link hex
  rcases World.exec_cases hex with ⟨hmgr, hused, -, hlog⟩ | ⟨s, rfl⟩
  · have hopened : openedFor w'.log = openedFor w.log := by
      rcases hlog with hlog | ⟨c, r', hlog⟩
      · rw [hlog]
      · simp [hlog, openedFor, opens]
    obtain ⟨hinv, hright'⟩ := h.other htab hmgr hused hopened
    exact ⟨hinv, hright' hright⟩
  · obtain ⟨hinv, hiff⟩ := h.lock hex
    exact ⟨hinv, (hiff hright).mpr hg⟩

/-- A server that has just been started has no entry either. -/
structure NoClients (m : QueueMgr) : Prop extends NoSessions m where
  index : ∀ pair, m.client2MsgCode pair = none

theorem NoClients.inv {c : Conf} (hb : Boot c) (h₀ : NoClients c.shared.mgr) :
    IndexInv c.shared ∧ IndexRight c.shared := by
  have hlog : openedFor c.shared.log = [] := by rw [hb.log]; rfl
  have hpair : ∀ code, sessionPair c.shared.mgr code = none := by
    intro code
    unfold sessionPair
    rw [h₀.map]
    rfl
  refine ⟨⟨h₀.table, ?_, by simp [hlog]⟩, fun pair => ?_⟩
  · rw [hlog]
    exact ⟨List.nodup_nil, fun {code pair} hp => by simp [hpair] at hp⟩
  · rw [hlog, h₀.index]
    rfl

/-- **The index of clients.** In every run in which every section that ends a session ends all
sessions of its client and queue, in every state: a client with a live session for a queue is found
with the one opened last, and one without is not found. -/
theorem index_of_reach {link : Link} {c₀ c : Conf} (hb : Boot c₀) (h₀ : NoClients c₀.shared.mgr)
    (hc : (server link).Reach endingAll c₀ c) : IndexRight c.shared := by
  have hinv : IndexInv c.shared ∧ IndexRight c.shared := by
    refine hc.of_steps (I := fun w => IndexInv w ∧ IndexRight w) (h₀.inv hb) ?_ ?_ ?_
    · rintro w t op ⟨hw, hright⟩ -
      exact ⟨⟨⟨hw.table.sessions, hw.table.used⟩, hw.known, hw.used⟩, hright⟩
    · rintro w t e a r w' ⟨hw, hright⟩ hg hex
      exact hw.exec link hright hg hex
    · rintro w t op x ⟨hw, hright⟩
      have hlog : openedFor (w.log ++ [.ret t (w.cur t) x]) = openedFor w.log := by
        simp [openedFor, opens]
      have hret : IndexInv ((server link).onRet w t op x) ∧
          (IndexRight w → IndexRight ((server link).onRet w t op x)) :=
        hw.other ⟨hw.table.sessions, hw.table.used⟩ rfl rfl hlog
      exact ⟨hret.1, hret.2 hright⟩
  exact hinv.2

/-! ## Two runs -/

/-- A test that suffices for `endingAll`: no section that can end a session. -/
def endsNothing (c : Conf) : Sys.Move Env Op → Bool
  | .call _ _ => true
  | .step t _ =>
    match c.run t with
    | some (_, .act (.locked s) _) => (s.ends c.shared.mgr).isEmpty
    | _ => true

theorem allows_endingAll (c : Conf) (mv : Sys.Move Env Op) (h : endsNothing c mv) :
    Sys.Allows endingAll c mv := by
  rcases mv with ⟨t, op⟩ | ⟨t, e⟩
  · exact True.intro
  · refine Sys.allows_step fun op a k hrun => ?_
    rcases a with c' | - | c' | - | s
    · trivial
    · trivial
    · trivial
    · trivial
    · have hends : s.ends c.shared.mgr = [] := by simpa [endsNothing, hrun] using h
      intro code hcode
      rw [hends] at hcode
      simp at hcode

/-- A client opens a session for the queue `q` at a time, with the uuid of a byte. -/
def opensSession (client : CStr) (now : Nat) (b : UInt8) : List (Sys.Move Env Op) :=
  callSteps 0 (.openQueue ⟨⟨ascii "q", noNul_q⟩, 0, 0, 0, .publisher, 0, client⟩) 3
    ⟨now, .ofByte b, some (.integer 1)⟩

/-- Two sessions, which are for different clients or queues. -/
theorem endsAll_of_two {m : QueueMgr} {code₁ code₂ : Bytes} {item₁ item₂ : CodeItem}
    (hm : m.msgQueueCode2QueueName =
      Function.update (Function.update (fun _ => none) code₁ (some item₁)) code₂ (some item₂))
    (hne : item₁.clientName ≠ item₂.clientName) (s : Section) : s.EndsAll m := by
  have hpair : ∀ code pair, sessionPair m code = some pair →
      code = code₂ ∧ pair.1 = item₂.clientName ∨ code = code₁ ∧ pair.1 = item₁.clientName := by
    intro code pair hlive
    rw [sessionPair, hm] at hlive
    by_cases h₂ : code = code₂
    · rw [h₂, Function.update_self] at hlive
      cases hlive
      exact .inl ⟨h₂, rfl⟩
    · rw [Function.update_of_ne h₂] at hlive
      by_cases h₁ : code = code₁
      · rw [h₁, Function.update_self] at hlive
        cases hlive
        exact .inr ⟨h₁, rfl⟩
      · rw [Function.update_of_ne h₁] at hlive
        cases hlive
  intro code hcode pair hlive code' hlive'
  suffices heq : code' = code by rwa [heq]
  rcases hpair code pair hlive with ⟨h, hc⟩ | ⟨h, hc⟩ <;>
    rcases hpair code' pair hlive' with ⟨h', hc'⟩ | ⟨h', hc'⟩
  · rw [h, h']
  · exact absurd (hc'.symm.trans hc) hne
  · exact absurd (hc.symm.trans hc') hne
  · rw [h, h']

/-- Of the sessions of two clients the first has expired. -/
theorem index_two_sessions : ∃ c, (server .any).Reach endingAll
    (boot (QueueMgr.init 1000) fun _ => none) c ∧ (openedFor c.shared.log).length = 2 ∧
      c.shared.mgr.client2MsgCode (⟨ascii "c", noNul_c⟩, ⟨ascii "q", noNul_q⟩) = none ∧
      c.shared.mgr.client2MsgCode (⟨ascii "q", noNul_q⟩, ⟨ascii "q", noNul_q⟩) =
        some (hexText (List.replicate 16 2)) ∧
      IndexRight c.shared := by
  have hreach := Sys.reach_get allows_endingAll (server .any)
    (boot (QueueMgr.init 1000) fun _ => none)
    (opensSession ⟨ascii "c", noNul_c⟩ 5 1 ++ opensSession ⟨ascii "q", noNul_q⟩ 50 2 ++
      [.call 0 (.removeExpireMsgQueueCode 30)]) rfl
  have hreach' := Sys.reach_of_move (m := .step 0 ⟨60, .ofByte 0, none⟩) hreach
    (Sys.allows_step fun op a k hrun => by
      have hrun' : some (Op.removeExpireMsgQueueCode 30, callProg (.removeExpireMsgQueueCode 30)) =
          some (op, .act a k) := hrun
      cases hrun'
      exact endsAll_of_two rfl (by decide) _) rfl
  exact ⟨_, hreach', rfl, rfl, rfl, index_of_reach (boot_boot _ _)
    ⟨noSessions_init 1000, fun _ => rfl⟩ hreach'⟩

/-- Of two sessions of a client the first is closed: the second is no longer found. -/
theorem not_index : ¬ ∀ c₀ c : Conf, Boot c₀ → NoClients c₀.shared.mgr →
    (server .any).Reach Sys.free c₀ c → IndexRight c.shared := by
  intro hall
  have hreach := Sys.reach_free (server .any) (boot (QueueMgr.init 1000) fun _ => none)
    (opensSession ⟨ascii "c", noNul_c⟩ 5 1 ++ opensSession ⟨ascii "c", noNul_c⟩ 5 2 ++
      [.call 0 (.closeQueue (hexText (List.replicate 16 1))), .step 0 ⟨6, .ofByte 0, none⟩]) rfl
  have hright := hall _ _ (boot_boot _ _) ⟨noSessions_init 1000, fun _ => rfl⟩ hreach
    (⟨ascii "c", noNul_c⟩, ⟨ascii "q", noNul_q⟩)
  exact absurd hright (by decide)

end Domq.Mq

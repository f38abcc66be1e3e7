import Domq.Mq.PubSub.Sections

/-!
# Publish and subscribe

The subscribers of a queue are kept twice: in `Queue::clients`, to which `PushMsg` sends, and in the
hash `__meta_sub_<queue>`, from which `LoadQueues` fills `Queue::clients`. Calls come one after the
other here, so nothing gets between the two writes of a `CreateSubscriber`. But `PopMsg` writes the
time into the hash under the client of its session without looking whether that client is a
subscriber: a publisher that pops is in the hash afterwards, gets messages after the next reload
(`popped_not_subscribed`), and is not cached when it subscribes.

* `pubSub_delivers`: in the runs of `subscribersPop` (`PubSub/Agreed.lean`) every successful
  `PushMsg` appends one copy for each subscriber.
* `inTurn`, `reach_inTurn`: the schedules of one thread that are such runs.
-/

namespace Domq.Mq

open Domq.Lib Domq.Redis OpenArgs

/-! ## Every run -/

/-- At most one thread is in a call, and the copies agree. -/
def World.Agrees (w : World) : Prop :=
  ∃ t, (∀ t', t' ≠ t → w.cur t' = none) ∧ Agreed w.redis w.mgr w.log (w.cur t)

theorem World.Agrees.step {w w' : World} {t : Tid} (h : w.Agrees)
    (hs : Step subscribersPop w t w') : w'.Agrees := by
  obtain ⟨t₀, hothers, h⟩ := h
  have ht : ∀ {call}, w.cur t = some call → t = t₀ := by
    intro call hcur
    by_contra hne
    rw [hothers t hne] at hcur
    cases hcur
  have hcur' : ∀ (o : Option Call) t', t' ≠ t₀ → Function.update w.cur t₀ o t' = none := by
    intro o t' hne
    rw [Function.update_of_ne hne]
    exact hothers t' hne
  cases hs with
  | call op hcur hg =>
    refine ⟨t, fun t' hne => ?_, ?_⟩
    · simp only [Function.update_of_ne hne]
      exact hg.1 t'
    · rw [hg.1 t₀] at h
      simp only [Function.update_self]
      exact h.start hg.2
  | quiet pipe clock => exact ⟨t₀, hothers, h⟩
  | redis call c e a pipe hcur hex hf hnext hg =>
    obtain rfl := ht hcur
    refine ⟨t, hcur' _, ?_⟩
    rw [hcur] at h
    simp only [World.did, Function.update_self, hcur, Option.map_some]
    exact h.redis hex hf t _
  | locked call s e hcur hl hg hlock =>
    obtain rfl := ht hcur
    obtain ⟨-, m', hrun, rfl⟩ := World.lock_eq hlock
    refine ⟨t, hcur' _, ?_⟩
    rw [hcur] at h
    simp only [World.did, Function.update_self, hcur, Option.map_some]
    exact h.locked hl hrun
      (fun code item queue hs => hg code item queue (congrArg Act.locked hs)) t _
  | ret call x hcur hret =>
    obtain rfl := ht hcur
    refine ⟨t, hcur' _, ?_⟩
    rw [hcur] at h
    simp only [Function.update_self]
    exact h.ret hret t

theorem agrees_boot (n : Int32) : (boot (QueueMgr.init n) fun _ => none).shared.Agrees := by
  refine ⟨0, fun _ _ => rfl, stored_empty, nofun, fun q => ?_, nofun, ?_⟩
  · refine .absent List.not_mem_nil rfl rfl ?_
    rintro c ⟨t, a, evs, x, hmem, -⟩
    cases hmem
  · intro before after t code data evs x heq
    exact absurd heq.symm (by simp [boot])

/-- **Publish and subscribe**, when nobody pops from a `SUB2PUB` queue but its subscribers: after
calls one after the other, every `PushMsg` that has returned `SUCCESS` on such a queue has appended
one copy of its message to the list of each client that had subscribed, and nothing else. -/
theorem pubSub_delivers (n : Int32) {c : Conf}
    (hc : (server .redis).Reach subscribersPop (boot (QueueMgr.init n) fun _ => none) c) :
    PubSub c.shared.log := by
  obtain ⟨⟨t, -, h⟩, -, -⟩ := reach_protocol (boot_boot _ _) wellTyped_empty (agrees_boot n)
    (fun w t w' hw _ hs => hw.step hs) hc
  exact h.delivered

/-! ## Runs of one thread -/

/-- A test for the calls of these runs. -/
def serves : Op → Bool
  | .openQueue a => a.role ≠ .other
  | .removeExpireMsgQueueCode _ => false
  | _ => true

/-- A test that suffices for `sequential`: thread `0` calls when it is in no call. -/
def inTurn (c : Conf) : Sys.Move Env Op → Bool
  | .call t op => t < 1 && (c.shared.cur 0).isNone && serves op
  | .step t _ => t < 1

/-- The client of the session is a subscriber of its queue. -/
def popsOwn (m : QueueMgr) (code : Bytes) : Bool :=
  match m.msgQueueCode2QueueName code with
  | none => true
  | some item =>
    match m.name2Queue item.queueName with
    | none => true
    | some queue => queue.option.msgType ≠ SUB2PUB ||
      item.clientName ∈ queue.clients.map SubQueue.client

/-- A test that suffices for `subscribersPop`. -/
def inTurnPops (c : Conf) (mv : Sys.Move Env Op) : Bool :=
  inTurn c mv && match mv with
    | .call _ _ => true
    | .step t _ =>
      match c.run t with
      | some (_, .act (.locked (.popLock code)) _) => popsOwn c.shared.mgr code
      | _ => true

theorem inTurn_mover {c : Conf} {mv : Sys.Move Env Op} (h : inTurn c mv) : mover mv < 1 := by
  cases mv <;> simp only [inTurn, Bool.and_eq_true, decide_eq_true_eq] at h
  · exact h.1.1
  · exact h

theorem served_of_inTurn {c : Conf} {t : Tid} {op : Op} (hth : Threads 1 c)
    (h : inTurn c (.call t op)) : (∀ t', c.shared.cur t' = none) ∧ Served op := by
  simp only [inTurn, Bool.and_eq_true, decide_eq_true_eq, Option.isNone_iff_eq_none] at h
  refine ⟨fun t' => ?_, ?_⟩
  · rcases Nat.eq_zero_or_pos t' with rfl | hpos
    · exact h.1.2
    · exact hth t' hpos
  · cases op with
    | openQueue a => simpa [serves, Served] using h.2
    | removeExpireMsgQueueCode e => simp [serves] at h
    | _ => exact trivial

theorem allows_sequential (c : Conf) (mv : Sys.Move Env Op) (hth : Threads 1 c)
    (h : inTurn c mv) : Sys.Allows sequential c mv := by
  cases mv with
  | call t op => exact served_of_inTurn hth h
  | step t e => exact Sys.allows_step fun _ _ _ _ => True.intro

theorem allows_subscribersPop (c : Conf) (mv : Sys.Move Env Op) (hth : Threads 1 c)
    (h : inTurnPops c mv) : Sys.Allows subscribersPop c mv := by
  obtain ⟨hturn, hpop⟩ := Bool.and_eq_true_iff.mp h
  cases mv with
  | call t op => exact served_of_inTurn hth hturn
  | step t e =>
    refine Sys.allows_step fun op a k hrun => ?_
    rintro code item queue rfl hi hq hty
    simp only [hrun, popsOwn, hi, hq, Bool.or_eq_true, decide_eq_true_eq] at hpop
    rcases hpop with hne | hmem
    · exact absurd hty hne
    · exact hmem

/-- The code of the session opened with the uuid `u`. -/
def codeOf (u : UInt8) : Bytes := genMsgQueueCode (openEnv u).uuid

/-- A publisher opens a queue, pops, and pushes after a reload. -/
def publisherPops : List (Sys.Move Env Op) :=
  callSteps 0 (.openQueue (openSub .publisher)) 8 (openEnv 0) ++
    callSteps 0 (.popMsg (codeOf 0)) 7 (openEnv 1) ++ callSteps 0 .loadQueueMeta 11 (openEnv 1) ++
    callSteps 0 (.pushMsg (codeOf 0) (ascii "m")) 7 (openEnv 1)

/-- A client subscribes, another publishes, and the first pops. -/
def subscriberPops : List (Sys.Move Env Op) :=
  callSteps 0 (.openQueue (openSub .publisher)) 8 (openEnv 0) ++
    callSteps 0 (.openQueue (openSub .subscriber)) 10 (openEnv 1) ++
    callSteps 0 (.pushMsg (codeOf 0) (ascii "m")) 7 (openEnv 2) ++
    callSteps 0 (.popMsg (codeOf 1)) 7 (openEnv 2)

/-- What a schedule of thread `0` computes is reached. -/
theorem reach_inTurn {G : Guard Act World Env Op} {ok : Conf → Sys.Move Env Op → Bool}
    (hturn : ∀ c mv, ok c mv → inTurn c mv)
    (hok : ∀ c mv, Threads 1 c → ok c mv → Sys.Allows G c mv) (ms : List (Sys.Move Env Op))
    (h : ((server .redis).moves ok (boot (QueueMgr.init 1000) fun _ => none) ms).isSome) :
    (server .redis).Reach G (boot (QueueMgr.init 1000) fun _ => none)
      (((server .redis).moves ok (boot (QueueMgr.init 1000) fun _ => none) ms).get h) :=
  Sys.reach_of_moves (fun _ _ _ hth hmv => hth.move (inTurn_mover (hturn _ _ hmv)))
    hok .init (fun _ _ => rfl) ms (Option.some_get h).symm

/-- Somebody has asked to subscribe. -/
def asksToSubscribe (log : List Event) : Bool :=
  log.any fun
    | .ret _ (some ⟨.openQueue a, _⟩) _ => a.role = .subscriber
    | _ => false

theorem Subscribed.asks {log : List Event} {q c : CStr} (h : Subscribed log q c) :
    asksToSubscribe log := by
  obtain ⟨t, a, evs, x, hmem, -, hr, -, -⟩ := h
  exact List.any_eq_true.mpr ⟨_, hmem, decide_eq_true hr⟩

/-- What `PubSub` says of one entry of the history. -/
theorem PubSub.get {log : List Event} (h : PubSub log) {i : Nat} {t : Tid} {code data : Bytes}
    {evs : List Ev} {x : Ret}
    (hi : log[i]? = some (.ret t (some ⟨.pushMsg code data, evs⟩) x)) (hx : x.1 = SUCCESS) :
    ∃ now q c ty buf, evs.head? = some (.locked now (.pushLock code) (.go q c ty buf)) ∧
      (ty = SUB2PUB → FansOut (log.take i) q data evs) := by
  refine h _ (log.drop (i + 1)) t code data evs x ?_ hx
  obtain ⟨hlt, hget⟩ := List.getElem?_eq_some_iff.mp hi
  rw [← hget, List.getElem_cons_drop, List.take_append_drop]

/-- A publisher that has popped gets the messages after a reload. -/
theorem popped_not_subscribed :
    ¬ ∀ c, (server .redis).Reach sequential (boot (QueueMgr.init 1000) fun _ => none) c →
      PubSub c.shared.log := by
  intro h
  have hreach := reach_inTurn (fun _ _ hmv => hmv) allows_sequential publisherPops rfl
  obtain ⟨now, q, c, ty, buf, hhead, hfan⟩ := (h _ hreach).get (i := 19) rfl rfl
  cases hhead
  obtain ⟨subs, -, hsubs, hpush⟩ := hfan rfl
  cases subs with
  | nil => cases hpush
  | cons c subs =>
    have hasks := ((hsubs c).mp List.mem_cons_self).asks
    revert hasks
    decide

/-- A message goes to the one subscriber, who pops it. -/
theorem pubSub_delivers_one : ∃ c evs,
    (server .redis).Reach subscribersPop (boot (QueueMgr.init 1000) fun _ => none) c ∧
      c.shared.log[15]? = some (.ret 0 (some ⟨.pushMsg (codeOf 0) (ascii "m"), evs⟩)
        (SUCCESS, none)) ∧
      evs.filterMap Ev.rpush? = [(getQueueSubName (ascii "q") (ascii "c"), ascii "m")] ∧
      PubSub c.shared.log := by
  have hreach := reach_inTurn (fun _ _ hmv => (Bool.and_eq_true_iff.mp hmv).1)
    allows_subscribersPop subscriberPops rfl
  exact ⟨_, _, hreach, rfl, rfl, pubSub_delivers 1000 hreach⟩

end Domq.Mq

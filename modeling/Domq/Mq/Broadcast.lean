import Domq.Mq.Fifo
import Domq.Mq.Subscribe

/-!
# Every list of messages is FIFO

Any number of threads call, in any interleaving, reloads included, while Redis executes every
command. A queue with subscribers has one list for each of them, and two pushes at the same time
may reach two lists in different orders; but each list, of a queue or of a subscriber, is a FIFO
queue of its own.

A push counts for the list whose turn it is in what the locked section of its call has found
(`pushTarget`), a pop for the list of its session (`popTarget`): both are read off the history of
the call, not off the key its command went to.

* `Fifos`: what was popped, and then the list, is the list at the start, and then what was pushed.
* `broadcast_fifo`: the result, for the list of a subscriber.
-/

namespace Domq.Mq

open Domq.Lib Domq.Redis

/-! ## Messages in the history -/

/-- The list the next `RPUSH` of a `PushMsg` is for. Each list gets two commands. -/
def pushTarget : List Ev → Option Bytes
  | .locked _ (.pushLock _) lock :: evs => (QueueMgr.PushLock.targets lock)[evs.length / 2]?
  | _ => none

/-- The list a `PopMsg` is about to pop from. -/
def popTarget : List Ev → Option Bytes
  | [.locked _ (.popLock _) (.go q c ty)] => some (popList q c ty)
  | _ => none

/-- The message of a `PushMsg` that is appended to the list `k` here. -/
def pushTo (k : Bytes) : Event → Option Bytes
  | .did _ (some ⟨.pushMsg _ data, evs⟩) (.redis (.rpush _ _) _) =>
    if pushTarget evs = some k then some data else none
  | _ => none

/-- The message a `PopMsg` has got from the list `k` here. -/
def popFrom (k : Bytes) : Event → Option Bytes
  | .did _ (some ⟨.popMsg _, evs⟩) (.redis (.lpop _) (.string d)) =>
    if popTarget evs = some k then some d else none
  | _ => none

/-- The messages appended to the list `k`, in their order. -/
def pushedTo (k : Bytes) (log : List Event) : List Bytes := log.filterMap (pushTo k)

/-- The messages popped from the list `k`, in their order. -/
def poppedFrom (k : Bytes) (log : List Event) : List Bytes := log.filterMap (popFrom k)

/-! ## Commands -/

theorem getElem?_flatMap_pair {α β : Type} (f g : α → β) (l : List α) (i : Nat) :
    (l.flatMap fun x => [f x, g x])[i]? =
      if i % 2 = 0 then l[i / 2]?.map f else l[i / 2]?.map g := by
  induction l generalizing i with
  | nil => simp
  | cons x l ih =>
    match i with
    | 0 => rfl
    | 1 => rfl
    | i + 2 =>
      have hdiv : (i + 2) / 2 = i / 2 + 1 := by omega
      rw [List.flatMap_cons, hdiv, List.getElem?_cons_succ, Nat.add_mod_right]
      exact ih i

/-- The commands of a `PushMsg`, two for each of its lists: the `RPUSH`, then the `HSET`. -/
theorem pushCmds_getElem? {q c : CStr} {ty : Int32} {buf : List CStr} {data : Bytes} {now i : Nat}
    {cmd : Cmd} (h : (pushCmds q ty buf data now)[i]? = some cmd) :
    (∃ k, (QueueMgr.PushLock.go q c ty buf).targets[i / 2]? = some k ∧ cmd = .rpush k data) ∨
      ∃ k f v, cmd = .hset k f v := by
  unfold pushCmds at h
  unfold QueueMgr.PushLock.targets
  split at h
  · next hty =>
    rw [getElem?_flatMap_pair] at h
    simp only [if_pos hty]
    split at h
    · obtain ⟨cl, hcl, rfl⟩ := Option.map_eq_some_iff.mp h
      exact .inl ⟨_, by rw [List.getElem?_map, hcl]; rfl, rfl⟩
    · obtain ⟨cl, -, rfl⟩ := Option.map_eq_some_iff.mp h
      exact .inr ⟨_, _, _, rfl⟩
  · next hty =>
    simp only [if_neg hty]
    match i, h with
    | 0, h => exact .inl ⟨_, rfl, (Option.some.inj h).symm⟩
    | 1, h => exact .inr ⟨_, _, _, (Option.some.inj h).symm⟩
    | i + 2, h => simp at h

/-- The command whose turn it is. -/
theorem getElem?_of_rest {cmds : List Cmd} {evs : List Ev} {cmd : Cmd} {rest : List Cmd}
    (h : cmds.map some = evs.map Ev.cmd? ++ some cmd :: rest.map some) :
    cmds[evs.length]? = some cmd := by
  have hget := congrArg (·[evs.length]?) h
  simp only [List.getElem?_map] at hget
  rw [List.getElem?_append_right (by simp)] at hget
  simpa using hget

/-- A command that neither pushes nor pops. -/
theorem keeps_list {c : Cmd} {st : Store} (hf : c.Fits st) (hpush : ∀ k d, c ≠ .rpush k d)
    (hpop : ∀ k, c ≠ .lpop k) (t : Tid) (call : Option Call) (r : Reply) (k : Bytes) :
    (popFrom k (.did t call (.redis c r))).toList ++ (c.exec st).2.list k =
      st.list k ++ (pushTo k (.did t call (.redis c r))).toList := by
  rw [Cmd.list_exec hf]
  cases c with
  | rpush k d => exact absurd rfl (hpush k d)
  | lpop k => exact absurd rfl (hpop k)
  | _ => simp [popFrom, pushTo, Cmd.onList]

/-- One command: what leaves the list is popped from it, and what enters it is pushed to it. -/
theorem list_of_command {call : Call} {c : Cmd} {st : Store} (hex : Exec call c) (hf : c.Fits st)
    (t : Tid) (k : Bytes) {ev : Event}
    (hev : ev = .did t (some call) (.redis c (c.exec st).1)) :
    (popFrom k ev).toList ++ (c.exec st).2.list k = st.list k ++ (pushTo k ev).toList := by
  subst hev
  cases hex with
  | push code data now q cl ty buf evs now' rest _ h =>
    rcases pushCmds_getElem? (c := cl) (getElem?_of_rest h) with ⟨k', hk', rfl⟩ | ⟨k', f, v, rfl⟩
    · rw [Cmd.list_exec hf]
      have htarget : pushTarget (.locked now (.pushLock code) (.go q cl ty buf) :: evs) =
          some k' := hk'
      by_cases hkk : k' = k
      · subst hkk
        simp [popFrom, pushTo, htarget, Cmd.onList]
      · simp [popFrom, pushTo, htarget, Cmd.onList, hkk]
    · exact keeps_list hf (by simp) (by simp) t _ _ k
  | pop code now q cl ty =>
    rw [Cmd.list_exec hf, Cmd.exec_reply hf]
    have htarget : popTarget [.locked now (.popLock code) (.go q cl ty)] =
        some (popList q cl ty) := rfl
    by_cases hk : popList q cl ty = k
    · rw [hk]
      cases hl : st.list k with
      | nil => simp [popFrom, pushTo, Cmd.onList, Cmd.reply, hl]
      | cons d l => simp [popFrom, pushTo, htarget, hk, Cmd.onList, Cmd.reply, hl]
    · have hpop : ∀ r, popFrom k (.did t (some ⟨.popMsg code,
          [.locked now (.popLock code) (.go q cl ty)]⟩) (.redis (.lpop (popList q cl ty)) r)) =
          none := by
        intro r
        cases r with
        | string d => exact if_neg (by rw [htarget]; simpa using hk)
        | _ => rfl
      rw [hpop]
      simp [pushTo, Cmd.onList, hk]
  | popVisit code now q cl ty r now' =>
    refine keeps_list hf ?_ ?_ t _ _ k
    · unfold popVisit
      split
      · simp
      · simp
    · unfold popVisit
      split
      · simp
      · simp
  | load ev evs hr _ hc =>
    exact keeps_list hf (by cases hc <;> simp) (by cases hc <;> simp) t _ _ k
  | _ => exact keeps_list hf (by intro k d h; cases h) (by intro k h; cases h) t _ _ k

/-! ## Every run -/

/-- What holds in every state, `st₀` being the store at the start. -/
structure Fifos (st₀ : Store) (w : World) : Prop where
  rets : ∀ t call x, Event.ret t (some call) x ∈ w.log → Returns call x
  lists : ∀ k, poppedFrom k w.log ++ w.redis.list k = st₀.list k ++ pushedTo k w.log

theorem pushTo_locked (k : Bytes) (t : Tid) (call : Option Call) (now : Nat) (s : Section)
    (r : s.Res) : pushTo k (.did t call (.locked now s r)) = none := by
  unfold pushTo
  split
  · rename_i heq
    cases heq
  · rfl

theorem popFrom_locked (k : Bytes) (t : Tid) (call : Option Call) (now : Nat) (s : Section)
    (r : s.Res) : popFrom k (.did t call (.locked now s r)) = none := by
  unfold popFrom
  split
  · rename_i heq
    cases heq
  · rfl

theorem filterMap_concat {α β : Type} (f : α → Option β) (l : List α) (x : α) :
    (l ++ [x]).filterMap f = l.filterMap f ++ (f x).toList := by
  rw [List.filterMap_append]
  cases hx : f x with
  | none => simp [hx]
  | some y => simp [hx]

theorem Fifos.step {G : Guard Act World Env Op} {st₀ : Store} {w w' : World} {t : Tid}
    (h : Fifos st₀ w) (hs : Step G w t w') : Fifos st₀ w' := by
  cases hs with
  | call op hcur hg => exact ⟨h.rets, h.lists⟩
  | quiet pipe clock => exact ⟨h.rets, h.lists⟩
  | redis call c e a pipe hcur hex hf hnext hg =>
    refine ⟨fun t' call' x hmem => h.rets t' call' x (by simpa [World.did] using hmem),
      fun k => ?_⟩
    have hone := list_of_command hex hf t k rfl
    simp only [World.did, poppedFrom, pushedTo, filterMap_concat, hcur]
    rw [List.append_assoc, hone, ← List.append_assoc, ← List.append_assoc]
    exact congrArg (· ++ _) (h.lists k)
  | locked call s e hcur hl hg hlock =>
    obtain ⟨-, m', hrun, rfl⟩ := World.lock_eq hlock
    refine ⟨fun t' call' x hmem => h.rets t' call' x (by simpa [World.did] using hmem),
      fun k => ?_⟩
    simp only [World.did, poppedFrom, pushedTo, filterMap_concat, pushTo_locked, popFrom_locked,
      Option.toList_none, List.append_nil]
    exact h.lists k
  | ret call x hcur hret =>
    refine ⟨fun t' call' y hmem => ?_, fun k => ?_⟩
    · rcases List.mem_append.mp hmem with hmem | hmem
      · exact h.rets t' call' y hmem
      · cases List.mem_singleton.mp hmem
        exact hret
    · have hpush : pushTo k (.ret t (some call) x) = none := rfl
      have hpop : popFrom k (.ret t (some call) x) = none := rfl
      simp only [poppedFrom, pushedTo, filterMap_concat, hpush, hpop, Option.toList_none,
        List.append_nil]
      exact h.lists k

theorem Fifos.boot {c₀ : Conf} (hb : Boot c₀) : Fifos c₀.shared.redis c₀.shared := by
  refine ⟨fun t call x hmem => ?_, fun k => ?_⟩
  · rw [hb.log] at hmem
    cases hmem
  · rw [hb.log]
    simp [poppedFrom, pushedTo]

/-- **Publish and subscribe, at the same time.** In every state of every run, reloads included, for
every client `cl` of every queue `q`: what was popped from its list, and then the list, is the list
at the start, and then what was pushed to it. A `PushMsg` that has returned success on a queue with
subscribers has pushed one copy to each client its locked section found, in their order, and
nothing else; and a `PopMsg` has returned the message its `LPOP` got from the list of its client. -/
theorem broadcast_fifo {G : Guard Act World Env Op} {c₀ c : Conf} (hb : Boot c₀)
    (hst : WellTyped c₀.shared.redis) (hc : (server .redis).Reach G c₀ c) (q cl : CStr)
    {k : Bytes} (hk : k = getQueueSubName q.bytes cl.bytes) {log : List Event}
    (hlog : log = c.shared.log) :
    poppedFrom k log ++ c.shared.redis.list k = c₀.shared.redis.list k ++ pushedTo k log ∧
    (∀ t code data now cl' buf evs x,
      .ret t (some ⟨.pushMsg code data, .locked now (.pushLock code) (.go q cl' SUB2PUB buf) ::
        evs⟩) x ∈ log → x.1 = SUCCESS →
      evs.filterMap Ev.rpush? = buf.map fun d => (getQueueSubName q.bytes d.bytes, data)) ∧
    ∀ t code now evs x,
      .ret t (some ⟨.popMsg code, .locked now (.popLock code) (.go q cl SUB2PUB) :: evs⟩) x ∈ log →
      ∃ r now' r', evs = [.redis (.lpop k) r, .redis (popVisit q cl SUB2PUB now') r'] ∧
        (r = .nil ∧ x = (NO_EXIST, none) ∨ ∃ d, r = .string d ∧ x = (SUCCESS, some d)) := by
  obtain ⟨h, -, -⟩ := reach_protocol hb hst (Fifos.boot hb) (fun w t w' hw _ hs => hw.step hs) hc
  subst hlog hk
  refine ⟨h.lists _, ?_, ?_⟩
  · intro t code data now cl' buf evs x hmem hx
    obtain ⟨now₁, q₁, c₁, ty₁, buf₁, now', evs₁, hevs, hcmds⟩ := (h.rets t _ x hmem).1 hx
    cases hevs
    rw [rpushes_of_cmds hcmds, rpushOf_pushCmds q cl']
    simp [QueueMgr.PushLock.targets]
  · intro t code now evs x hmem
    rcases h.rets t _ x hmem with
      ⟨-, -, now', ret, hevs⟩ | ⟨now₁, q₁, c₁, ty₁, r, now', r', hevs, hx⟩
    · cases hevs
    · cases hevs
      exact ⟨r, now', r', rfl, hx⟩

/-- A client subscribes; two threads publish at the same time, and the second is first; one message
is popped. -/
def twoPublish : List (Sys.Move Env Op) :=
  callSteps 0 (.openQueue (openSub .publisher)) 8 (openEnv 0) ++
    callSteps 0 (.openQueue (openSub .subscriber)) 10 (openEnv 1) ++
    callSteps 0 (.pushMsg (hexText (List.replicate 16 0)) (ascii "a")) 4 (openEnv 2) ++
    callSteps 1 (.pushMsg (hexText (List.replicate 16 0)) (ascii "b")) 7 (openEnv 2) ++
    steps 0 3 (openEnv 2) ++
    callSteps 1 (.popMsg (hexText (List.replicate 16 1))) 7 (openEnv 2)

theorem broadcast_fifo_two : ∃ c k,
    (server .redis).Reach noReload (boot (QueueMgr.init 1000) fun _ => none) c ∧
      k = getQueueSubName (ascii "q") (ascii "c") ∧
      poppedFrom k c.shared.log = [ascii "b"] ∧ c.shared.redis.list k = [ascii "a"] ∧
      poppedFrom k c.shared.log ++ c.shared.redis.list k = pushedTo k c.shared.log := by
  have hreach := Sys.reach_get allows_noReload (server .redis)
    (boot (QueueMgr.init 1000) fun _ => none) twoPublish rfl
  have hfifo := broadcast_fifo (boot_boot _ _) wellTyped_empty hreach ⟨ascii "q", by decide⟩
    ⟨ascii "c", by decide⟩ rfl rfl
  exact ⟨_, _, hreach, rfl, rfl, rfl, hfifo.1⟩

end Domq.Mq

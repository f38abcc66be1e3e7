import Domq.Lib.Handover
import Domq.Lib.Machine
import Mathlib.Logic.Function.Basic

/-!
# `SyncObjectQueue` and `SyncObjectStack`

The hand-over queues of `base/util/objectqueue.h`, used by any number of threads.

* `SyncObjectStack` overrides `PutImplement`; it inherits `GetImplement` and with it the loop around
  `pthread_cond_timedwait`. `getPass` is one pass of the loop up to the wait. A section between
  locking the mutex and giving it up (by unlocking or by waiting) is one step.
* A waiting thread may wake at any time: signalled, spuriously, or timed out. Which of these it was
  matters only where the wait reports `ETIMEDOUT`, so `pthread_cond_signal` needs no model.
* `SetLimit` takes no lock and may come at any time. Sizes are natural numbers: a list of `2^64`
  nodes does not fit into memory. The callbacks run outside the mutex; what they do to the queue are
  calls like any others.
* The code copies values and never looks at them. `Ticket` numbers the calls of `Put`, so that equal
  values can be told apart; `log` is the history of the sections.

Result: `handOver_of_reach`. What a queue hands over, in which order, and which `Put`s succeed.
-/

namespace Domq.Base

open Domq.Lib Machine Handover

/-- `SyncObjectQueue<T>`: `_data`, `_max` and `_count`. -/
structure SyncObjectQueue (T : Type) where
  data : List T
  max : Nat
  count : Nat

variable {T : Type}

/-- `PutImplement`, `push` being the insertion. -/
def SyncObjectQueue.putBy (push : T → List T → List T) (value : T) (limit : Bool)
    (q : SyncObjectQueue T) : Int × SyncObjectQueue T :=
  if limit ∧ q.max ≤ q.count then (-1, q)
  else (0, { q with data := push value q.data, count := q.count + 1 })

/-- `SyncObjectQueue::PutImplement`: `push_back`. -/
def SyncObjectQueue.putImplement (value : T) (limit : Bool) (q : SyncObjectQueue T) :
    Int × SyncObjectQueue T := q.putBy (fun x l => l ++ [x]) value limit

/-- `SyncObjectStack::PutImplement`: `push_front`. -/
def SyncObjectStack.putImplement (value : T) (limit : Bool) (q : SyncObjectQueue T) :
    Int × SyncObjectQueue T := q.putBy (fun x l => x :: l) value limit

/-- How a pass of the loop in `GetImplement` ends. -/
inductive Pass (T : Type)
  | got (value : T)
  | failed
  | waits

/-- One pass of the loop, up to the wait. -/
def SyncObjectQueue.getPass (usBlockTime : Int) (q : SyncObjectQueue T) :
    Pass T × SyncObjectQueue T :=
  match q.data with
  | value :: rest => (.got value, { q with data := rest, count := q.count - 1 })
  | [] => (if usBlockTime = 0 then .failed else .waits, q)

/-- `SetLimit`. -/
def SyncObjectQueue.setLimit (limit : Nat) (q : SyncObjectQueue T) : SyncObjectQueue T :=
  { q with max := limit }

/-- The constructor. -/
def SyncObjectQueue.new (limit : Nat) : SyncObjectQueue T := ⟨[], limit, 0⟩

/-- The two classes. -/
inductive QueueClass
  | queue
  | stack

def QueueClass.putImplement : QueueClass → T → Bool → SyncObjectQueue T → Int × SyncObjectQueue T
  | queue => SyncObjectQueue.putImplement
  | stack => SyncObjectStack.putImplement

/-! ## The threads -/

/-- A value, and the number of the `Put` that was called with it. -/
structure Ticket (T : Type) where
  number : Nat
  value : T

/-- What a section did. -/
inductive Section (T : Type)
  | put (x : Ticket T) (limit : Bool) (ret : Int)
  | got (x : Ticket T)
  | gaveUp
  | limitSet (limit : Nat)

structure QueueState (T : Type) where
  queue : SyncObjectQueue (Ticket T)
  /-- the threads in `pthread_cond_timedwait`, with their `usBlockTime` -/
  waiting : Nat → Option Int
  /-- how many `Put`s there were -/
  puts : Nat
  log : List (Section T)

inductive QueueEvent (T : Type)
  | put (thread : Nat) (value : T) (limit : Bool)
  | get (thread : Nat) (usBlockTime : Int)
  /-- `pthread_cond_timedwait` returns -/
  | wake (thread : Nat) (timedOut : Bool)
  | setLimit (limit : Nat)

namespace QueueState

def start (limit : Nat) : QueueState T := ⟨.new limit, fun _ => none, 0, []⟩

/-- A pass of `GetImplement`'s loop, by a thread that holds the mutex. -/
def pass (thread : Nat) (usBlockTime : Int) (s : QueueState T) : QueueState T :=
  match s.queue.getPass usBlockTime with
  | (.got x, q) =>
    { s with queue := q, waiting := Function.update s.waiting thread none,
             log := s.log ++ [.got x] }
  | (.failed, q) =>
    { s with queue := q, waiting := Function.update s.waiting thread none,
             log := s.log ++ [.gaveUp] }
  | (.waits, q) =>
    { s with queue := q, waiting := Function.update s.waiting thread (some usBlockTime) }

/-- One section of a thread; a thread that waits does nothing but wake. -/
def step (c : QueueClass) (s : QueueState T) : QueueEvent T → Option (QueueState T)
  | .put thread value limit =>
    match s.waiting thread with
    | some _ => none
    | none =>
      let x : Ticket T := ⟨s.puts, value⟩
      let r := c.putImplement x limit s.queue
      some { s with queue := r.2, puts := s.puts + 1, log := s.log ++ [.put x limit r.1] }
  | .get thread usBlockTime =>
    match s.waiting thread with
    | some _ => none
    | none => some (s.pass thread usBlockTime)
  | .wake thread timedOut =>
    match s.waiting thread with
    | none => none
    | some usBlockTime =>
      if timedOut ∧ 0 ≤ usBlockTime then
        some { s with waiting := Function.update s.waiting thread none, log := s.log ++ [.gaveUp] }
      else some (s.pass thread usBlockTime)
  | .setLimit limit =>
    some { s with queue := s.queue.setLimit limit, log := s.log ++ [.limitSet limit] }

end QueueState

/-! ## What a hand-over queue is for -/

/-- What a section put or took. -/
def Section.entry : Section T → Option (Entry (Ticket T))
  | .put x _ ret => if ret = 0 then some (.put x) else none
  | .got x => some (.take x)
  | _ => none

def entries (log : List (Section T)) : List (Entry (Ticket T)) := log.filterMap Section.entry

/-- The limit in force after a history. -/
def limitAfter (limit : Nat) : List (Section T) → Nat
  | [] => limit
  | .limitSet n :: log => limitAfter n log
  | _ :: log => limitAfter limit log

/-- First in first out, or last in first out. -/
def QueueClass.order : QueueClass → Order
  | queue => .fifo
  | stack => .lifo

/-- A `Put` succeeds when fewer items are stored than the limit in force allows, or when it was
called without a limit. -/
def PutRight (limit₀ : Nat) (log : List (Section T)) (e : Section T) : Prop :=
  ∀ x limit ret, e = .put x limit ret →
    (ret = 0 ↔ (limit = true → (outstanding (entries log)).length < limitAfter limit₀ log))

structure HandOver (c : QueueClass) (limit₀ : Nat) (s : QueueState T) : Prop where
  /-- `_count` is the number of stored items -/
  count : s.queue.count = s.queue.data.length
  /-- `_max` is the limit set last -/
  max : s.queue.max = limitAfter limit₀ s.log
  limits : Every (PutRight limit₀) s.log
  distinct : (puts (entries s.log)).Nodup
  /-- no item is returned twice -/
  once : (takes (entries s.log)).Nodup
  /-- what is stored is what was put and not returned -/
  stays : ∀ x, x ∈ s.queue.data ↔ x ∈ puts (entries s.log) ∧ x ∉ takes (entries s.log)
  /-- what is returned was put -/
  returned : ∀ x ∈ takes (entries s.log), x ∈ puts (entries s.log)
  order : Ordered c.order (entries s.log)

/-! ## One section -/

variable {c : QueueClass} {limit₀ : Nat} {s s' : QueueState T} {e : QueueEvent T}

/-- What a section can do to the queue, the number of `Put`s and the history. -/
inductive Change (c : QueueClass) (s : QueueState T) :
    SyncObjectQueue (Ticket T) → Nat → List (Section T) → Prop
  | refused {x : Ticket T} {limit : Bool} (hx : x.number = s.puts) (hlimit : limit = true)
      (hfull : s.queue.max ≤ s.queue.count) :
      Change c s s.queue (s.puts + 1) (s.log ++ [.put x limit (-1)])
  | stored {x : Ticket T} {limit : Bool} (hx : x.number = s.puts)
      (hroom : limit = true → s.queue.count < s.queue.max) :
      Change c s ⟨c.order.insert x s.queue.data, s.queue.max, s.queue.count + 1⟩ (s.puts + 1)
        (s.log ++ [.put x limit 0])
  | got {x : Ticket T} {rest : List (Ticket T)} (hdata : s.queue.data = x :: rest) :
      Change c s ⟨rest, s.queue.max, s.queue.count - 1⟩ s.puts (s.log ++ [.got x])
  | gaveUp : Change c s s.queue s.puts (s.log ++ [.gaveUp])
  | waits : Change c s s.queue s.puts s.log
  | limitSet (n : Nat) : Change c s (s.queue.setLimit n) s.puts (s.log ++ [.limitSet n])

/-- Both classes insert where their order has it. -/
theorem QueueClass.putImplement_eq (c : QueueClass) (x : T) (limit : Bool)
    (q : SyncObjectQueue T) : c.putImplement x limit q = q.putBy c.order.insert x limit := by
  cases c <;> rfl

theorem change_pass (c : QueueClass) (thread : Nat) (usBlockTime : Int) (s : QueueState T) :
    Change c s (s.pass thread usBlockTime).queue (s.pass thread usBlockTime).puts
      (s.pass thread usBlockTime).log := by
  unfold QueueState.pass SyncObjectQueue.getPass
  rcases hdata : s.queue.data with - | ⟨x, rest⟩
  · by_cases hzero : usBlockTime = 0
    · simp only [if_pos hzero]
      exact .gaveUp
    · simp only [if_neg hzero]
      exact .waits
  · exact .got hdata

theorem step_change (h : s.step c e = some s') : Change c s s'.queue s'.puts s'.log := by
  cases e with
  | put thread value limit =>
    simp only [QueueState.step] at h
    split at h
    · cases h
    · cases h
      rw [c.putImplement_eq]
      unfold SyncObjectQueue.putBy
      split
      · rename_i hfull
        exact .refused rfl hfull.1 hfull.2
      · rename_i hroom
        exact .stored rfl fun hlimit => Nat.lt_of_not_le fun hle => hroom ⟨hlimit, hle⟩
  | get thread usBlockTime =>
    simp only [QueueState.step] at h
    split at h
    · cases h
    · cases h
      exact change_pass c thread usBlockTime s
  | wake thread timedOut =>
    simp only [QueueState.step] at h
    split at h
    · cases h
    · split at h
      · cases h
        exact .gaveUp
      · cases h
        exact change_pass c thread _ s
  | setLimit limit =>
    cases h
    exact .limitSet limit

/-! ## Every run -/

theorem entries_snoc (log : List (Section T)) (e : Section T) :
    entries (log ++ [e]) = entries log ++ e.entry.toList := by
  rw [entries, List.filterMap_append]
  congr 1

theorem limitAfter_snoc (limit : Nat) (log : List (Section T)) (e : Section T) :
    limitAfter limit (log ++ [e]) = limitAfter (limitAfter limit log) [e] := by
  induction log generalizing limit with
  | nil => rfl
  | cons d log ih => cases d <;> exact ih _

structure QueueInv (c : QueueClass) (limit₀ : Nat) (q : SyncObjectQueue (Ticket T)) (n : Nat)
    (log : List (Section T)) : Prop where
  count : q.count = q.data.length
  max : q.max = limitAfter limit₀ log
  fresh : ∀ x ∈ puts (entries log), x.number < n
  stores : Stores c.order (entries log) q.data
  limits : Every (PutRight limit₀) log

/-- A section that moves no item. -/
theorem QueueInv.other {q q' : SyncObjectQueue (Ticket T)} {n n' : Nat} {log : List (Section T)}
    (h : QueueInv c limit₀ q n log) {d : Section T} (hd : d.entry = none) (hn : n ≤ n')
    (hput : PutRight limit₀ log d) (hdata : q'.data = q.data) (hcount : q'.count = q.count)
    (hmax : q'.max = limitAfter q.max [d]) : QueueInv c limit₀ q' n' (log ++ [d]) := by
  have hentries : entries (log ++ [d]) = entries log := by
    rw [entries_snoc, hd]
    exact List.append_nil _
  refine ⟨by rw [hcount, hdata]; exact h.count, by rw [hmax, limitAfter_snoc, h.max], ?_,
    by rw [hentries, hdata]; exact h.stores, h.limits.snoc hput⟩
  rw [hentries]
  exact fun x hx => Nat.lt_of_lt_of_le (h.fresh x hx) hn

/-- **One section** keeps the invariant. -/
theorem QueueInv.change {q : SyncObjectQueue (Ticket T)} {n : Nat} {log : List (Section T)}
    (h : QueueInv c limit₀ s.queue s.puts s.log) (hc : Change c s q n log) :
    QueueInv c limit₀ q n log := by
  have hcount : s.queue.count = (outstanding (entries s.log)).length :=
    h.count.trans h.stores.length
  cases hc with
  | refused hx hlimit hfull =>
    refine h.other rfl (Nat.le_succ _) ?_ rfl rfl rfl
    intro y l r heq
    cases heq
    refine ⟨fun hr => absurd hr (by decide), fun hroom => ?_⟩
    have hlt := hroom hlimit
    rw [← hcount, ← h.max] at hlt
    omega
  | stored hx hroom =>
    rename_i x limit
    have hentries : entries (s.log ++ [.put x limit 0]) = entries s.log ++ [.put x] :=
      entries_snoc _ _
    have hnew : x ∉ puts (entries s.log) := fun hmem => by
      have hlt := h.fresh x hmem
      omega
    refine ⟨?_, by rw [limitAfter_snoc]; exact h.max, ?_, by rw [hentries]; exact h.stores.put hnew,
      h.limits.snoc ?_⟩
    · show s.queue.count + 1 = (c.order.insert x s.queue.data).length
      rw [h.count, Order.length_insert]
    · rw [hentries, puts_snoc_put]
      intro y hy
      rcases List.mem_append.mp hy with hy | hy
      · exact Nat.lt_succ_of_lt (h.fresh y hy)
      · rw [List.mem_singleton.mp hy, hx]
        exact Nat.lt_succ_self _
    · intro y l r heq
      cases heq
      rw [← hcount, ← h.max]
      exact ⟨fun _ => hroom, fun _ => rfl⟩
  | got hdata =>
    rename_i x rest
    have hentries : entries (s.log ++ [.got x]) = entries s.log ++ [.take x] := entries_snoc _ _
    have hstores := h.stores
    rw [hdata] at hstores
    refine ⟨?_, by rw [limitAfter_snoc]; exact h.max, ?_, by rw [hentries]; exact hstores.take,
      h.limits.snoc fun y l r heq => nomatch heq⟩
    · show s.queue.count - 1 = rest.length
      rw [h.count, hdata]
      rfl
    · rw [hentries, puts_snoc_take]
      exact h.fresh
  | gaveUp => exact h.other rfl (Nat.le_refl _) (fun _ _ _ => nofun) rfl rfl rfl
  | waits => exact h
  | limitSet n => exact h.other rfl (Nat.le_refl _) (fun _ _ _ => nofun) rfl rfl rfl

theorem queueInv_start (c : QueueClass) (limit₀ : Nat) :
    QueueInv c limit₀ (QueueState.start (T := T) limit₀).queue 0 [] :=
  ⟨rfl, rfl, fun _ hx => absurd hx List.not_mem_nil, stores_nil _, every_nil _⟩

/-- **Handing over.** In every state that any interleaving of `Put`, `Get` and `SetLimit` reaches,
the counter is right, every `Put` so far succeeded exactly when there was room, nothing was lost or
returned twice, and what was returned came in the order of the class. -/
theorem handOver_of_reach (h : Reach (QueueState.step c) free (.start limit₀) s) :
    HandOver c limit₀ s := by
  have hinv : QueueInv c limit₀ s.queue s.puts s.log :=
    h.inv (I := fun s => QueueInv c limit₀ s.queue s.puts s.log) (queueInv_start c limit₀)
      fun hinv _ hs => hinv.change (step_change hs)
  exact ⟨hinv.count, hinv.max, hinv.limits, hinv.stores.distinct, hinv.stores.once,
    fun _ => hinv.stores.mem_iff, hinv.stores.taken, hinv.stores.ordered⟩

/-- A stack for one value: a second one is refused, a `Get` that came first wakes up and takes the
value. -/
theorem handOver_of_reach_stack : ∃ s : QueueState Nat,
    Reach (QueueState.step .stack) free (.start 1) s ∧ s.log.length = 3 ∧ HandOver .stack 1 s := by
  obtain ⟨s, hrun, hlog⟩ : ∃ s, run (QueueState.step .stack) (fun _ _ => true)
      [.get 7 (-1), .put 0 5 true, .put 1 6 true, .wake 7 false] (QueueState.start (T := Nat) 1) =
        some s ∧ s.log.length = 3 := ⟨_, rfl, rfl⟩
  have hreach := reach_of_run _ hrun
  exact ⟨s, hreach, hlog, handOver_of_reach hreach⟩

end Domq.Base

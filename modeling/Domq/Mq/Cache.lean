import Domq.Mq.State

/-!
# The cache of queues

`_name2Queue` as the operations use it: for each cached queue its options and the names of its
subscribers (`QueueMgr.cache`). `Section.onCache` is what a locked section does to it, and
`cache_run` connects the two: lookups, `CloseQueue` and expiry leave it alone, `OpenQueue` inserts a
queue that is missing, `CreateSubscriber` appends a subscriber, `LoadQueues` replaces it.
-/

namespace Domq.Mq

open Domq.Lib

/-- A cached queue: its options and its subscribers. -/
abbrev Cached := QueueOption × List CStr

def Queue.cached (queue : Queue) : Cached := (queue.option, queue.clients.map SubQueue.client)

namespace QueueMgr

/-- The cached queues. -/
def cache (m : QueueMgr) (q : CStr) : Option Cached := (m.name2Queue q).map Queue.cached

theorem cache_eq_none {m : QueueMgr} {q : CStr} : m.cache q = none ↔ m.name2Queue q = none := by
  simp [cache]

theorem cache_of_name2Queue {m : QueueMgr} {q : CStr} {queue : Queue}
    (h : m.name2Queue q = some queue) : m.cache q = some queue.cached := by
  simp [cache, h]

end QueueMgr

/-- The cached subscribers of a queue. -/
def clientsOf (m : QueueMgr) (q : CStr) : List CStr := ((m.cache q).map Prod.snd).getD []

/-- What a section does to the cache. -/
def Section.onCache (cache : CStr → Option Cached) : Section → CStr → Option Cached
  | .openLock a =>
    Function.update cache a.msgQueueName (some ((cache a.msgQueueName).getD (a.option, [])))
  | .addClient q c =>
    let queue := (cache q).getD Queue.empty.cached
    Function.update cache q (some (queue.1, queue.2 ++ [c]))
  | .swapQueues n => fun q => (n q).map Queue.cached
  | _ => cache

namespace QueueMgr

theorem cache_touch (now : Nat) (code : Bytes) {item : CodeItem} {queue : Queue} {m : QueueMgr}
    (hq : m.name2Queue item.queueName = some queue) :
    (m.touch now code item queue).cache = m.cache := by
  funext q
  unfold cache
  rw [touch_name2Queue]
  by_cases hc : q = item.queueName
  · subst hc
    rw [Function.update_self, hq]
    rfl
  · rw [Function.update_of_ne hc]

theorem cache_removeExpireLoop (e : Int) (l : List SeqItem) (i : Int) (m : QueueMgr) {n : Nat}
    {m' : QueueMgr} (h : removeExpireLoop e l i m = some (n, m')) :
    m'.name2Queue = m.name2Queue := by
  induction l generalizing i m n with
  | nil =>
    cases h
    rfl
  | cons it rest ih =>
    unfold removeExpireLoop at h
    split at h
    · split at h
      · cases h
        rfl
      · split at h
        · cases h
        · obtain ⟨⟨n', m₁⟩, hloop, heq⟩ := Option.map_eq_some_iff.mp h
          cases heq
          exact (ih _ _ hloop).trans rfl
    · cases h
      rfl

/-- **The cache after a section.** -/
theorem cache_run {s : Section} {now : Nat} {u : Uuid} {m m' : QueueMgr} {r : s.Res}
    (h : s.run now u m = some (r, m')) : m'.cache = s.onCache m.cache := by
  cases s with
  | pushLock code =>
    obtain rfl : (m.pushLock now code).2 = m' := congrArg Prod.snd (Option.some.inj h)
    exact pushLock_keeps now code m (I := fun m' => m'.cache = m.cache) rfl
      fun _ _ _ hq => cache_touch now code hq
  | popLock code =>
    obtain rfl : (m.popLock now code).2 = m' := congrArg Prod.snd (Option.some.inj h)
    exact popLock_keeps now code m (I := fun m' => m'.cache = m.cache) rfl
      fun _ _ _ hq => cache_touch now code hq
  | addClient q c =>
    cases h
    funext q'
    simp only [cache, addClient, Section.onCache]
    by_cases hc : q' = q
    · subst hc
      simp only [Function.update_self, Option.map_some]
      cases m.name2Queue q' with
      | none => rfl
      | some queue => simp [Queue.cached]
    · simp only [Function.update_of_ne hc]
      rfl
  | openLock a =>
    cases h
    funext q'
    simp only [cache, Section.onCache]
    by_cases hc : q' = a.msgQueueName
    · subst hc
      simp only [Function.update_self, Option.map_some]
      cases m.name2Queue a.msgQueueName with
      | none => rfl
      | some queue => rfl
    · simp only [Function.update_of_ne hc]
      rfl
  | closeQueue code =>
    simp only [Section.run, Option.some.injEq, closeQueue] at h
    split at h
    · cases h
      rfl
    · cases h
      rfl
  | swapQueues n =>
    cases h
    rfl
  | removeExpireMsgQueueCode e =>
    obtain ⟨m₁, he, heq⟩ := Option.map_eq_some_iff.mp h
    cases heq
    obtain ⟨⟨n, m₂⟩, hloop, heq⟩ := Option.map_eq_some_iff.mp he
    cases heq
    funext q
    show (m₂.name2Queue q).map Queue.cached = _
    rw [cache_removeExpireLoop _ _ _ _ hloop]
    rfl

end QueueMgr

end Domq.Mq

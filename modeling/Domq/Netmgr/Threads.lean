import Domq.Base.ObjectQueue
import Domq.Lib.Machine
import Domq.Lib.Interleave
import Mathlib.Data.List.Perm.Basic

/-!
# The queues between the threads

A request goes from the I/O thread through `ConnectionMgr::_requestQueue` to the dispatcher
(`QueueProcessor::Run`), through `QueueProcessor::_requestQueue` to a worker (`RunOnce`), and its
result through `ConnectionMgr::_resultQueue` back to the I/O thread, which a byte on a socket pair
wakes (`objectqueue.h`, `connectionmgr.h`, `msgcallback.cpp`, `pipeeventhandler.cpp`,
`queueprocessor.cpp`). A `LineMessage` the dispatcher answers itself.

* `Put` and `Get` lock a mutex, so each is one step; the callback that sends the byte is another.
  Both queues of `ConnectionMgr` are `SyncObjectStack`s. Nothing calls `SetLimit`, so the limit of
  all three is `DEFAULT_LIMIT`. Results of `Put` that a caller ignores are ignored here.
* The I/O thread is in its event loop, in `ICoder::Extract` with messages still to be passed to the
  callback, or in the loop of `PushMsgCallBack::Call`. `recv` on the pair reads up to 64 bytes; a
  `send` fails only when unread bytes fill the pair.
* The messages are any types; `kind` says which of the macros of `Run` and `RunOnce` is for one.
  What decides whether `Encode` fails is left open.
* A line for which `ProcessMsg` returns `-1` is destroyed, and the loop that took it ends; a message
  that no macro is for is destroyed by the worker.
* `called`, `processed`, `handed` and `taken` are history.

Results: `requests_conserved`: no message is lost in a run whose `Put`s find room and whose threads
take no message that they do not answer; `results_wake`: no wake-up is lost in a run in which no
failed `Encode` leaves results behind.
-/

namespace Domq.Netmgr

open Domq.Lib

/-! ## `ObjectQueue` -/

/-- `DEFAULT_LIMIT`. -/
def DEFAULT_LIMIT : Nat := 1000

/-- `SyncObjectQueue::PutImplement`; `none` when it returns `-1`. -/
def queuePut {α : Type} (x : α) (data : List α) : Option (List α) :=
  if DEFAULT_LIMIT ≤ data.length then none else some (data ++ [x])

/-- `SyncObjectStack::PutImplement`. -/
def stackPut {α : Type} (x : α) (data : List α) : Option (List α) :=
  if DEFAULT_LIMIT ≤ data.length then none else some (x :: data)

section

variable {α : Type} {x : α} {q q' : Base.SyncObjectQueue α} {ret : Int}
variable (hmax : q.max = DEFAULT_LIMIT) (hcount : q.count = q.data.length)
include hmax hcount

/-- `Put` with the default limit, its counter being right. -/
theorem putBy_data (push : α → List α → List α) (h : q.putBy push x true = (ret, q')) :
    (if DEFAULT_LIMIT ≤ q.data.length then none else some (push x q.data)) =
      if ret = 0 then some q'.data else none := by
  unfold Base.SyncObjectQueue.putBy at h
  rw [hmax, hcount] at h
  split at h
  · rename_i hfull
    cases h
    rw [if_pos hfull.2]
    rfl
  · rename_i hroom
    cases h
    rw [if_neg fun hfull => hroom ⟨rfl, hfull⟩]
    rfl

theorem queuePut_eq (h : Base.SyncObjectQueue.putImplement x true q = (ret, q')) :
    queuePut x q.data = if ret = 0 then some q'.data else none :=
  putBy_data hmax hcount (fun x l => l ++ [x]) h

theorem stackPut_eq (h : Base.SyncObjectStack.putImplement x true q = (ret, q')) :
    stackPut x q.data = if ret = 0 then some q'.data else none :=
  putBy_data hmax hcount (fun x l => x :: l) h

end

/-! ## The threads -/

/-- Where the I/O thread is. -/
inductive Io (Req : Type)
  | loop
  /-- in `Extract`, with the messages it will pass to `ExtractMsgCallBack::Call` -/
  | extracting (rest : List Req)
  /-- in `PushMsgCallBack::Call` -/
  | pushing

/-- The messages still to be passed to `ExtractMsgCallBack::Call`. -/
def Io.rest {Req : Type} : Io Req → List Req
  | .extracting rest => rest
  | _ => []

/-- What `QueueProcessor` does with a message. -/
inductive MsgKind
  | request
  /-- a `LineMessage`, and whether `ProcessMsg` returns `-1` for it -/
  | line (exits : Bool)
  /-- no `_PROCESS_MSG` is for it -/
  | unknown
  deriving DecidableEq

/-- A message that is answered. -/
def MsgKind.Answered (k : MsgKind) : Prop := k = .request ∨ k = .line false

instance (k : MsgKind) : Decidable k.Answered := inferInstanceAs (Decidable (_ ∨ _))

/-- Where the dispatcher is. -/
inductive Dispatcher (Req : Type)
  | waiting
  | took (r : Req)
  /-- the result of a line is in the queue, the byte is next -/
  | notifying
  /-- `Run` has returned -/
  | ended

/-- The message the dispatcher has. -/
def Dispatcher.holds {Req : Type} : Dispatcher Req → Option Req
  | .took r => some r
  | _ => none

/-- Where a worker is. -/
inductive Worker (Req : Type)
  | waiting
  | processing (r : Req)
  /-- `ProcessMsg` has returned, `PushMsg` is next -/
  | answering (r : Req)
  /-- the result is in the queue, the byte is next -/
  | notifying
  /-- `RunOnce` has returned -/
  | ended

/-- The request a worker has. -/
def Worker.holds {Req : Type} : Worker Req → Option Req
  | .processing r => some r
  | .answering r => some r
  | _ => none

/-- The request whose `ProcessMsg` a worker is in. -/
def Worker.busy {Req : Type} : Worker Req → Option Req
  | .processing r => some r
  | _ => none

structure Threads (Req Res : Type) where
  io : Io Req
  /-- `ConnectionMgr::_requestQueue`, front first -/
  requestQueue : List Req
  /-- `QueueProcessor::Run` -/
  dispatcher : Dispatcher Req
  /-- `QueueProcessor::_requestQueue` -/
  pendingQueue : List Req
  workers : List (Worker Req)
  /-- `ConnectionMgr::_resultQueue` -/
  resultQueue : List Res
  /-- unread bytes on the socket pair -/
  unread : Nat
  /-- requests passed to `ExtractMsgCallBack::Call` -/
  called : List Req
  /-- requests for which `ProcessMsg` has returned in a worker -/
  processed : List Req
  /-- results handed to `ConnectionMgr::PushMsg`, with their requests -/
  handed : List (Req × Res)
  /-- results taken out by `PushMsgCallBack::Call` -/
  taken : List Res

/-- What the threads do. -/
inductive Move (Req Res : Type)
  /-- `HandleInput` has received bytes in which these messages are complete -/
  | receive (rs : List Req)
  /-- `ExtractMsgCallBack::Call` -/
  | call
  /-- `Extract` returns -/
  | extracted
  /-- `ConnectionMgr::PopMsg` of the dispatcher -/
  | take
  /-- `_requestQueue.Put` of the dispatcher -/
  | dispatch
  /-- `ProcessMsg` of a line in the dispatcher, and `ConnectionMgr::PushMsg` -/
  | answerLine (res : Res)
  /-- `QueuePushMsgCallBack::Call` of the dispatcher -/
  | notifyLine (sent : Bool)
  /-- `ProcessMsg` returns `-1` to the dispatcher -/
  | leave
  /-- the dispatcher reads `stop` from its control socket -/
  | stop
  /-- `_requestQueue.Get` of a worker -/
  | get (t : Tid)
  /-- the macros of a worker, up to the return of `ProcessMsg` -/
  | process (t : Tid)
  /-- `ConnectionMgr::PushMsg` of a worker -/
  | answer (t : Tid) (res : Res)
  /-- `QueuePushMsgCallBack::Call`, with what becomes of the byte -/
  | notify (t : Tid) (sent : Bool)
  /-- `PipeEventHandler::HandleInput` reads `n` bytes -/
  | wake (n : Nat)
  /-- a turn of the loop of `PushMsgCallBack::Call`, and whether it can go on -/
  | push (encoded : Bool)
  /-- the loop finds the queue empty -/
  | pushed

namespace Threads

variable {Req Res : Type}

/-- The start. -/
def start (n : Nat) : Threads Req Res :=
  ⟨.loop, [], .waiting, [], List.replicate n .waiting, [], 0, [], [], [], []⟩

/-- Worker `t` goes on. -/
def goes (s : Threads Req Res) (t : Tid) (w : Worker Req) : Threads Req Res :=
  { s with workers := s.workers.set t w }

def step (kind : Req → MsgKind) (s : Threads Req Res) : Move Req Res → Option (Threads Req Res)
  | .receive rs =>
    match s.io with
    | .loop => some { s with io := .extracting rs }
    | _ => none
  | .call =>
    match s.io with
    | .extracting (r :: rest) =>
      some { s with
        io := .extracting rest
        requestQueue := (stackPut r s.requestQueue).getD s.requestQueue
        called := s.called ++ [r] }
    | _ => none
  | .extracted =>
    match s.io with
    | .extracting [] => some { s with io := .loop }
    | _ => none
  | .take =>
    match s.dispatcher, s.requestQueue with
    | .waiting, r :: rest => some { s with dispatcher := .took r, requestQueue := rest }
    | _, _ => none
  | .dispatch =>
    match s.dispatcher with
    | .took r =>
      match kind r with
      | .line _ => none
      | _ =>
        some { s with
          dispatcher := .waiting
          pendingQueue := (queuePut r s.pendingQueue).getD s.pendingQueue }
    | _ => none
  | .answerLine res =>
    match s.dispatcher with
    | .took r =>
      if kind r = .line false then
        match stackPut res s.resultQueue with
        | some resultQueue =>
          some { s with
            dispatcher := .notifying
            resultQueue := resultQueue, handed := s.handed ++ [(r, res)] }
        | none => some { s with dispatcher := .waiting, handed := s.handed ++ [(r, res)] }
      else none
    | _ => none
  | .notifyLine sent =>
    match s.dispatcher with
    | .notifying =>
      if sent then some { s with dispatcher := .waiting, unread := s.unread + 1 }
      else if s.unread = 0 then none
      else some { s with dispatcher := .waiting }
    | _ => none
  | .leave =>
    match s.dispatcher with
    | .took r => if kind r = .line true then some { s with dispatcher := .ended } else none
    | _ => none
  | .stop =>
    match s.dispatcher with
    | .waiting => some { s with dispatcher := .ended }
    | _ => none
  | .get t =>
    match s.workers[t]?, s.pendingQueue with
    | some .waiting, r :: rest => some { s.goes t (.processing r) with pendingQueue := rest }
    | _, _ => none
  | .process t =>
    match s.workers[t]? with
    | some (.processing r) =>
      match kind r with
      | .request | .line false =>
        some { s.goes t (.answering r) with processed := s.processed ++ [r] }
      | .line true => some (s.goes t .ended)
      | .unknown => some (s.goes t .waiting)
    | _ => none
  | .answer t res =>
    match s.workers[t]? with
    | some (.answering r) =>
      match stackPut res s.resultQueue with
      | some resultQueue =>
        some { s.goes t .notifying with
          resultQueue := resultQueue, handed := s.handed ++ [(r, res)] }
      | none => some { s.goes t .waiting with handed := s.handed ++ [(r, res)] }
    | _ => none
  | .notify t sent =>
    match s.workers[t]? with
    | some .notifying =>
      if sent then some { s.goes t .waiting with unread := s.unread + 1 }
      else if s.unread = 0 then none
      else some (s.goes t .waiting)
    | _ => none
  | .wake n =>
    match s.io with
    | .loop =>
      if 0 < n ∧ n ≤ 64 ∧ n ≤ s.unread then some { s with io := .pushing, unread := s.unread - n }
      else none
    | _ => none
  | .push encoded =>
    match s.io, s.resultQueue with
    | .pushing, res :: rest =>
      some { s with
        io := if encoded then .pushing else .loop
        resultQueue := rest
        taken := s.taken ++ [res] }
    | _, _ => none
  | .pushed =>
    match s.io, s.resultQueue with
    | .pushing, [] => some { s with io := .loop }
    | _, _ => none

/-! ## What a step does -/

/-- The steps, one constructor for each way a move can go. -/
inductive Steps (kind : Req → MsgKind) (s : Threads Req Res) :
    Move Req Res → Threads Req Res → Prop
  | receive (hio : s.io = .loop) (rs : List Req) :
      Steps kind s (.receive rs) { s with io := .extracting rs }
  | callPut {r : Req} {rest : List Req} (hio : s.io = .extracting (r :: rest))
      (hroom : s.requestQueue.length < DEFAULT_LIMIT) :
      Steps kind s .call { s with
        io := .extracting rest, requestQueue := r :: s.requestQueue, called := s.called ++ [r] }
  | callFull {r : Req} {rest : List Req} (hio : s.io = .extracting (r :: rest))
      (hfull : DEFAULT_LIMIT ≤ s.requestQueue.length) :
      Steps kind s .call { s with io := .extracting rest, called := s.called ++ [r] }
  | extracted (hio : s.io = .extracting []) : Steps kind s .extracted { s with io := .loop }
  | take {r : Req} {rest : List Req} (hd : s.dispatcher = .waiting)
      (hq : s.requestQueue = r :: rest) :
      Steps kind s .take { s with dispatcher := .took r, requestQueue := rest }
  | dispatchPut {r : Req} (hd : s.dispatcher = .took r) (hk : ∀ exits, kind r ≠ .line exits)
      (hroom : s.pendingQueue.length < DEFAULT_LIMIT) :
      Steps kind s .dispatch { s with
        dispatcher := .waiting, pendingQueue := s.pendingQueue ++ [r] }
  | dispatchFull {r : Req} (hd : s.dispatcher = .took r) (hk : ∀ exits, kind r ≠ .line exits)
      (hfull : DEFAULT_LIMIT ≤ s.pendingQueue.length) :
      Steps kind s .dispatch { s with dispatcher := .waiting }
  | linePut {r : Req} (res : Res) (hd : s.dispatcher = .took r) (hk : kind r = .line false)
      (hroom : s.resultQueue.length < DEFAULT_LIMIT) :
      Steps kind s (.answerLine res) { s with
        dispatcher := .notifying
        resultQueue := res :: s.resultQueue, handed := s.handed ++ [(r, res)] }
  | lineFull {r : Req} (res : Res) (hd : s.dispatcher = .took r) (hk : kind r = .line false)
      (hfull : DEFAULT_LIMIT ≤ s.resultQueue.length) :
      Steps kind s (.answerLine res) { s with
        dispatcher := .waiting, handed := s.handed ++ [(r, res)] }
  | lineSent (hd : s.dispatcher = .notifying) :
      Steps kind s (.notifyLine true) { s with dispatcher := .waiting, unread := s.unread + 1 }
  | lineUnsent (hd : s.dispatcher = .notifying) (hu : s.unread ≠ 0) :
      Steps kind s (.notifyLine false) { s with dispatcher := .waiting }
  | leave {r : Req} (hd : s.dispatcher = .took r) (hk : kind r = .line true) :
      Steps kind s .leave { s with dispatcher := .ended }
  | stop (hd : s.dispatcher = .waiting) : Steps kind s .stop { s with dispatcher := .ended }
  | get {t : Tid} {r : Req} {rest : List Req} (hw : s.workers[t]? = some .waiting)
      (hq : s.pendingQueue = r :: rest) :
      Steps kind s (.get t) { s.goes t (.processing r) with pendingQueue := rest }
  | process {t : Tid} {r : Req} (hw : s.workers[t]? = some (.processing r))
      (hk : (kind r).Answered) :
      Steps kind s (.process t) { s.goes t (.answering r) with processed := s.processed ++ [r] }
  | exits {t : Tid} {r : Req} (hw : s.workers[t]? = some (.processing r))
      (hk : kind r = .line true) : Steps kind s (.process t) (s.goes t .ended)
  | ignored {t : Tid} {r : Req} (hw : s.workers[t]? = some (.processing r))
      (hk : kind r = .unknown) : Steps kind s (.process t) (s.goes t .waiting)
  | answerPut {t : Tid} {r : Req} (res : Res) (hw : s.workers[t]? = some (.answering r))
      (hroom : s.resultQueue.length < DEFAULT_LIMIT) :
      Steps kind s (.answer t res) { s.goes t .notifying with
        resultQueue := res :: s.resultQueue, handed := s.handed ++ [(r, res)] }
  | answerFull {t : Tid} {r : Req} (res : Res) (hw : s.workers[t]? = some (.answering r))
      (hfull : DEFAULT_LIMIT ≤ s.resultQueue.length) :
      Steps kind s (.answer t res) { s.goes t .waiting with handed := s.handed ++ [(r, res)] }
  | sent {t : Tid} (hw : s.workers[t]? = some .notifying) :
      Steps kind s (.notify t true) { s.goes t .waiting with unread := s.unread + 1 }
  | unsent {t : Tid} (hw : s.workers[t]? = some .notifying) (hu : s.unread ≠ 0) :
      Steps kind s (.notify t false) (s.goes t .waiting)
  | wake (hio : s.io = .loop) {n : Nat} (hn : 0 < n ∧ n ≤ 64 ∧ n ≤ s.unread) :
      Steps kind s (.wake n) { s with io := .pushing, unread := s.unread - n }
  | push (hio : s.io = .pushing) {res : Res} {rest : List Res} (hq : s.resultQueue = res :: rest)
      (encoded : Bool) :
      Steps kind s (.push encoded) { s with
        io := if encoded then .pushing else .loop, resultQueue := rest, taken := s.taken ++ [res] }
  | pushed (hio : s.io = .pushing) (hq : s.resultQueue = []) :
      Steps kind s .pushed { s with io := .loop }

theorem queuePut_cases {α : Type} (x : α) (data : List α) :
    (data.length < DEFAULT_LIMIT ∧ queuePut x data = some (data ++ [x])) ∨
      (DEFAULT_LIMIT ≤ data.length ∧ queuePut x data = none) := by
  unfold queuePut
  split
  · exact .inr ⟨‹_›, rfl⟩
  · exact .inl ⟨by omega, rfl⟩

theorem stackPut_cases {α : Type} (x : α) (data : List α) :
    (data.length < DEFAULT_LIMIT ∧ stackPut x data = some (x :: data)) ∨
      (DEFAULT_LIMIT ≤ data.length ∧ stackPut x data = none) := by
  unfold stackPut
  split
  · exact .inr ⟨‹_›, rfl⟩
  · exact .inl ⟨by omega, rfl⟩

theorem steps_of_step {kind : Req → MsgKind} {s s' : Threads Req Res} {m : Move Req Res}
    (h : s.step kind m = some s') : Steps kind s m s' := by
  cases m with
  | receive rs =>
    simp only [step] at h
    split at h
    · rename_i hio
      cases h
      exact .receive hio rs
    · cases h
  | call =>
    simp only [step] at h
    split at h
    · rename_i r rest hio
      rcases stackPut_cases r s.requestQueue with ⟨hroom, hput⟩ | ⟨hfull, hput⟩
      · rw [hput] at h
        cases h
        exact .callPut hio hroom
      · rw [hput] at h
        cases h
        exact .callFull hio hfull
    · cases h
  | extracted =>
    simp only [step] at h
    split at h
    · rename_i hio
      cases h
      exact .extracted hio
    · cases h
  | take =>
    simp only [step] at h
    split at h
    · rename_i hd hq
      cases h
      exact .take hd hq
    · cases h
  | dispatch =>
    simp only [step] at h
    split at h
    · rename_i r hd
      split at h
      · cases h
      · rename_i hk
        rcases queuePut_cases r s.pendingQueue with ⟨hroom, hput⟩ | ⟨hfull, hput⟩
        · rw [hput] at h
          cases h
          exact .dispatchPut hd hk hroom
        · rw [hput] at h
          cases h
          exact .dispatchFull hd hk hfull
    · cases h
  | answerLine res =>
    simp only [step] at h
    split at h
    · rename_i r hd
      split at h
      · rename_i hk
        rcases stackPut_cases res s.resultQueue with ⟨hroom, hput⟩ | ⟨hfull, hput⟩
        · rw [hput] at h
          cases h
          exact .linePut res hd hk hroom
        · rw [hput] at h
          cases h
          exact .lineFull res hd hk hfull
      · cases h
    · cases h
  | notifyLine sent =>
    simp only [step] at h
    split at h
    · rename_i hd
      cases sent with
      | true =>
        cases h
        exact .lineSent hd
      | false =>
        simp only [Bool.false_eq_true, if_false] at h
        split at h
        · cases h
        · rename_i hu
          cases h
          exact .lineUnsent hd hu
    · cases h
  | leave =>
    simp only [step] at h
    split at h
    · rename_i r hd
      split at h
      · rename_i hk
        cases h
        exact .leave hd hk
      · cases h
    · cases h
  | stop =>
    simp only [step] at h
    split at h
    · rename_i hd
      cases h
      exact .stop hd
    · cases h
  | get t =>
    simp only [step] at h
    split at h
    · rename_i hw hq
      cases h
      exact .get hw hq
    · cases h
  | process t =>
    simp only [step] at h
    split at h
    · rename_i r hw
      split at h
      · rename_i hk
        cases h
        exact .process hw (.inl hk)
      · rename_i hk
        cases h
        exact .process hw (.inr hk)
      · rename_i hk
        cases h
        exact .exits hw hk
      · rename_i hk
        cases h
        exact .ignored hw hk
    · cases h
  | answer t res =>
    simp only [step] at h
    split at h
    · rename_i r hw
      rcases stackPut_cases res s.resultQueue with ⟨hroom, hput⟩ | ⟨hfull, hput⟩
      · rw [hput] at h
        cases h
        exact .answerPut res hw hroom
      · rw [hput] at h
        cases h
        exact .answerFull res hw hfull
    · cases h
  | notify t sent =>
    simp only [step] at h
    split at h
    · rename_i hw
      cases sent with
      | true =>
        cases h
        exact .sent hw
      | false =>
        simp only [Bool.false_eq_true, if_false] at h
        split at h
        · cases h
        · rename_i hu
          cases h
          exact .unsent hw hu
    · cases h
  | wake n =>
    simp only [step] at h
    split at h
    · rename_i hio
      split at h
      · rename_i hn
        cases h
        exact .wake hio hn
      · cases h
    · cases h
  | push encoded =>
    simp only [step] at h
    split at h
    · rename_i hio hq
      cases h
      exact .push hio hq encoded
    · cases h
  | pushed =>
    simp only [step] at h
    split at h
    · rename_i hio hq
      cases h
      exact .pushed hio hq
    · cases h

/-! ## No wake-up is lost -/

/-- The dispatcher or a worker is between its enqueue and its notification. -/
def Notifying (s : Threads Req Res) : Prop :=
  s.dispatcher = .notifying ∨ ∃ t : Tid, s.workers[t]? = some .notifying

/-- Out of `HandleInput` and with no thread about to notify, a result that waits has a byte. -/
def Woken (s : Threads Req Res) : Prop :=
  s.io ≠ .pushing → ¬ s.Notifying → s.resultQueue ≠ [] → 0 < s.unread

/-- The condition on a run: when `Encode` fails, which ends the loop, no result is left behind, or a
byte is unread or on its way. -/
def Drained (s : Threads Req Res) : Move Req Res → Prop
  | .push false => s.resultQueue.length ≤ 1 ∨ 0 < s.unread ∨ s.Notifying
  | _ => True

/-- What holds along the run: out of `HandleInput`, a result that waits has a byte, which may be on
its way. -/
def Awake (s : Threads Req Res) : Prop :=
  s.io ≠ .pushing → s.resultQueue ≠ [] → 0 < s.unread ∨ s.Notifying

/-- A worker that goes on leaves the others where they are. -/
theorem Notifying.goes {s : Threads Req Res} (h : s.Notifying) {t : Tid} {w w' : Worker Req}
    (hw : s.workers[t]? = some w) (hne : w ≠ .notifying) : (s.goes t w').Notifying := by
  rcases h with hd | ⟨t', ht'⟩
  · exact .inl hd
  · refine .inr ⟨t', ?_⟩
    have hne' : t ≠ t' := by
      rintro rfl
      rw [hw] at ht'
      exact hne (Option.some.inj ht')
    show (s.workers.set t w')[t']? = _
    rw [List.getElem?_set_ne hne']
    exact ht'

/-- So does the dispatcher. -/
theorem Awake.dispatcher {s s' : Threads Req Res} (h : s.Awake) (hd : s.dispatcher ≠ .notifying)
    (hio : s'.io = s.io) (hq : s'.resultQueue = s.resultQueue) (hu : s'.unread = s.unread)
    (hw : s'.workers = s.workers) : s'.Awake := by
  intro hio' hne
  rw [hu]
  rcases h (hio ▸ hio') (hq ▸ hne) with hu | hn | hn
  · exact .inl hu
  · exact absurd hn hd
  · exact .inr (.inr (hw ▸ hn))

theorem Awake.step {kind : Req → MsgKind} {s s' : Threads Req Res} {m : Move Req Res}
    (h : s.Awake) (hd : s.Drained m) (hs : s.step kind m = some s') : s'.Awake := by
  intro hio hne
  -- a worker that goes on without a result
  have hgo : ∀ {t : Tid} {w w' : Worker Req}, s.workers[t]? = some w → w ≠ .notifying →
      s.io ≠ .pushing → s.resultQueue ≠ [] → 0 < s.unread ∨ (s.goes t w').Notifying := by
    intro t w w' hw hnot hio hne
    rcases h hio hne with hu | hn
    · exact .inl hu
    · exact .inr (hn.goes hw hnot)
  cases steps_of_step hs with
  | receive hio' rs => exact h (by simp [hio']) hne
  | callPut hio' _ => exact h (by simp [hio']) hne
  | callFull hio' _ => exact h (by simp [hio']) hne
  | extracted hio' => exact h (by simp [hio']) hne
  | take hd' _ => exact h.dispatcher (by simp [hd']) rfl rfl rfl rfl hio hne
  | dispatchPut hd' _ _ => exact h.dispatcher (by simp [hd']) rfl rfl rfl rfl hio hne
  | dispatchFull hd' _ _ => exact h.dispatcher (by simp [hd']) rfl rfl rfl rfl hio hne
  | linePut _ _ _ _ => exact .inr (.inl rfl)
  | lineFull _ hd' _ _ => exact h.dispatcher (by simp [hd']) rfl rfl rfl rfl hio hne
  | lineSent _ => exact .inl (Nat.succ_pos _)
  | lineUnsent _ hu => exact .inl (Nat.pos_of_ne_zero hu)
  | leave hd' _ => exact h.dispatcher (by simp [hd']) rfl rfl rfl rfl hio hne
  | stop hd' => exact h.dispatcher (by simp [hd']) rfl rfl rfl rfl hio hne
  | get hw _ => exact hgo hw (by simp) hio hne
  | process hw _ => exact hgo hw (by simp) hio hne
  | exits hw _ => exact hgo hw (by simp) hio hne
  | ignored hw _ => exact hgo hw (by simp) hio hne
  | @answerPut t r res hw _ =>
    refine .inr (.inr ⟨t, ?_⟩)
    show (s.workers.set t .notifying)[t]? = _
    rw [List.getElem?_set_self (List.getElem?_eq_some_iff.mp hw).1]
  | answerFull res hw _ => exact hgo hw (by simp) hio hne
  | sent hw => exact .inl (Nat.succ_pos _)
  | unsent hw hu => exact .inl (Nat.pos_of_ne_zero hu)
  | wake hio' hn => exact absurd rfl hio
  | push hio' hq encoded =>
    cases encoded with
    | true => exact absurd rfl hio
    | false =>
      -- the loop ends with what is left in the queue
      rcases hd with hle | hu | hn
      · rw [hq] at hle
        exact absurd (List.length_eq_zero_iff.mp (Nat.le_zero.mp (Nat.le_of_succ_le_succ hle))) hne
      · exact .inl hu
      · exact .inr hn
  | pushed hio' hq => exact absurd hq hne

/-- **No lost wake-up** in a run in which no failed `Encode` leaves results behind: whenever the I/O
thread is out of `HandleInput` and no thread is about to notify, a result that waits has an unread
byte. -/
theorem results_wake {kind : Req → MsgKind} {n : Nat} {s : Threads Req Res}
    (h : Machine.Reach (Threads.step kind) Drained (start n) s) : s.Woken := by
  have hawake : s.Awake := h.inv (I := Awake) (fun _ hne => absurd rfl hne) Awake.step
  intro hio hno hne
  exact (hawake hio hne).resolve_right hno

/-- Two results, one read for both bytes, and the first `Encode` fails: the other result waits and
no byte is unread. -/
theorem results_not_woken : ¬ ∀ (kind : Nat → MsgKind) (n : Nat) (s : Threads Nat Nat),
    Machine.Reach (Threads.step kind) Machine.free (start n) s → s.Woken := by
  intro h
  have hreach : Machine.Reach (Threads.step fun _ => .request) Machine.free (start 1)
      (⟨.loop, [], .waiting, [], [.waiting], [10], 0, [1, 2], [2, 1], [(2, 10), (1, 20)], [20]⟩ :
        Threads Nat Nat) :=
    Machine.reach_of_run
      [.receive [1, 2], .call, .call, .extracted, .take, .dispatch, .take, .dispatch,
        .get 0, .process 0, .answer 0 10, .notify 0 true,
        .get 0, .process 0, .answer 0 20, .notify 0 true, .wake 2, .push false] rfl
  have hlost := h _ 1 _ hreach (by simp) ?_ (by simp)
  · exact absurd hlost (Nat.lt_irrefl 0)
  · rintro (hd | ⟨t, ht⟩)
    · cases hd
    · rcases t with _ | t
      · cases ht
      · simp at ht

/-- A test for `Drained`. -/
def drained (s : Threads Req Res) : Move Req Res → Bool
  | .push false => s.resultQueue.length ≤ 1
  | _ => true

theorem drained_spec (s : Threads Req Res) (m : Move Req Res) (h : s.drained m = true) :
    s.Drained m := by
  unfold drained at h
  unfold Drained
  split
  · exact .inl (of_decide_eq_true h)
  · trivial

/-- The message `3` is a line. -/
def lineThree (r : Nat) : MsgKind := if r = 3 then .line false else .request

/-- Two requests and a line. The first result is read and pushed, the second cannot be encoded, the
third waits. -/
theorem results_wake_one : (⟨.loop, [], .waiting, [], [.waiting], [30], 1, [1, 2, 3], [1, 2],
    [(1, 10), (2, 20), (3, 30)], [10, 20]⟩ : Threads Nat Nat).Woken := by
  have hreach : Machine.Reach (Threads.step lineThree) Drained (start 1) _ :=
    Machine.Reach.init.run drained_spec
      [.receive [1], .call, .extracted, .take, .dispatch, .get 0, .process 0, .answer 0 10,
        .notify 0 true, .wake 1, .push true, .pushed,
        .receive [2], .call, .extracted, .take, .dispatch, .get 0, .process 0, .answer 0 20,
        .notify 0 true, .wake 1, .push false,
        .receive [3], .call, .extracted, .take, .answerLine 30, .notifyLine true] rfl
  exact results_wake hreach

/-! ## No message is lost -/

/-- Every request passed to the callback is in a queue, with the dispatcher, with a worker or
answered, and every result handed over is in its queue or taken out; each at one place. -/
def Conserved (s : Threads Req Res) : Prop :=
  s.called.Perm (s.requestQueue ++ (s.dispatcher.holds.toList ++ (s.pendingQueue ++
    (s.workers.filterMap Worker.holds ++ s.handed.map Prod.fst)))) ∧
  (s.handed.map Prod.snd).Perm (s.resultQueue ++ s.taken)

/-- The condition on a run: a `Put` finds room, and the message that a thread has in its macros is
one that is answered. -/
def Roomy (kind : Req → MsgKind) (s : Threads Req Res) : Move Req Res → Prop
  | .call => s.requestQueue.length < DEFAULT_LIMIT
  | .dispatch => s.pendingQueue.length < DEFAULT_LIMIT
  | .answer _ _ | .answerLine _ => s.resultQueue.length < DEFAULT_LIMIT
  | .leave => ∀ r ∈ s.dispatcher.holds, (kind r).Answered
  | .process t => ∀ r ∈ s.workers[t]?.bind Worker.holds, (kind r).Answered
  | _ => True

instance (kind : Req → MsgKind) (s : Threads Req Res) (m : Move Req Res) :
    Decidable (s.Roomy kind m) :=
  match m with
  | .call => inferInstanceAs (Decidable (s.requestQueue.length < DEFAULT_LIMIT))
  | .dispatch => inferInstanceAs (Decidable (s.pendingQueue.length < DEFAULT_LIMIT))
  | .answer _ _ | .answerLine _ =>
    inferInstanceAs (Decidable (s.resultQueue.length < DEFAULT_LIMIT))
  | .leave => inferInstanceAs (Decidable (∀ r ∈ s.dispatcher.holds, (kind r).Answered))
  | .process t =>
    inferInstanceAs (Decidable (∀ r ∈ s.workers[t]?.bind Worker.holds, (kind r).Answered))
  | .receive _ | .extracted | .take | .get _ | .notify _ _ | .notifyLine _ | .stop | .wake _
  | .push _ | .pushed => inferInstanceAs (Decidable True)

/-- What the workers hold when one of them goes on. -/
theorem count_holds_set [DecidableEq Req] {l : List (Worker Req)} {t : Tid} {w : Worker Req}
    (w' : Worker Req) (hw : l[t]? = some w) (a : Req) :
    ((l.set t w').filterMap Worker.holds).count a + w.holds.toList.count a =
      (l.filterMap Worker.holds).count a + w'.holds.toList.count a := by
  have hcons : ∀ (v : Worker Req) (l : List (Worker Req)),
      ((v :: l).filterMap Worker.holds).count a =
        v.holds.toList.count a + (l.filterMap Worker.holds).count a := by
    intro v l
    cases hv : v.holds with
    | none => simp [hv]
    | some r => simp [hv, List.count_cons, Nat.add_comm]
  induction l generalizing t with
  | nil => simp at hw
  | cons v l ih =>
    cases t with
    | zero =>
      rw [List.getElem?_cons_zero] at hw
      cases hw
      rw [List.set_cons_zero, hcons, hcons]
      omega
    | succ t =>
      rw [List.getElem?_cons_succ] at hw
      rw [List.set_cons_succ, hcons, hcons]
      have := ih hw
      omega

theorem not_answered_exits : ¬ (MsgKind.line true).Answered := by decide

theorem not_answered_unknown : ¬ MsgKind.unknown.Answered := by decide

theorem Conserved.step {kind : Req → MsgKind} {s s' : Threads Req Res} {m : Move Req Res}
    (h : s.Conserved) (hr : s.Roomy kind m) (hs : s.step kind m = some s') : s'.Conserved := by
  classical
  obtain ⟨hreq, hres⟩ := h
  have hreq' := List.perm_iff_count.mp hreq
  have hres' := List.perm_iff_count.mp hres
  simp only [List.count_append] at hreq' hres'
  cases steps_of_step hs with
  | receive _ _ => exact ⟨hreq, hres⟩
  | callPut _ _ =>
    refine ⟨List.perm_iff_count.mpr fun a => ?_, hres⟩
    have := hreq' a
    simp only [List.count_append, List.count_cons, List.count_nil]
    omega
  | callFull _ hfull => exact absurd hr (Nat.not_lt.mpr hfull)
  | extracted _ => exact ⟨hreq, hres⟩
  | take hd hq =>
    refine ⟨List.perm_iff_count.mpr fun a => ?_, hres⟩
    have := hreq' a
    rw [hd, hq] at this
    simp only [Dispatcher.holds, List.count_append, List.count_cons, List.count_nil,
      Option.toList_some, Option.toList_none] at this ⊢
    omega
  | dispatchPut hd _ _ =>
    refine ⟨List.perm_iff_count.mpr fun a => ?_, hres⟩
    have := hreq' a
    rw [hd] at this
    simp only [Dispatcher.holds, List.count_append, List.count_cons, List.count_nil,
      Option.toList_some, Option.toList_none] at this ⊢
    omega
  | dispatchFull _ _ hfull => exact absurd hr (Nat.not_lt.mpr hfull)
  | linePut res hd _ _ =>
    refine ⟨List.perm_iff_count.mpr fun a => ?_, List.perm_iff_count.mpr fun a => ?_⟩
    · have := hreq' a
      rw [hd] at this
      simp only [Dispatcher.holds, List.map_append, List.map_cons, List.map_nil, List.count_append,
        List.count_cons, List.count_nil, Option.toList_some, Option.toList_none] at this ⊢
      omega
    · have := hres' a
      simp only [List.map_append, List.map_cons, List.map_nil, List.count_append, List.count_cons,
        List.count_nil]
      omega
  | lineFull _ _ _ hfull => exact absurd hr (Nat.not_lt.mpr hfull)
  | lineSent hd =>
    rw [hd] at hreq
    exact ⟨hreq, hres⟩
  | lineUnsent hd _ =>
    rw [hd] at hreq
    exact ⟨hreq, hres⟩
  | leave hd hk =>
    have hanswered := hr _ (by rw [hd]; rfl)
    rw [hk] at hanswered
    exact absurd hanswered not_answered_exits
  | stop hd =>
    rw [hd] at hreq
    exact ⟨hreq, hres⟩
  | @get t r rest hw hq =>
    refine ⟨List.perm_iff_count.mpr fun a => ?_, hres⟩
    have := hreq' a
    have hset := count_holds_set (.processing r) hw a
    rw [hq] at this
    simp only [goes, Worker.holds, List.count_append, List.count_cons, List.count_nil,
      Option.toList_some, Option.toList_none] at this hset ⊢
    omega
  | @process t r hw _ =>
    refine ⟨List.perm_iff_count.mpr fun a => ?_, hres⟩
    have := hreq' a
    have hset := count_holds_set (.answering r) hw a
    simp only [goes, Worker.holds, List.count_append, List.count_cons, List.count_nil,
      Option.toList_some] at this hset ⊢
    omega
  | exits hw hk =>
    have hanswered := hr _ (by rw [hw]; rfl)
    rw [hk] at hanswered
    exact absurd hanswered not_answered_exits
  | ignored hw hk =>
    have hanswered := hr _ (by rw [hw]; rfl)
    rw [hk] at hanswered
    exact absurd hanswered not_answered_unknown
  | @answerPut t r res hw _ =>
    refine ⟨List.perm_iff_count.mpr fun a => ?_, List.perm_iff_count.mpr fun a => ?_⟩
    · have := hreq' a
      have hset := count_holds_set .notifying hw a
      simp only [goes, Worker.holds, List.map_append, List.map_cons, List.map_nil,
        List.count_append,
        List.count_cons, List.count_nil, Option.toList_some, Option.toList_none] at this hset ⊢
      omega
    · have := hres' a
      simp only [goes, List.map_append, List.map_cons, List.map_nil, List.count_append,
        List.count_cons, List.count_nil]
      omega
  | answerFull _ _ hfull => exact absurd hr (Nat.not_lt.mpr hfull)
  | @sent t hw =>
    refine ⟨List.perm_iff_count.mpr fun a => ?_, hres⟩
    have := hreq' a
    have hset := count_holds_set .waiting hw a
    simp only [goes, Worker.holds, List.count_append] at this hset ⊢
    omega
  | @unsent t hw _ =>
    refine ⟨List.perm_iff_count.mpr fun a => ?_, hres⟩
    have := hreq' a
    have hset := count_holds_set .waiting hw a
    simp only [goes, Worker.holds, List.count_append] at this hset ⊢
    omega
  | wake _ _ => exact ⟨hreq, hres⟩
  | push _ hq encoded =>
    refine ⟨hreq, List.perm_iff_count.mpr fun a => ?_⟩
    have := hres' a
    rw [hq] at this
    simp only [List.count_append, List.count_cons, List.count_nil] at this ⊢
    omega
  | pushed _ _ => exact ⟨hreq, hres⟩

theorem holds_replicate (n : Nat) :
    (List.replicate n (Worker.waiting : Worker Req)).filterMap Worker.holds = [] := by
  rw [List.filterMap_eq_nil_iff]
  intro w hw
  rw [List.eq_of_mem_replicate hw]
  rfl

/-- **No message is dropped** in a run in which every `Put` finds room and the threads take no
message that they do not answer. -/
theorem requests_conserved {kind : Req → MsgKind} {n : Nat} {s : Threads Req Res}
    (h : Machine.Reach (Threads.step kind) (Roomy kind) (start n) s) : s.Conserved := by
  refine h.inv (I := Conserved) ?_ Conserved.step
  unfold Conserved start
  rw [holds_replicate]
  exact ⟨.refl _, .refl _⟩

/-- Requests that come faster than the dispatcher takes them. -/
theorem reach_calls {kind : Req → MsgKind} {r : Req} (n k : Nat) :
    Machine.Reach (Threads.step kind) Machine.free
    (start n : Threads Req Res) { (start n : Threads Req Res) with
      requestQueue := List.replicate (min k DEFAULT_LIMIT) r, called := List.replicate k r } := by
  induction k with
  | zero => exact .init
  | succ k ih =>
    have hreceive := ih.step (.receive [r]) trivial rfl
    have hcall := hreceive.step .call trivial rfl
    have hend := hcall.step .extracted trivial rfl
    have hput : (stackPut r (List.replicate (min k DEFAULT_LIMIT) r)).getD
        (List.replicate (min k DEFAULT_LIMIT) r) =
        List.replicate (min (k + 1) DEFAULT_LIMIT) r := by
      rcases stackPut_cases r (List.replicate (min k DEFAULT_LIMIT) r) with
        ⟨hroom, hput⟩ | ⟨hfull, hput⟩
      · rw [List.length_replicate] at hroom
        rw [hput, Option.getD_some, ← List.replicate_succ]
        congr 1
        omega
      · rw [List.length_replicate] at hfull
        rw [hput, Option.getD_none]
        congr 1
        omega
    rw [← hput, List.replicate_succ']
    exact hend

/-- One request more than the queue holds. -/
theorem requests_dropped : ¬ ∀ (kind : Nat → MsgKind) (n : Nat) (s : Threads Nat Nat),
    Machine.Reach (Threads.step kind) Machine.free (start n) s → s.Conserved := by
  intro h
  obtain ⟨hreq, -⟩ := h (fun _ => .request) 1 _ (reach_calls (r := 0) 1 (DEFAULT_LIMIT + 1))
  have hlen := hreq.length_eq
  simp only [start, Dispatcher.holds, List.length_append, List.length_replicate, holds_replicate,
    List.map_nil, List.length_nil, Option.toList_none] at hlen
  omega

/-- A request and a line, both answered. -/
theorem requests_conserved_one :
    (⟨.loop, [], .ended, [], [.waiting], [], 0, [1, 3], [1], [(1, 10), (3, 30)], [10, 30]⟩ :
      Threads Nat Nat).Conserved := by
  have hreach : Machine.Reach (Threads.step lineThree) (Roomy lineThree) (start 1) _ :=
    Machine.Reach.init.run (fun _ _ => of_decide_eq_true)
      [.receive [1], .call, .extracted, .take, .dispatch, .get 0, .process 0, .answer 0 10,
        .notify 0 true, .wake 1, .push true, .pushed,
        .receive [3], .call, .extracted, .take, .answerLine 30, .notifyLine true, .wake 1,
        .push true, .pushed, .stop] rfl
  exact requests_conserved hreach

/-! ## One worker and a prompt dispatcher -/

/-- The requests whose `ProcessMsg` is going on. -/
def busy (s : Threads Req Res) : List Req := s.workers.filterMap Worker.busy

theorem busy_of_one {s : Threads Req Res} {w : Worker Req} (h : s.workers = [w]) :
    s.busy = w.busy.toList := by
  unfold busy
  rw [h]
  cases hw : w.busy with
  | none => simp [hw]
  | some r => simp [hw]

theorem busy_goes_one {s : Threads Req Res} {w : Worker Req} (h : s.workers = [w])
    (w' : Worker Req) : (s.goes 0 w').busy = w'.busy.toList :=
  busy_of_one (by simp [Threads.goes, h])

theorem filterMap_set {α β : Type} {f : α → Option β} {l : List α} {t : Nat} {x y : α}
    (hx : l[t]? = some x) (hf : f y = f x) : (l.set t y).filterMap f = l.filterMap f := by
  induction l generalizing t with
  | nil => rfl
  | cons z l ih =>
    rcases t with _ | t
    · rw [List.getElem?_cons_zero] at hx
      cases hx
      rw [List.set_cons_zero, List.filterMap_cons, List.filterMap_cons, hf]
    · rw [List.getElem?_cons_succ] at hx
      rw [List.set_cons_succ, List.filterMap_cons, List.filterMap_cons, ih hx]

/-- A worker that goes on outside of `ProcessMsg`. -/
theorem busy_goes {s : Threads Req Res} {t : Tid} {w w' : Worker Req}
    (hw : s.workers[t]? = some w) (hbusy : w'.busy = w.busy) :
    (s.goes t w').busy = s.busy := filterMap_set hw hbusy

/-- Only `ProcessMsg` changes what is processed, and only a worker that takes a request is busy with
more. -/
theorem Steps.worked {kind : Req → MsgKind} {s s' : Threads Req Res} {m : Move Req Res}
    (h : Steps kind s m s') (hget : ∀ t, m ≠ .get t) (hprocess : ∀ t, m ≠ .process t) :
    s'.processed = s.processed ∧ s'.busy = s.busy := by
  cases h with
  | get hw hq => exact absurd rfl (hget _)
  | process hw _ => exact absurd rfl (hprocess _)
  | exits hw _ => exact absurd rfl (hprocess _)
  | ignored hw _ => exact absurd rfl (hprocess _)
  | answerPut res hw _ => exact ⟨rfl, filterMap_set hw rfl⟩
  | answerFull res hw _ => exact ⟨rfl, filterMap_set hw rfl⟩
  | sent hw => exact ⟨rfl, filterMap_set hw rfl⟩
  | unsent hw _ => exact ⟨rfl, busy_goes hw rfl⟩
  | _ => exact ⟨rfl, rfl⟩

/-- The messages extracted are passed on, in their order. -/
theorem Steps.passed {kind : Req → MsgKind} {s s' : Threads Req Res} {m : Move Req Res}
    (h : Steps kind s m s') (hreceive : ∀ rs, m ≠ .receive rs) :
    s'.called ++ s'.io.rest = s.called ++ s.io.rest := by
  cases h with
  | receive hio rs => exact absurd rfl (hreceive rs)
  | callPut hio _ => simp [hio, Io.rest]
  | callFull hio _ => simp [hio, Io.rest]
  | extracted hio => simp [hio, Io.rest]
  | wake hio _ => simp [hio, Io.rest]
  | push hio _ encoded => cases encoded <;> simp [hio, Io.rest]
  | pushed hio _ => simp [hio, Io.rest]
  | _ => rfl

/-- The requests in the queues and with the threads, and the results still to be taken out. -/
def inFlight (s : Threads Req Res) : Nat :=
  s.requestQueue.length + s.dispatcher.holds.toList.length + s.pendingQueue.length +
    (s.workers.filterMap Worker.holds).length + s.resultQueue.length

/-- The condition on a run: fewer than 1000 requests are in flight, and a request is put when the
dispatcher has taken all before it. -/
def Prompt (s : Threads Req Res) (m : Move Req Res) : Prop :=
  s.inFlight < DEFAULT_LIMIT ∧ (m = .call → s.requestQueue = [])

/-- Every message is a request. -/
def requestsOnly : Req → MsgKind := fun _ => .request

/-- With one worker, the requests passed on are processed, in the worker, in one queue, with the
dispatcher and in the other queue, in the order in which they came. -/
structure InTurn (s : Threads Req Res) : Prop where
  order : s.called = s.processed ++ (s.busy ++ (s.pendingQueue ++
    (s.dispatcher.holds.toList ++ s.requestQueue)))
  short : s.requestQueue.length ≤ 1
  worker : ∃ w, s.workers = [w]

theorem inTurn_start : (start 1 : Threads Req Res).InTurn := ⟨rfl, Nat.zero_le _, .waiting, rfl⟩

/-- There is one worker. -/
theorem InTurn.workers_eq {s : Threads Req Res} (h : s.InTurn) {t : Tid} {w : Worker Req}
    (hw : s.workers[t]? = some w) : s.workers = [w] ∧ t = 0 := by
  obtain ⟨v, hv⟩ := h.worker
  rw [hv] at hw
  rcases t with _ | t
  · cases hw
    exact ⟨hv, rfl⟩
  · simp at hw

/-- The worker goes on outside of `ProcessMsg`. -/
theorem InTurn.goes {s : Threads Req Res} (h : s.InTurn) {t : Tid} {w w' : Worker Req}
    (hw : s.workers[t]? = some w) (hbusy : w'.busy = w.busy) :
    (s.goes t w').InTurn := by
  obtain ⟨hworkers, rfl⟩ := h.workers_eq hw
  refine ⟨?_, h.short, w', by simp [Threads.goes, hworkers]⟩
  rw [busy_goes hw hbusy]
  exact h.order

theorem InTurn.step {s s' : Threads Req Res} {m : Move Req Res} (h : s.InTurn) (hp : s.Prompt m)
    (hs : s.step requestsOnly m = some s') : s'.InTurn := by
  obtain ⟨hflight, hempty⟩ := hp
  unfold inFlight at hflight
  have horder := h.order
  cases steps_of_step hs with
  | receive _ _ => exact ⟨horder, h.short, h.worker⟩
  | @callPut r rest _ _ =>
    have hnil : s.requestQueue = [] := hempty rfl
    refine ⟨?_, by simp [hnil], h.worker⟩
    rw [hnil] at horder ⊢
    simp only [busy] at horder ⊢
    rw [horder]
    simp
  | callFull _ hfull => omega
  | extracted _ => exact ⟨horder, h.short, h.worker⟩
  | @take r rest hd hq =>
    have hshort := h.short
    rw [hq, List.length_cons] at hshort
    have hrest : rest = [] := List.length_eq_zero_iff.mp (by omega)
    refine ⟨?_, by simp [hrest], h.worker⟩
    rw [hd, hq, hrest] at horder
    simp only [busy, hrest] at horder ⊢
    exact horder
  | dispatchPut hd _ _ =>
    refine ⟨?_, h.short, h.worker⟩
    rw [hd] at horder
    simp only [busy, Dispatcher.holds] at horder ⊢
    rw [horder]
    simp
  | dispatchFull _ _ hfull => omega
  | lineSent hd =>
    rw [hd] at horder
    exact ⟨horder, h.short, h.worker⟩
  | lineUnsent hd _ =>
    rw [hd] at horder
    exact ⟨horder, h.short, h.worker⟩
  | stop hd =>
    rw [hd] at horder
    exact ⟨horder, h.short, h.worker⟩
  | linePut _ _ hk _ | lineFull _ _ hk _ | leave _ hk | exits _ hk | ignored _ hk => cases hk
  | @get t r rest hw hq =>
    obtain ⟨hworkers, rfl⟩ := h.workers_eq hw
    refine ⟨?_, h.short, .processing r, by simp [Threads.goes, hworkers]⟩
    rw [hq] at horder
    simp only [busy, Threads.goes, hworkers] at horder ⊢
    exact horder
  | @process t r hw _ =>
    obtain ⟨hworkers, rfl⟩ := h.workers_eq hw
    refine ⟨?_, h.short, .answering r, by simp [Threads.goes, hworkers]⟩
    simp only [busy, Threads.goes, hworkers] at horder ⊢
    rw [horder]
    simp [Worker.busy]
  | answerPut res hw _ =>
    have hgo : (s.goes _ .notifying).InTurn := h.goes hw rfl
    exact ⟨hgo.order, hgo.short, hgo.worker⟩
  | answerFull res hw _ =>
    have hgo : (s.goes _ .waiting).InTurn := h.goes hw rfl
    exact ⟨hgo.order, hgo.short, hgo.worker⟩
  | sent hw =>
    have hgo : (s.goes _ .waiting).InTurn := h.goes hw rfl
    exact ⟨hgo.order, hgo.short, hgo.worker⟩
  | unsent hw _ => exact h.goes hw rfl
  | wake _ _ => exact ⟨horder, h.short, h.worker⟩
  | push _ _ _ => exact ⟨horder, h.short, h.worker⟩
  | pushed _ _ => exact ⟨horder, h.short, h.worker⟩

end Threads

end Domq.Netmgr

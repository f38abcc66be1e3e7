import Domq.Lib.Machine
import Mathlib.Logic.Function.Basic

/-!
# Connections, handlers and descriptors

Model of `NetMgrEventHandler` (`eventhandler.cpp`), `EventHandlerRegistry`, the two `Acceptor`s,
`EventManager::RegisterHandler` / `RemoveHandler` (`eventmanager.cpp`) and `PushMsgCallBack::Call`,
with the kernel's table of open descriptors.

* Connections are numbered as they are accepted, and a handler has the number of the connection it
  was created for. `_eventHandlerAllocator` gives a handler back only when `Open` fails, so a number
  is an object. The kernel gives a new connection any descriptor that is closed. Its peer address
  may be any: connections of two acceptors, which share one registry, may come from one address.
* An event is zeroed or set, and pending or not; `containEvent` asks for the first. Nothing
  registers a timer for these handlers. An event that is not persistent stops being pending when it
  fires.
* What `recv`, `send`, `event_add`, `Extract` and `Encode` answer is left open, except that a call
  on a closed descriptor fails and that `send` takes no more than it is given. `_recvbuffer` is in
  `Domq.Netmgr.Frame`.
* `requests`, `closes` and `writes` are history. A byte in `_sendbuffer` carries the connection on
  which its request arrived.

Results: `closed_once`: a handler closes its own descriptor, once, in a run that reaches only
handlers of open connections; `routed`: a result is written to the connection of its request in a
run without reused descriptors and addresses.
-/

namespace Domq.Netmgr.Connections

open Domq.Lib Function

abbrev Fd := Nat

/-- A connection, and the handler created for it. -/
abbrev Conn := Nat

/-! ## The kernel -/

/-- A `::close` of `NetMgrEventHandler::HandleClose`. -/
structure Closing where
  handler : Conn
  fd : Fd
  /-- the connection that had the descriptor -/
  owner : Option Conn
deriving DecidableEq

/-- A `::send` that has taken bytes. -/
structure Writing where
  fd : Fd
  owner : Option Conn
  bytes : List (Conn × UInt8)
deriving DecidableEq

structure Kernel (Addr : Type) where
  /-- the open descriptors and the connections they are for -/
  fds : Fd → Option Conn
  /-- the requests extracted: the connection each arrived on, and its `context.peer.addr` -/
  requests : List (Conn × Addr)
  closes : List Closing
  writes : List Writing

/-- What `::recv` answers, and what `Extract` and `event_add` do then. -/
inductive Recv
  | closed
  | eintr
  | error
  | received (messages : Nat) (extracted added : Bool)

/-- What `::send` answers, and what `event_add` does then. -/
inductive Sent
  | sent (n : Nat) (added : Bool)
  | eintr
  | eagain (added : Bool)
  | error

/-! ## Events -/

/-- What the code reads of a `struct event`. -/
inductive Ev
  | zero
  | set (pending : Bool)
deriving DecidableEq

structure EventData where
  readev : Ev
  writeev : Ev

/-- `ReadMask`, `WriteMask`. -/
structure Mask where
  read : Bool
  write : Bool

/-- `EventManager::containEvent`. -/
def containEvent (ed : EventData) : Bool := ed.readev != .zero || ed.writeev != .zero

/-! ## `NetMgrEventHandler` -/

structure Handler (Addr : Type) where
  conn : Conn
  eventObject : Fd
  peerAddr : Addr
  context : Option EventData
  sendbuffer : List (Conn × UInt8)

namespace Handler

variable {Addr : Type}

/-- `EventManager::RegisterHandler`; `added` is what `event_add` answers. -/
def registerHandler (mask : Mask) (added : Bool) (hd : Handler Addr) : Handler Addr :=
  let ed := hd.context.getD ⟨.zero, .zero⟩
  let ed := if mask.read then { ed with readev := .set added } else ed
  let ed := if mask.write && (added || !mask.read) then { ed with writeev := .set added } else ed
  { hd with context := some ed }

/-- `NetMgrEventHandler::HandleClose`. -/
def handleClose (hd : Handler Addr) (k : Kernel Addr) : Kernel Addr :=
  { k with
    fds := update k.fds hd.eventObject none
    closes := k.closes ++ [⟨hd.conn, hd.eventObject, k.fds hd.eventObject⟩] }

/-- `EventManager::RemoveHandler`, `uninitEventHander`. -/
def removeHandler (mask : Mask) (hd : Handler Addr) (k : Kernel Addr) :
    Handler Addr × Kernel Addr :=
  match hd.context with
  | none => (hd, hd.handleClose k)
  | some ed =>
    let ed : EventData :=
      ⟨if mask.read then .zero else ed.readev, if mask.write then .zero else ed.writeev⟩
    if containEvent ed then ({ hd with context := some ed }, k)
    else ({ hd with context := none }, hd.handleClose k)

/-- `NetMgrEventHandler::Close`. -/
def close (hd : Handler Addr) (k : Kernel Addr) : Handler Addr × Kernel Addr :=
  removeHandler ⟨true, true⟩ hd k

/-- Register, and close when that fails. -/
def registerOrClose (mask : Mask) (added : Bool) (hd : Handler Addr) (k : Kernel Addr) :
    Handler Addr × Kernel Addr :=
  if added then (hd.registerHandler mask added, k) else (hd.registerHandler mask added).close k

/-- `NetMgrEventHandler::HandleInput`; `none` when the kernel does not answer so. -/
def handleInput (r : Recv) (hd : Handler Addr) (k : Kernel Addr) :
    Option (Handler Addr × Kernel Addr) :=
  match r, k.fds hd.eventObject with
  | .error, _ => some (hd.close k)
  | _, none => none
  | .closed, some _ => some (hd.close k)
  | .eintr, some _ => some (hd, k)
  | .received messages extracted added, some c =>
    let k := { k with requests := k.requests ++ List.replicate messages (c, hd.peerAddr) }
    if extracted then some (hd.registerOrClose ⟨true, false⟩ added k) else some (hd.close k)

/-- `NetMgrEventHandler::HandleOutput`. -/
def handleOutput (r : Sent) (hd : Handler Addr) (k : Kernel Addr) :
    Option (Handler Addr × Kernel Addr) :=
  if hd.sendbuffer = [] then some (hd, k)
  else match r, k.fds hd.eventObject with
    | .error, _ => some (hd.close k)
    | _, none => none
    | .eintr, some _ => some (hd, k)
    | .eagain added, some _ => some (hd.registerOrClose ⟨false, true⟩ added k)
    | .sent n added, some c =>
      if hd.sendbuffer.length < n then none
      else if n = 0 then some (hd.close k)
      else
        let k := { k with
          writes := k.writes ++ [⟨hd.eventObject, some c, hd.sendbuffer.take n⟩] }
        let hd := { hd with sendbuffer := hd.sendbuffer.drop n }
        if hd.sendbuffer = [] then some (hd.removeHandler ⟨false, true⟩ k)
        else some (hd.registerOrClose ⟨false, true⟩ added k)

/-- `NetMgrEventHandler::Send`. -/
def send (data : List (Conn × UInt8)) (r : Sent) (hd : Handler Addr) (k : Kernel Addr) :
    Option (Handler Addr × Kernel Addr) :=
  handleOutput r { hd with sendbuffer := hd.sendbuffer ++ data } k

/-- The read event fires. -/
def fireRead (hd : Handler Addr) : Option (Handler Addr) :=
  match hd.context with
  | some ⟨.set true, writeev⟩ => some { hd with context := some ⟨.set false, writeev⟩ }
  | _ => none

/-- The write event fires. -/
def fireWrite (hd : Handler Addr) : Option (Handler Addr) :=
  match hd.context with
  | some ⟨readev, .set true⟩ => some { hd with context := some ⟨readev, .set false⟩ }
  | _ => none

end Handler

/-! ## The I/O thread -/

structure Net (Addr : Type) where
  kernel : Kernel Addr
  handlers : List (Handler Addr)
  /-- `EventHandlerRegistry::_name2Handlers` -/
  registry : Addr → Option Conn

inductive Event (Addr : Type)
  /-- `Acceptor::HandleInput`, with what the kernel, the allocator and `event_add` give -/
  | accept (fd : Fd) (addr : Addr) (created added : Bool)
  | input (h : Conn) (r : Recv)
  | output (h : Conn) (r : Sent)
  | readTimeout (h : Conn)
  | writeTimeout (h : Conn)
  /-- a turn of `PushMsgCallBack::Call` with the result of a request, and what `Encode` makes of it
  -/
  | push (c : Conn) (addr : Addr) (encoded : Option (List UInt8)) (r : Sent)
  /-- `NetMgrEventHandler::Close` called from outside -/
  | close (h : Conn)

/-- The connection on which the request of a result arrived. -/
def Event.request {Addr : Type} : Event Addr → Option Conn
  | .push c _ _ _ => some c
  | _ => none

namespace Net

variable {Addr : Type}

/-- The start. -/
def start : Net Addr := ⟨⟨fun _ => none, [], [], []⟩, [], fun _ => none⟩

/-- The connection is open. -/
def Open (s : Net Addr) (c : Conn) : Prop :=
  ∃ hd ∈ s.handlers[c]?, s.kernel.fds hd.eventObject = some c

instance (s : Net Addr) (c : Conn) : Decidable (s.Open c) :=
  inferInstanceAs (Decidable (∃ hd ∈ s.handlers[c]?, s.kernel.fds hd.eventObject = some c))

variable [DecidableEq Addr]

/-- `Acceptor::HandleInput` with `CreateHandler`, `Open` and `DestroyHandler`. The guard closes the
descriptor on every way out but the last. -/
def accept (s : Net Addr) (fd : Fd) (addr : Addr) (created added : Bool) : Net Addr :=
  if ¬ created then s
  else
    let h := s.handlers.length
    let registry := if s.registry addr = none then update s.registry addr (some h) else s.registry
    let hd := Handler.registerHandler ⟨true, false⟩ added ⟨h, fd, addr, none, []⟩
    if ¬ added then { s with registry := update registry addr none }
    else
      { kernel := { s.kernel with fds := update s.kernel.fds fd (some h) }
        handlers := s.handlers ++ [hd]
        registry := registry }

/-- A handler runs. -/
def serve (s : Net Addr) (h : Conn)
    (f : Handler Addr → Kernel Addr → Option (Handler Addr × Kernel Addr)) : Option (Net Addr) := do
  let hd ← s.handlers[h]?
  let (hd', k') ← f hd s.kernel
  some { s with kernel := k', handlers := s.handlers.set h hd' }

def step (s : Net Addr) : Event Addr → Option (Net Addr)
  | .accept fd addr created added =>
    if s.kernel.fds fd = none then some (s.accept fd addr created added) else none
  | .input h r => s.serve h fun hd k => do (← hd.fireRead).handleInput r k
  | .output h r => s.serve h fun hd k => do (← hd.fireWrite).handleOutput r k
  | .readTimeout h => s.serve h fun hd k => do some ((← hd.fireRead).close k)
  | .writeTimeout h => s.serve h fun hd k => do some ((← hd.fireWrite).close k)
  | .push c addr encoded r =>
    if (c, addr) ∈ s.kernel.requests then
      match s.registry addr, encoded with
      | none, _ => some s
      | _, none => some s
      | some h, some [] => s.serve h fun hd k => some (hd.close k)
      | some h, some data => s.serve h fun hd k => hd.send (data.map (c, ·)) r k
    else none
  | .close h => s.serve h fun hd k => some (hd.close k)

end Net

/-! ## What a handler does -/

namespace Handler

variable {Addr : Type} {hd : Handler Addr} {k : Kernel Addr} {p : Handler Addr × Kernel Addr}

/-- It has its event data, with the read event that `Open` set. -/
def Live (hd : Handler Addr) : Prop := ∃ ed, hd.context = some ed ∧ ed.readev ≠ .zero

/-- What a handler that runs may do: write from its buffer to its descriptor, and go on or close. -/
structure Serves (hd : Handler Addr) (k : Kernel Addr) (p : Handler Addr × Kernel Addr) : Prop where
  conn : p.1.conn = hd.conn
  eventObject : p.1.eventObject = hd.eventObject
  buffer : ∀ b ∈ p.1.sendbuffer, b ∈ hd.sendbuffer
  writes : ∀ w ∈ p.2.writes,
    w ∈ k.writes ∨ (∃ c, k.fds hd.eventObject = some c ∧ w.owner = some c) ∧
      ∀ b ∈ w.bytes, b ∈ hd.sendbuffer
  ends : p.1.Live ∧ p.2.fds = k.fds ∧ p.2.closes = k.closes ∨
    p.1.context = none ∧ p.2.fds = update k.fds hd.eventObject none ∧
      p.2.closes = k.closes ++ [⟨hd.conn, hd.eventObject, k.fds hd.eventObject⟩]

theorem serves_self (h : hd.Live) : hd.Serves k (hd, k) :=
  ⟨rfl, rfl, fun _ hb => hb, fun _ hw => .inl hw, .inl ⟨h, rfl, rfl⟩⟩

theorem close_serves : hd.Serves k (hd.close k) := by
  unfold close removeHandler
  split
  · rename_i hnone
    exact ⟨rfl, rfl, fun _ hb => hb, fun _ hw => .inl hw, .inr ⟨hnone, rfl, rfl⟩⟩
  · exact ⟨rfl, rfl, fun _ hb => hb, fun _ hw => .inl hw, .inr ⟨rfl, rfl, rfl⟩⟩

theorem close_context : (hd.close k).1.context = none := by
  unfold close removeHandler
  split
  · assumption
  · rfl

theorem removeHandler_write_serves (h : hd.Live) :
    hd.Serves k (hd.removeHandler ⟨false, true⟩ k) := by
  obtain ⟨ed, hed, hread⟩ := h
  have hcontain : containEvent ⟨ed.readev, .zero⟩ = true := by
    simp [containEvent, hread]
  unfold removeHandler
  rw [hed]
  simp only [Bool.false_eq_true, if_false, if_true, hcontain]
  exact ⟨rfl, rfl, fun _ hb => hb, fun _ hw => .inl hw, .inl ⟨⟨_, rfl, hread⟩, rfl, rfl⟩⟩

theorem registerHandler_live (mask : Mask) (added : Bool) (h : hd.Live ∨ mask.read = true) :
    (hd.registerHandler mask added).Live := by
  refine ⟨_, rfl, ?_⟩
  rcases h with ⟨ed, hed, hread⟩ | hmask
  · rw [hed, Option.getD_some]
    repeat' split
    all_goals first | exact hread | simp
  · rw [hmask, if_pos rfl]
    split
    all_goals simp

theorem registerOrClose_serves (mask : Mask) (added : Bool) (h : hd.Live) :
    hd.Serves k (hd.registerOrClose mask added k) := by
  unfold registerOrClose
  split
  · exact ⟨rfl, rfl, fun _ hb => hb, fun _ hw => .inl hw,
      .inl ⟨registerHandler_live mask added (.inl h), rfl, rfl⟩⟩
  · have hclose : (hd.registerHandler mask added).Serves k _ := close_serves
    exact ⟨hclose.conn, hclose.eventObject, hclose.buffer, hclose.writes, hclose.ends⟩

theorem handleInput_serves {r : Recv} (h : hd.Live) (hi : hd.handleInput r k = some p) :
    hd.Serves k p := by
  unfold handleInput at hi
  split at hi
  · cases hi
    exact close_serves
  · cases hi
  · cases hi
    exact close_serves
  · cases hi
    exact serves_self h
  · rename_i messages extracted added c hfd
    split at hi
    · cases hi
      have hreg := registerOrClose_serves (k := { k with
        requests := k.requests ++ List.replicate messages (c, hd.peerAddr) }) ⟨true, false⟩ added h
      exact ⟨hreg.conn, hreg.eventObject, hreg.buffer, hreg.writes, hreg.ends⟩
    · cases hi
      have hclose : hd.Serves { k with
        requests := k.requests ++ List.replicate messages (c, hd.peerAddr) } _ := close_serves
      exact ⟨hclose.conn, hclose.eventObject, hclose.buffer, hclose.writes, hclose.ends⟩

/-- A handler that has written `n` bytes and goes on. -/
theorem Serves.wrote {n : Nat} {c : Conn} (hfd : k.fds hd.eventObject = some c)
    (h : Serves { hd with sendbuffer := hd.sendbuffer.drop n }
      { k with writes := k.writes ++ [⟨hd.eventObject, some c, hd.sendbuffer.take n⟩] } p) :
    hd.Serves k p := by
  refine ⟨h.conn, h.eventObject, fun b hb => List.mem_of_mem_drop (h.buffer b hb), ?_, h.ends⟩
  intro w hw
  rcases h.writes w hw with hold | ⟨howner, hbytes⟩
  · rcases List.mem_append.mp hold with hold | hnew
    · exact .inl hold
    · obtain rfl := List.mem_singleton.mp hnew
      exact .inr ⟨⟨c, hfd, rfl⟩, fun b hb => List.mem_of_mem_take hb⟩
  · exact .inr ⟨howner, fun b hb => List.mem_of_mem_drop (hbytes b hb)⟩

theorem handleOutput_serves {r : Sent} (h : hd.Live) (ho : hd.handleOutput r k = some p) :
    hd.Serves k p := by
  unfold handleOutput at ho
  split at ho
  · cases ho
    exact serves_self h
  · split at ho
    · cases ho
      exact close_serves
    · cases ho
    · cases ho
      exact serves_self h
    · cases ho
      exact registerOrClose_serves _ _ h
    · rename_i n added c hfd
      split at ho
      · cases ho
      · split at ho
        · cases ho
          exact close_serves
        · dsimp only at ho
          split at ho
          · cases ho
            exact .wrote hfd (removeHandler_write_serves h)
          · cases ho
            exact .wrote hfd (registerOrClose_serves _ _ h)

/-- On a closed descriptor there is only the error. -/
theorem handleOutput_closed {r : Sent} (ho : hd.handleOutput r k = some p)
    (hfd : k.fds hd.eventObject = none) (hne : hd.sendbuffer ≠ []) : p = hd.close k := by
  unfold handleOutput at ho
  rw [if_neg hne, hfd] at ho
  cases r with
  | error =>
    cases ho
    rfl
  | _ => cases ho

/-- What a handler that runs may do, open or not: it keeps its connection, descriptor and address,
its buffer gets shorter at the front, and it closes its descriptor number once at most. -/
structure Runs (hd : Handler Addr) (k : Kernel Addr) (p : Handler Addr × Kernel Addr) : Prop where
  frame : ∃ context n, p.1 = { hd with context := context, sendbuffer := hd.sendbuffer.drop n }
  ends : p.2.fds = k.fds ∧ p.2.closes = k.closes ∨ p.2.fds = update k.fds hd.eventObject none ∧
    p.2.closes = k.closes ++ [⟨hd.conn, hd.eventObject, k.fds hd.eventObject⟩]

theorem runs_self : hd.Runs k (hd, k) := ⟨⟨hd.context, 0, rfl⟩, .inl ⟨rfl, rfl⟩⟩

theorem removeHandler_runs (mask : Mask) : hd.Runs k (hd.removeHandler mask k) := by
  unfold removeHandler
  cases hd.context with
  | none => exact ⟨⟨hd.context, 0, rfl⟩, .inr ⟨rfl, rfl⟩⟩
  | some ed =>
    dsimp only
    generalize containEvent _ = b
    cases b with
    | true => exact ⟨⟨_, 0, rfl⟩, .inl ⟨rfl, rfl⟩⟩
    | false => exact ⟨⟨none, 0, rfl⟩, .inr ⟨rfl, rfl⟩⟩

theorem registerOrClose_runs (mask : Mask) (added : Bool) :
    hd.Runs k (hd.registerOrClose mask added k) := by
  unfold registerOrClose
  split
  · exact ⟨⟨_, 0, rfl⟩, .inl ⟨rfl, rfl⟩⟩
  · obtain ⟨⟨context, n, hp⟩, hends⟩ : (hd.registerHandler mask added).Runs k _ :=
      removeHandler_runs ⟨true, true⟩
    exact ⟨⟨context, n, hp⟩, hends⟩

theorem handleInput_runs {r : Recv} (hi : hd.handleInput r k = some p) : hd.Runs k p := by
  unfold handleInput at hi
  split at hi
  · cases hi
    exact removeHandler_runs _
  · cases hi
  · cases hi
    exact removeHandler_runs _
  · cases hi
    exact runs_self
  · rename_i messages extracted added c hfd
    split at hi
    · cases hi
      have hreg : hd.Runs { k with
          requests := k.requests ++ List.replicate messages (c, hd.peerAddr) } _ :=
        registerOrClose_runs ⟨true, false⟩ added
      exact ⟨hreg.frame, hreg.ends⟩
    · cases hi
      have hclose : hd.Runs { k with
          requests := k.requests ++ List.replicate messages (c, hd.peerAddr) } _ :=
        removeHandler_runs ⟨true, true⟩
      exact ⟨hclose.frame, hclose.ends⟩

/-- A handler that has written `n` bytes and goes on. -/
theorem Runs.wrote {n : Nat} {w : Writing}
    (h : Runs { hd with sendbuffer := hd.sendbuffer.drop n }
      { k with writes := k.writes ++ [w] } p) : hd.Runs k p := by
  obtain ⟨context, m, hp⟩ := h.frame
  refine ⟨⟨context, n + m, ?_⟩, h.ends⟩
  rw [hp]
  simp only [List.drop_drop]

theorem handleOutput_runs {r : Sent} (ho : hd.handleOutput r k = some p) : hd.Runs k p := by
  unfold handleOutput at ho
  split at ho
  · cases ho
    exact runs_self
  · split at ho
    · cases ho
      exact removeHandler_runs _
    · cases ho
    · cases ho
      exact runs_self
    · cases ho
      exact registerOrClose_runs _ _
    · rename_i n added c hfd
      split at ho
      · cases ho
      · split at ho
        · cases ho
          exact removeHandler_runs _
        · dsimp only at ho
          split at ho
          · cases ho
            exact (removeHandler_runs _).wrote
          · cases ho
            exact (registerOrClose_runs _ _).wrote

/-- An event of the handler: it has event data, and keeps the read event. -/
def Fires (fire : Handler Addr → Option (Handler Addr)) : Prop :=
  ∀ {hd hd' : Handler Addr}, fire hd = some hd' → (∃ ed, hd.context = some ed) ∧
    (hd.Live → hd'.Live ∧ ∃ ed, hd' = { hd with context := some ed })

theorem fires_fireRead : Fires (@fireRead Addr) := by
  intro hd hd' h
  unfold fireRead at h
  split at h
  · rename_i hc
    cases h
    exact ⟨⟨_, hc⟩, fun _ => ⟨⟨_, rfl, by simp⟩, _, rfl⟩⟩
  · cases h

theorem fires_fireWrite : Fires (@fireWrite Addr) := by
  intro hd hd' h
  unfold fireWrite at h
  split at h
  · rename_i readev hc
    cases h
    refine ⟨⟨_, hc⟩, ?_⟩
    rintro ⟨ed, hed, hread⟩
    rw [hc] at hed
    cases hed
    exact ⟨⟨_, rfl, hread⟩, _, rfl⟩
  · cases h

/-- The event that fires is the handler's own. -/
theorem Serves.fired {ed : EventData} (h : Serves { hd with context := some ed } k p) :
    hd.Serves k p := ⟨h.conn, h.eventObject, h.buffer, h.writes, h.ends⟩

end Handler

/-! ## What a step does -/

namespace Net

open Connections.Handler

variable {Addr : Type} {s s' : Net Addr} {e : Event Addr}

/-- The handler that a step reaches from outside: through the registry, or to close it. -/
def reached (s : Net Addr) : Event Addr → Option Conn
  | .push _ addr (some _) _ => s.registry addr
  | .close h => some h
  | _ => none

/-- The descriptor number that the handler keeps is closed. -/
def Unused (s : Net Addr) (h : Conn) : Prop :=
  ∀ hd ∈ s.handlers[h]?, s.kernel.fds hd.eventObject = none

/-- An open descriptor is that of a handler with event data, and the other way round. -/
structure Owned (s : Net Addr) : Prop where
  conn : ∀ {h : Conn} {hd : Handler Addr}, s.handlers[h]? = some hd → hd.conn = h
  table : ∀ {fd : Fd} {c : Conn}, s.kernel.fds fd = some c →
    ∃ hd, s.handlers[c]? = some hd ∧ hd.eventObject = fd
  live : ∀ {h : Conn} {hd : Handler Addr}, s.handlers[h]? = some hd →
    ∀ {ed : EventData}, hd.context = some ed →
      ed.readev ≠ .zero ∧ s.kernel.fds hd.eventObject = some h
  dead : ∀ {h : Conn} {hd : Handler Addr}, s.handlers[h]? = some hd → hd.context = none →
    s.kernel.fds hd.eventObject ≠ some h

/-- The ways a step can go. -/
inductive Moves (s : Net Addr) (e : Event Addr) : Net Addr → Prop
  | idle (registry : Addr → Option Conn) : Moves s e { s with registry := registry }
  | accepted (hd : Handler Addr) (registry : Addr → Option Conn)
      (hfree : s.kernel.fds hd.eventObject = none) (hconn : hd.conn = s.handlers.length)
      (hlive : hd.Live) (hbuffer : hd.sendbuffer = []) :
      Moves s e ⟨{ s.kernel with
        fds := update s.kernel.fds hd.eventObject (some s.handlers.length) },
        s.handlers ++ [hd], registry⟩
  | served {h : Conn} {hd : Handler Addr} (data : List (Conn × UInt8))
      {p : Handler Addr × Kernel Addr} (hhd : s.handlers[h]? = some hd)
      (hown : s.kernel.fds hd.eventObject = some h ∨
        s.reached e = some h ∧ s.kernel.fds hd.eventObject = none ∧ p.1.context = none)
      (hdata : ∀ b ∈ data, s.reached e = some h ∧ e.request = some b.1)
      (hs : Serves { hd with sendbuffer := hd.sendbuffer ++ data } s.kernel p) :
      Moves s e { s with kernel := p.2, handlers := s.handlers.set h p.1 }

theorem serve_eq {h : Conn} {f : Handler Addr → Kernel Addr → Option (Handler Addr × Kernel Addr)}
    (hs : s.serve h f = some s') : ∃ hd p, s.handlers[h]? = some hd ∧ f hd s.kernel = some p ∧
      s' = { s with kernel := p.2, handlers := s.handlers.set h p.1 } := by
  obtain ⟨hd, hhd, hs⟩ := Option.bind_eq_some_iff.mp hs
  obtain ⟨p, hp, hs⟩ := Option.bind_eq_some_iff.mp hs
  cases hs
  exact ⟨hd, p, hhd, hp, rfl⟩

theorem Owned.live_of_open (ho : s.Owned) {h : Conn} {hd : Handler Addr}
    (hhd : s.handlers[h]? = some hd) (hfd : s.kernel.fds hd.eventObject = some h) : hd.Live := by
  cases hc : hd.context with
  | none => exact absurd hfd (ho.dead hhd hc)
  | some ed => exact ⟨ed, hc, (ho.live hhd hc).1⟩

theorem Moves.own {h : Conn} {hd : Handler Addr} {p : Handler Addr × Kernel Addr}
    (hhd : s.handlers[h]? = some hd) (hfd : s.kernel.fds hd.eventObject = some h)
    (hs : hd.Serves s.kernel p) :
    Moves s e { s with kernel := p.2, handlers := s.handlers.set h p.1 } := by
  refine .served [] hhd (.inl hfd) (fun b hb => absurd hb List.not_mem_nil) ?_
  rw [List.append_nil]
  exact hs

/-- An event of the handler's own. -/
theorem Owned.fired (ho : s.Owned) {h : Conn}
    {fire : Handler Addr → Option (Handler Addr)}
    {f : Handler Addr → Kernel Addr → Option (Handler Addr × Kernel Addr)}
    (hfire : Fires fire)
    (hf : ∀ {hd : Handler Addr} {k p}, hd.Live → f hd k = some p → hd.Serves k p)
    (hs : s.serve h (fun hd k => do f (← fire hd) k) = some s') : Moves s e s' := by
  obtain ⟨hd, p, hhd, hp, rfl⟩ := serve_eq hs
  obtain ⟨hd', hfired, hp⟩ := Option.bind_eq_some_iff.mp hp
  obtain ⟨⟨ed, hed⟩, hkeep⟩ := hfire hfired
  obtain ⟨hread, hfd⟩ := ho.live hhd hed
  obtain ⟨hlive, ed', rfl⟩ := hkeep ⟨ed, hed, hread⟩
  exact .own hhd hfd (hf hlive hp).fired

/-- `Close` through the registry or from outside. -/
theorem Moves.closed {h : Conn} (hr : s.reached e = some h) (hsteady : s.Open h ∨ s.Unused h)
    (hs : s.serve h (fun hd k => some (hd.close k)) = some s') : Moves s e s' := by
  obtain ⟨hd, p, hhd, hp, rfl⟩ := serve_eq hs
  cases hp
  refine .served [] hhd ?_ (fun b hb => absurd hb List.not_mem_nil) ?_
  · rcases hsteady with ⟨hd', hhd', hfd⟩ | hunused
    · rw [hhd] at hhd'
      cases hhd'
      exact .inl hfd
    · exact .inr ⟨hr, hunused hd hhd, close_context⟩
  · rw [List.append_nil]
    exact close_serves

theorem Owned.sent (ho : s.Owned) {h c : Conn} {addr : Addr} {bytes : List UInt8} {r : Sent}
    (hr : s.reached (.push c addr (some bytes) r) = some h) (hne : bytes ≠ [])
    (hsteady : s.Open h ∨ s.Unused h)
    (hs : s.serve h (fun hd k => hd.send (bytes.map (c, ·)) r k) = some s') :
    Moves s (.push c addr (some bytes) r) s' := by
  obtain ⟨hd, p, hhd, hp, rfl⟩ := serve_eq hs
  have hdata : ∀ b ∈ bytes.map (c, ·), s.reached (.push c addr (some bytes) r) = some h ∧
      (Event.push c addr (some bytes) r).request = some b.1 := by
    intro b hb
    obtain ⟨u, -, rfl⟩ := List.mem_map.mp hb
    exact ⟨hr, rfl⟩
  rcases hsteady with ⟨hd', hhd', hfd⟩ | hunused
  · rw [hhd] at hhd'
    cases hhd'
    obtain ⟨ed, hed, hread⟩ := ho.live_of_open hhd hfd
    exact .served _ hhd (.inl hfd) hdata (handleOutput_serves ⟨ed, hed, hread⟩ hp)
  · have hfd := hunused hd hhd
    unfold send at hp
    obtain rfl := handleOutput_closed hp hfd (by simp [hne])
    exact .served _ hhd (.inr ⟨hr, hfd, close_context⟩) hdata close_serves

/-- A step that reaches no handler whose number is another connection's. -/
theorem Owned.moves [DecidableEq Addr] (ho : s.Owned)
    (hsteady : ∀ h ∈ s.reached e, s.Open h ∨ s.Unused h)
    (hs : s.step e = some s') : Moves s e s' := by
  cases e with
  | accept fd addr created added =>
    simp only [step] at hs
    split at hs
    · rename_i hfree
      cases hs
      unfold accept
      split
      · exact .idle _
      · dsimp only
        split
        · exact .idle _
        · exact .accepted (Handler.registerHandler ⟨true, false⟩ added
            ⟨s.handlers.length, fd, addr, none, []⟩) _ hfree rfl
            (registerHandler_live _ _ (.inr rfl)) rfl
    · cases hs
  | input h r => exact ho.fired fires_fireRead handleInput_serves hs
  | output h r => exact ho.fired fires_fireWrite handleOutput_serves hs
  | readTimeout h =>
    exact ho.fired (f := fun hd k => some (hd.close k)) fires_fireRead
      (fun _ hp => by cases hp; exact close_serves) hs
  | writeTimeout h =>
    exact ho.fired (f := fun hd k => some (hd.close k)) fires_fireWrite
      (fun _ hp => by cases hp; exact close_serves) hs
  | push c addr encoded r =>
    simp only [step] at hs
    split at hs
    · split at hs
      · cases hs
        exact .idle _
      · cases hs
        exact .idle _
      · rename_i h hreg
        exact .closed hreg (hsteady h hreg) hs
      · rename_i h bytes hne hreg
        exact ho.sent hreg (fun hnil => hne (by rw [hnil])) (hsteady h hreg) hs
    · cases hs
  | close h => exact .closed rfl (hsteady h rfl) hs

/-! ## Descriptors and their owners -/

theorem getElem?_set_cases {α : Type} {l : List α} {h j : Nat} {x y : α}
    (hy : (l.set h x)[j]? = some y) : j = h ∧ y = x ∨ j ≠ h ∧ l[j]? = some y := by
  rw [List.getElem?_set] at hy
  split at hy
  · rename_i heq
    split at hy
    · cases hy
      exact .inl ⟨heq.symm, rfl⟩
    · cases hy
  · rename_i hne
    exact .inr ⟨Ne.symm hne, hy⟩

theorem getElem?_append_cases {α : Type} {l : List α} {j : Nat} {x y : α}
    (hy : (l ++ [x])[j]? = some y) : j = l.length ∧ y = x ∨ j < l.length ∧ l[j]? = some y := by
  by_cases hj : j < l.length
  · rw [List.getElem?_append_left hj] at hy
    exact .inr ⟨hj, hy⟩
  · rw [List.getElem?_append_right (Nat.le_of_not_lt hj)] at hy
    obtain ⟨hlt, hy⟩ := List.getElem?_eq_some_iff.mp hy
    have : j - l.length = 0 := by simpa using hlt
    exact .inl ⟨by omega, by simpa [this] using hy.symm⟩

theorem owned_start : (start : Net Addr).Owned :=
  ⟨fun h => by simp [start] at h, fun h => by simp [start] at h, fun h => by simp [start] at h,
    fun h => by simp [start] at h⟩

/-- A handler that ran has left the descriptors of the others. -/
theorem fds_of_serves {hd : Handler Addr} {k : Kernel Addr} {p : Handler Addr × Kernel Addr}
    (hs : hd.Serves k p) {fd : Fd} {c : Conn} (h : p.2.fds fd = some c) : k.fds fd = some c := by
  rcases hs.ends with ⟨-, hfds, -⟩ | ⟨-, hfds, -⟩
  · rwa [hfds] at h
  · rw [hfds] at h
    by_cases heq : fd = hd.eventObject
    · rw [heq, update_self] at h
      cases h
    · rwa [update_of_ne heq] at h

theorem Owned.of_accepted (ho : s.Owned) (hd : Handler Addr) (registry : Addr → Option Conn)
    (hfree : s.kernel.fds hd.eventObject = none) (hconn : hd.conn = s.handlers.length)
    (hlive : hd.Live) :
    Owned ⟨{ s.kernel with fds := update s.kernel.fds hd.eventObject (some s.handlers.length) },
      s.handlers ++ [hd], registry⟩ := by
  refine ⟨?_, ?_, ?_, ?_⟩
  · intro j y hy
    rcases getElem?_append_cases hy with ⟨rfl, rfl⟩ | ⟨-, hy⟩
    · exact hconn
    · exact ho.conn hy
  · intro fd c hfd
    dsimp only at hfd ⊢
    by_cases heq : fd = hd.eventObject
    · rw [heq, update_self] at hfd
      cases hfd
      exact ⟨hd, by simp, heq.symm⟩
    · rw [update_of_ne heq] at hfd
      obtain ⟨y, hy, hyfd⟩ := ho.table hfd
      refine ⟨y, ?_, hyfd⟩
      rw [List.getElem?_append_left (List.getElem?_eq_some_iff.mp hy).1]
      exact hy
  · intro j y hy ed hed
    rcases getElem?_append_cases hy with ⟨rfl, rfl⟩ | ⟨-, hy⟩
    · obtain ⟨ed', hed', hread⟩ := hlive
      rw [hed] at hed'
      cases hed'
      exact ⟨hread, update_self ..⟩
    · obtain ⟨hread, hfd⟩ := ho.live hy hed
      refine ⟨hread, ?_⟩
      dsimp only
      rw [update_of_ne]
      · exact hfd
      · intro heq
        rw [heq, hfree] at hfd
        cases hfd
  · intro j y hy hc
    rcases getElem?_append_cases hy with ⟨rfl, rfl⟩ | ⟨hj, hy⟩
    · obtain ⟨ed', hed', -⟩ := hlive
      rw [hc] at hed'
      cases hed'
    · dsimp only
      by_cases heq : y.eventObject = hd.eventObject
      · rw [heq, update_self]
        intro hlen
        cases hlen
        exact Nat.lt_irrefl _ hj
      · rw [update_of_ne heq]
        exact ho.dead hy hc

theorem Owned.of_served (ho : s.Owned) {h : Conn} {hd hd₀ : Handler Addr}
    {p : Handler Addr × Kernel Addr} (hhd : s.handlers[h]? = some hd)
    (hs : hd₀.Serves s.kernel p)
    (hfd₀ : hd₀.eventObject = hd.eventObject) (hconn₀ : hd₀.conn = hd.conn)
    (hown : s.kernel.fds hd.eventObject = some h ∨
      s.kernel.fds hd.eventObject = none ∧ p.1.context = none) :
    Owned { s with kernel := p.2, handlers := s.handlers.set h p.1 } := by
  have hpfd : p.1.eventObject = hd.eventObject := hs.eventObject.trans hfd₀
  refine ⟨?_, ?_, ?_, ?_⟩
  · intro j y hy
    rcases getElem?_set_cases hy with ⟨rfl, rfl⟩ | ⟨-, hy⟩
    · rw [hs.conn, hconn₀, ho.conn hhd]
    · exact ho.conn hy
  · intro fd c hc
    obtain ⟨y, hy, hyfd⟩ := ho.table (fds_of_serves hs hc)
    by_cases heq : c = h
    · rw [heq, hhd] at hy
      cases hy
      refine ⟨p.1, ?_, hpfd.trans hyfd⟩
      rw [heq, List.getElem?_set_self (List.getElem?_eq_some_iff.mp hhd).1]
    · exact ⟨y, by rw [List.getElem?_set_ne (Ne.symm heq)]; exact hy, hyfd⟩
  · intro j y hy ed hed
    rcases getElem?_set_cases hy with ⟨rfl, rfl⟩ | ⟨hne, hy⟩
    · rcases hs.ends with ⟨⟨ed', hed', hread⟩, hfds, -⟩ | ⟨hc, -, -⟩
      · rw [hed] at hed'
        cases hed'
        rw [hfds, hpfd]
        rcases hown with hfd | ⟨-, hc⟩
        · exact ⟨hread, hfd⟩
        · rw [hc] at hed
          cases hed
      · rw [hc] at hed
        cases hed
    · obtain ⟨hread, hfd⟩ := ho.live hy hed
      refine ⟨hread, ?_⟩
      rcases hs.ends with ⟨-, hfds, -⟩ | ⟨-, hfds, -⟩
      · rw [hfds]
        exact hfd
      · -- the closed descriptor is not that of another handler with event data
        rw [hfds, update_of_ne]
        · exact hfd
        · intro heq
          rw [heq, hfd₀] at hfd
          rcases hown with hfd' | ⟨hfd', -⟩
          · rw [hfd'] at hfd
            cases hfd
            exact hne rfl
          · rw [hfd'] at hfd
            cases hfd
  · intro j y hy hc
    rcases getElem?_set_cases hy with ⟨rfl, rfl⟩ | ⟨-, hy⟩
    · rcases hs.ends with ⟨⟨ed', hed', -⟩, -, -⟩ | ⟨-, hfds, -⟩
      · rw [hc] at hed'
        cases hed'
      · rw [hfds, hs.eventObject, update_self]
        exact Option.some_ne_none _ |>.symm
    · exact fun hfd => ho.dead hy hc (fds_of_serves hs hfd)

theorem Owned.of_moves (ho : s.Owned) (h : Moves s e s') : s'.Owned := by
  cases h with
  | idle registry => exact ⟨ho.conn, ho.table, ho.live, ho.dead⟩
  | accepted hd registry hfree hconn hlive _ => exact ho.of_accepted hd registry hfree hconn hlive
  | served data hhd hown _ hs => exact ho.of_served hhd hs rfl rfl (hown.imp_right And.right)

/-! ## A descriptor is closed once, by its owner -/

/-- Every `::close` of a handler closed the descriptor accepted for it, which was open and its own,
and there was one at most. -/
def ClosedOnce (s : Net Addr) : Prop :=
  (∀ e ∈ s.kernel.closes, e.owner = some e.handler ∧
    ∃ hd, s.handlers[e.handler]? = some hd ∧ hd.eventObject = e.fd) ∧
  (s.kernel.closes.map Closing.handler).Nodup

/-- The condition on a run: a handler reached through the registry, or closed from outside, is that
of an open connection. -/
def OnlyOpen (s : Net Addr) (e : Event Addr) : Prop := ∀ h ∈ s.reached e, s.Open h

instance (s : Net Addr) (e : Event Addr) : Decidable (s.OnlyOpen e) :=
  inferInstanceAs (Decidable (∀ h ∈ s.reached e, s.Open h))

/-- What holds along the run: a handler that has closed has no event data. -/
structure Closed (s : Net Addr) : Prop where
  owned : s.Owned
  owner : ∀ e ∈ s.kernel.closes, e.owner = some e.handler ∧
    ∃ hd, s.handlers[e.handler]? = some hd ∧ hd.eventObject = e.fd ∧ hd.context = none
  nodup : (s.kernel.closes.map Closing.handler).Nodup

theorem Closed.of_served (hc : s.Closed) {h : Conn} {hd hd₀ : Handler Addr}
    {p : Handler Addr × Kernel Addr} (hhd : s.handlers[h]? = some hd)
    (hs : hd₀.Serves s.kernel p)
    (hfd₀ : hd₀.eventObject = hd.eventObject) (hconn₀ : hd₀.conn = hd.conn)
    (hfd : s.kernel.fds hd.eventObject = some h) :
    Closed { s with kernel := p.2, handlers := s.handlers.set h p.1 } := by
  have hself : (s.handlers.set h p.1)[h]? = some p.1 :=
    List.getElem?_set_self (List.getElem?_eq_some_iff.mp hhd).1
  have hpfd : p.1.eventObject = hd.eventObject := hs.eventObject.trans hfd₀
  -- the handler that runs has not closed yet
  have hnew : ∀ e ∈ s.kernel.closes, e.handler ≠ h := by
    intro e he heq
    obtain ⟨-, hd', hhd', -, hnone⟩ := hc.owner e he
    rw [heq, hhd] at hhd'
    cases hhd'
    exact hc.owned.dead hhd hnone hfd
  have hold : ∀ e ∈ s.kernel.closes, e.owner = some e.handler ∧
      ∃ hd, (s.handlers.set h p.1)[e.handler]? = some hd ∧ hd.eventObject = e.fd ∧
        hd.context = none := by
    intro e he
    obtain ⟨howner, hd', hhd', hrest⟩ := hc.owner e he
    refine ⟨howner, hd', ?_, hrest⟩
    rw [List.getElem?_set_ne (Ne.symm (hnew e he))]
    exact hhd'
  refine ⟨hc.owned.of_served hhd hs hfd₀ hconn₀ (.inl hfd), ?_, ?_⟩
  · rcases hs.ends with ⟨-, -, hcloses⟩ | ⟨hnone, -, hcloses⟩
    · rw [hcloses]
      exact hold
    · rw [hcloses]
      intro e he
      rcases List.mem_append.mp he with he | he
      · exact hold e he
      · obtain rfl := List.mem_singleton.mp he
        rw [hfd₀, hconn₀, hc.owned.conn hhd]
        exact ⟨hfd, p.1, hself, hpfd, hnone⟩
  · rcases hs.ends with ⟨-, -, hcloses⟩ | ⟨-, -, hcloses⟩
    · rw [hcloses]
      exact hc.nodup
    · rw [hcloses, List.map_append, List.map_singleton, hconn₀, hc.owned.conn hhd]
      refine List.nodup_append.mpr ⟨hc.nodup, by simp, ?_⟩
      intro a ha b hb
      obtain ⟨e, he, rfl⟩ := List.mem_map.mp ha
      obtain rfl := List.mem_singleton.mp hb
      exact hnew e he

theorem Closed.step [DecidableEq Addr] (hc : s.Closed) (hg : s.OnlyOpen e)
    (hs : s.step e = some s') : s'.Closed := by
  cases hc.owned.moves (fun h hr => .inl (hg h hr)) hs with
  | idle registry =>
    exact ⟨hc.owned.of_moves (.idle (e := e) registry), hc.owner, hc.nodup⟩
  | accepted hd registry hfree hconn hlive _ =>
    refine ⟨hc.owned.of_accepted hd registry hfree hconn hlive, ?_, hc.nodup⟩
    intro e he
    obtain ⟨howner, hd', hhd', hrest⟩ := hc.owner e he
    refine ⟨howner, hd', ?_, hrest⟩
    dsimp only
    rw [List.getElem?_append_left (List.getElem?_eq_some_iff.mp hhd').1]
    exact hhd'
  | @served h hd data p hhd hown _ hserves =>
    refine hc.of_served hhd hserves rfl rfl ?_
    rcases hown with hfd | ⟨hr, hfd, -⟩
    · exact hfd
    · obtain ⟨hd', hhd', hfd'⟩ := hg h hr
      rw [hhd] at hhd'
      cases hhd'
      rw [hfd] at hfd'
      cases hfd'

/-- **A descriptor is closed once and by its owner** in a run in which the registry and `Close`
reach only handlers of open connections. -/
theorem closed_once [DecidableEq Addr] {s : Net Addr}
    (h : Machine.Reach Net.step OnlyOpen start s) : s.ClosedOnce := by
  have hclosed : s.Closed :=
    h.inv (I := Closed) ⟨owned_start, fun _ h => absurd h List.not_mem_nil, List.nodup_nil⟩
      Closed.step
  refine ⟨fun e he => ?_, hclosed.nodup⟩
  obtain ⟨howner, hd, hhd, hfd, -⟩ := hclosed.owner e he
  exact ⟨howner, hd, hhd, hfd⟩

/-- A peer sends a request and disconnects, its descriptor is given to another connection, and then
its result comes. -/
def reused : List (Event Nat) :=
  [.accept 5 80 true true, .input 0 (.received 1 true true), .input 0 .closed,
    .accept 5 81 true true, .push 0 80 (some [7]) (.sent 1 true)]

/-- `Send` goes to the other connection, and `RemoveHandler` finds no event data and closes its
descriptor. -/
theorem not_closed_once : ¬ ∀ s : Net Nat,
    Machine.Reach Net.step Machine.free start s → s.ClosedOnce := by
  intro h
  obtain ⟨howner, -⟩ := h _ (Machine.reach_of_run reused rfl)
  exact absurd (howner ⟨0, 5, some 1⟩ (by decide)).1 (by decide)

/-- The descriptor is used again after the results of the first connection are sent. -/
def inTurn : List (Event Nat) :=
  [.accept 5 80 true true, .input 0 (.received 1 true true), .push 0 80 (some [7]) (.sent 1 true),
    .input 0 .closed, .accept 5 81 true true, .input 1 (.received 1 true true),
    .push 1 81 (some [8, 9]) (.sent 1 true), .output 1 (.sent 1 true), .readTimeout 1]

theorem closed_once_two : ∃ s : Net Nat, s.ClosedOnce ∧
    s.kernel.closes = [⟨0, 5, some 0⟩, ⟨1, 5, some 1⟩] :=
  ⟨_, closed_once (Machine.Reach.init.run (fun _ _ => of_decide_eq_true) inTurn rfl), rfl⟩

/-! ## Results go to the connection of their request -/

/-- A byte of a result was written only to the connection on which its request arrived, which had
the descriptor. -/
def Routed (s : Net Addr) : Prop := ∀ w ∈ s.kernel.writes, ∀ b ∈ w.bytes, w.owner = some b.1

/-- The condition on a run: the handler that the registry has for the address of a result is the one
created for the connection of its request, and no other connection has its descriptor number. -/
def Unshared (s : Net Addr) (e : Event Addr) : Prop :=
  ∀ h ∈ s.reached e, (s.Open h ∨ s.Unused h) ∧ ∀ c ∈ e.request, h = c

instance (s : Net Addr) (e : Event Addr) : Decidable (s.Unshared e) :=
  inferInstanceAs (Decidable (∀ h ∈ s.reached e,
    (s.Open h ∨ ∀ hd ∈ s.handlers[h]?, s.kernel.fds hd.eventObject = none) ∧
      ∀ c ∈ e.request, h = c))

/-- What holds along the run: a handler's buffer has bytes for its connection. -/
structure Routes (s : Net Addr) : Prop where
  owned : s.Owned
  buffer : ∀ {h : Conn} {hd : Handler Addr}, s.handlers[h]? = some hd → ∀ b ∈ hd.sendbuffer, b.1 = h
  writes : s.Routed

theorem Routes.of_served (hr : s.Routes) {h : Conn} {hd : Handler Addr}
    {data : List (Conn × UInt8)} {p : Handler Addr × Kernel Addr} (hhd : s.handlers[h]? = some hd)
    (hs : Serves { hd with sendbuffer := hd.sendbuffer ++ data } s.kernel p)
    (hown : s.kernel.fds hd.eventObject = some h ∨
      s.kernel.fds hd.eventObject = none ∧ p.1.context = none)
    (hdata : ∀ b ∈ data, b.1 = h) :
    Routes { s with kernel := p.2, handlers := s.handlers.set h p.1 } := by
  have hbuffer : ∀ b ∈ hd.sendbuffer ++ data, b.1 = h := by
    intro b hb
    rcases List.mem_append.mp hb with hb | hb
    · exact hr.buffer hhd b hb
    · exact hdata b hb
  refine ⟨hr.owned.of_served hhd hs rfl rfl hown, ?_, ?_⟩
  · intro j y hy b hb
    rcases getElem?_set_cases hy with ⟨rfl, rfl⟩ | ⟨-, hy⟩
    · exact hbuffer b (hs.buffer b hb)
    · exact hr.buffer hy b hb
  · intro w hw b hb
    rcases hs.writes w hw with hold | ⟨⟨c, hc, howner⟩, hbytes⟩
    · exact hr.writes w hold b hb
    · rw [howner, hbuffer b (hbytes b hb), ← hc]
      -- a write needs an open descriptor, so it is the connection's own
      rcases hown with hfd | ⟨hfd, -⟩
      · exact hfd
      · rw [hfd] at hc
        cases hc

theorem Routes.step [DecidableEq Addr] (hr : s.Routes) (hg : s.Unshared e)
    (hs : s.step e = some s') : s'.Routes := by
  cases hr.owned.moves (fun h hreach => (hg h hreach).1) hs with
  | idle registry =>
    exact ⟨hr.owned.of_moves (.idle (e := e) registry), hr.buffer, hr.writes⟩
  | accepted hd registry hfree hconn hlive hbuffer =>
    refine ⟨hr.owned.of_accepted hd registry hfree hconn hlive, ?_, hr.writes⟩
    intro j y hy b hb
    rcases getElem?_append_cases hy with ⟨rfl, rfl⟩ | ⟨-, hy⟩
    · rw [hbuffer] at hb
      exact absurd hb List.not_mem_nil
    · exact hr.buffer hy b hb
  | @served h hd data p hhd hown hdata hserves =>
    refine hr.of_served hhd hserves (hown.imp_right And.right) ?_
    intro b hb
    obtain ⟨hreach, he⟩ := hdata b hb
    exact ((hg h hreach).2 _ he).symm

/-- **A result is written to the connection of its request**, and not at all when that is closed, in
a run in which no result finds a handler of another connection or a descriptor number that another
connection has. -/
theorem routed [DecidableEq Addr] {s : Net Addr} (h : Machine.Reach Net.step Unshared start s) :
    s.Routed :=
  (h.inv (I := Routes) ⟨owned_start, fun h => by simp [start] at h,
    fun _ h => absurd h List.not_mem_nil⟩ Routes.step).writes

/-- The result of the first connection is written to the other. -/
theorem not_routed : ¬ ∀ s : Net Nat,
    Machine.Reach Net.step Machine.free start s → s.Routed := by
  intro h
  have hwritten := h _ (Machine.reach_of_run reused rfl) ⟨5, some 1, [(0, 7)]⟩ (by decide) (0, 7)
    (by decide)
  exact absurd hwritten (by decide)

theorem routed_two : ∃ s : Net Nat, s.Routed ∧ s.kernel.writes =
    [⟨5, some 0, [(0, 7)]⟩, ⟨5, some 1, [(1, 8)]⟩, ⟨5, some 1, [(1, 9)]⟩] :=
  ⟨_, routed (Machine.Reach.init.run (fun _ _ => of_decide_eq_true) inTurn rfl), rfl⟩

end Net

end Domq.Netmgr.Connections

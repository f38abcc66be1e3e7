import Domq.Base.MemBlock
import Domq.Netmgr.Connections

/-!
# Sending

`NetMgrEventHandler::Send` appends to `_sendbuffer` and calls `HandleOutput`, which hands the buffer
to `::send` and takes off the front what the socket has accepted (`eventhandler.cpp`). When some is
left, `HandleOutput` is called again by the write event.

* The number of bytes that `::send` has taken is stored in an `int`.
* `errno` and what `event_add` answers are part of an event. When `event_add` fails the handler is
  closed; a closed handler is not sent to here.
* An undefined step (`Copy` from before the block) has no result.
* `accepted` and `passed` are history: what the socket has taken, and what was passed to `Send`.

Results: `bytes_conserved`: in every run whose counts fit an `int`, what the socket has taken and
what is buffered is what was passed to `Send`; `handleOutput_refines`: the buffer of bytes in
`Domq.Netmgr.Connections` is the contents of this one.
-/

namespace Domq.Netmgr.Output

open Domq.Lib Domq.Base

inductive Errno
  | eintr | eagain | other
  deriving DecidableEq

/-- What the kernel contributes to `HandleOutput`: the bytes `::send` has taken (`none` when it
fails), `errno`, and what `event_add` answers. -/
structure Answer where
  taken : Option Nat
  errno : Errno
  added : Bool

/-- The `int` that `HandleOutput` has of `::send`. -/
def Answer.ret (a : Answer) : Int32 :=
  match a.taken with
  | none => -1
  | some n => Int32.ofNat n

/-- `NetMgrEventHandler`, as far as sending goes. -/
structure Handler where
  sendbuffer : MemBlock
  accepted : Bytes
  passed : Bytes
  closed : Bool

/-- A handler after `Open`, which clears the buffer. -/
def Handler.opened (m : MemBlock) : Handler := ⟨m.clear, [], [], false⟩

namespace Handler

/-- `RegisterHandler(WriteMask)`, and `Close` when that fails. -/
def registerOrClose (added : Bool) (h : Handler) : Handler := { h with closed := !added }

/-- Takes `ret` bytes off the front of the buffer. The result of `Copy` is not looked at. -/
def shift (ret : Nat) (m : MemBlock) : MemBlock :=
  if ret = m.size then m.clear
  else
    let m' := (m.copy 0 ret (m.size - ret)).getD m
    m'.resize (m'.size - ret)

/-- `HandleOutput` after `::send`. `RemoveHandler(WriteMask)` leaves the read event of an open
handler, so nothing else happens when all is sent. -/
def sent (a : Answer) (h : Handler) : Option Handler :=
  if a.ret = 0 then some { h with closed := true }
  else if a.ret = -1 then
    match a.errno with
    | .eintr => some h
    | .eagain => some (h.registerOrClose a.added)
    | .other => some { h with closed := true }
  else if a.ret < 0 then none
  else
    let buffer := shift a.ret.toInt.toNat h.sendbuffer
    if buffer.size = 0 then some { h with sendbuffer := buffer }
    else some ({ h with sendbuffer := buffer }.registerOrClose a.added)

/-- `HandleOutput`; `none` also when `::send` does not answer so. -/
def handleOutput (a : Answer) (h : Handler) : Option Handler :=
  if h.sendbuffer.size ≤ 0 then some h
  else
    match a.taken with
    | none => h.sent a
    | some n =>
      if 1 ≤ n ∧ n ≤ h.sendbuffer.size then
        { h with accepted := h.accepted ++ h.sendbuffer.data.take n }.sent a
      else none

/-- `Send`. The result of `Append` is not looked at. -/
def send (data : Bytes) (a : Answer) (h : Handler) : Option Handler :=
  { h with
    sendbuffer := (h.sendbuffer.append data).getD h.sendbuffer
    passed := h.passed ++ data }.handleOutput a

end Handler

inductive Event
  | send (data : Bytes) (a : Answer)
  | output (a : Answer)

def Event.answer : Event → Answer
  | .send _ a => a
  | .output a => a

/-- An event of an open handler. -/
def step (h : Handler) (e : Event) : Option Handler :=
  if h.closed then none
  else
    match e with
    | .send data a => h.send data a
    | .output a => h.handleOutput a

/-- What the socket has taken, with the buffer behind, is all that was passed to `Send`. -/
def Conserved (h : Handler) : Prop := h.accepted ++ h.sendbuffer.data = h.passed

/-- The count of `::send` fits an `int`. -/
def FitsInt (_ : Handler) (e : Event) : Prop := ∀ n ∈ e.answer.taken, n < 2 ^ 31

/-! ## Conservation -/

namespace Handler

variable {h h' : Handler} {a : Answer}

theorem data_shift {ret : Nat} {m : MemBlock} (hle : ret ≤ m.size) :
    (shift ret m).data = m.data.drop ret := by
  unfold shift
  split
  · rename_i heq
    rw [heq, ← m.length_data, List.drop_length]
    rfl
  · obtain ⟨m', hcopy, hdata⟩ := MemBlock.data_shift hle
    rw [hcopy, Option.getD_some, hdata]

/-- What `HandleOutput` does to the buffer, the count of `::send` being an `int`. -/
theorem sendbuffer_sent (hfit : ∀ n ∈ a.taken, n < 2 ^ 31 ∧ 1 ≤ n ∧ n ≤ h.sendbuffer.size)
    (hs : h.sent a = some h') :
    h'.sendbuffer.data = h.sendbuffer.data.drop (a.taken.getD 0) ∧
      h'.accepted = h.accepted ∧ h'.passed = h.passed := by
  cases ht : a.taken with
  | none =>
    have hret : a.ret = -1 := by rw [Answer.ret, ht]
    unfold sent at hs
    rw [if_neg (by rw [hret]; decide), if_pos hret] at hs
    split at hs
    · cases hs
      exact ⟨rfl, rfl, rfl⟩
    · cases hs
      exact ⟨rfl, rfl, rfl⟩
    · cases hs
      exact ⟨rfl, rfl, rfl⟩
  | some n =>
    obtain ⟨hlt, hpos, hle⟩ := hfit n ht
    have hret : a.ret.toInt = n := by
      rw [Answer.ret, ht]
      exact Int32.toInt_ofNat_of_lt hlt
    have hzero : a.ret ≠ 0 := by
      intro h0
      rw [h0] at hret
      have : (0 : Int32).toInt = 0 := rfl
      omega
    have hneg : a.ret ≠ -1 := by
      intro h1
      rw [h1] at hret
      have : (-1 : Int32).toInt = -1 := rfl
      omega
    have hsign : ¬ a.ret < 0 := by
      rw [Int32.lt_iff_toInt_lt, hret]
      have : (0 : Int32).toInt = 0 := rfl
      omega
    have hbuf : (shift a.ret.toInt.toNat h.sendbuffer).data = h.sendbuffer.data.drop n := by
      rw [hret, Int.toNat_natCast, data_shift hle]
    unfold sent at hs
    rw [if_neg hzero, if_neg hneg, if_neg hsign] at hs
    dsimp only at hs
    split at hs
    · cases hs
      exact ⟨hbuf, rfl, rfl⟩
    · cases hs
      exact ⟨hbuf, rfl, rfl⟩

theorem conserved_handleOutput (hc : Conserved h) (hfit : ∀ n ∈ a.taken, n < 2 ^ 31)
    (ho : h.handleOutput a = some h') : Conserved h' := by
  unfold handleOutput at ho
  split at ho
  · cases ho
    exact hc
  · split at ho
    · rename_i hnone
      obtain ⟨hbuf, hacc, hpass⟩ := sendbuffer_sent (by simp [hnone]) ho
      rw [hnone, Option.getD_none, List.drop_zero] at hbuf
      unfold Conserved
      rw [hbuf, hacc, hpass]
      exact hc
    · rename_i n hsome
      split at ho
      · rename_i hn
        obtain ⟨hbuf, hacc, hpass⟩ := sendbuffer_sent (h := { h with
          accepted := h.accepted ++ h.sendbuffer.data.take n }) (by
            intro n' hn'
            rw [hsome] at hn'
            cases hn'
            exact ⟨hfit n hsome, hn⟩) ho
        rw [hsome, Option.getD_some] at hbuf
        unfold Conserved
        rw [hbuf, hacc, hpass, List.append_assoc, List.take_append_drop]
        exact hc
      · cases ho

theorem conserved_send {data : Bytes} (hc : Conserved h) (hfit : ∀ n ∈ a.taken, n < 2 ^ 31)
    (hs : h.send data a = some h') : Conserved h' := by
  refine conserved_handleOutput ?_ hfit hs
  obtain ⟨m', happ, hdata⟩ := h.sendbuffer.data_append data
  show h.accepted ++ ((h.sendbuffer.append data).getD h.sendbuffer).data = h.passed ++ data
  rw [happ, Option.getD_some, hdata, ← List.append_assoc, hc]

end Handler

/-- One event. -/
theorem Conserved.step {h h' : Handler} {e : Event} (hc : Conserved h) (hfit : FitsInt h e)
    (hs : Output.step h e = some h') : Conserved h' := by
  unfold Output.step at hs
  split at hs
  · cases hs
  · cases e with
    | send data a => exact Handler.conserved_send hc hfit hs
    | output a => exact Handler.conserved_handleOutput hc hfit hs

/-- **No byte is lost, repeated or moved.** As long as the counts of `::send` fit an `int`, the
bytes that the socket has taken, followed by those in the buffer, are the bytes passed to `Send`. -/
theorem bytes_conserved {m : MemBlock} {h : Handler}
    (hr : Machine.Reach step FitsInt (Handler.opened m) h) : Conserved h := by
  refine hr.inv ?_ fun hc hfit hs => hc.step hfit hs
  rfl

/-- Three bytes are sent, the socket takes two of them, and later the third. -/
theorem bytes_conserved_partial : ∃ h,
    Machine.Reach step FitsInt (Handler.opened (MemBlock.new 1)) h ∧
      Conserved h ∧ h.accepted = [7, 8, 9] ∧ h.passed = [7, 8, 9] := by
  have hrun : ∃ h, Machine.run step (fun _ e => e.answer.taken.all (· < 2 ^ 31))
      [.send [7, 8, 9] ⟨some 2, .other, true⟩, .output ⟨some 1, .other, true⟩]
      (Handler.opened (MemBlock.new 1)) = some h ∧ h.accepted = [7, 8, 9] ∧ h.passed = [7, 8, 9] :=
    ⟨_, rfl, rfl, rfl⟩
  obtain ⟨h, hrun, hacc, hpass⟩ := hrun
  have hr : Machine.Reach step FitsInt (Handler.opened (MemBlock.new 1)) h :=
    Machine.Reach.init.run (fun s e hok n hn => by
      have htaken : e.answer.taken = some n := hn
      rw [htaken] at hok
      simpa using hok) _ hrun
  exact ⟨h, hr, bytes_conserved hr, hacc, hpass⟩

/-- `Send` of `2 ^ 32` bytes, all of which the socket takes: the `int` is `0`, so the handler is
closed with its buffer full. -/
theorem send_wraps {m : MemBlock} {data : Bytes} (hlen : data.length = 2 ^ 32) :
    ∃ h, step (Handler.opened m) (.send data ⟨some (2 ^ 32), .other, true⟩) = some h ∧
      h.accepted = data ∧ h.sendbuffer.data = data ∧ h.passed = data := by
  obtain ⟨m', happ, hdata⟩ := m.clear.data_append data
  have hdata' : m'.data = data := hdata.trans (List.nil_append _)
  have hsize : m'.size = 2 ^ 32 := by rw [← m'.length_data, hdata', hlen]
  have hret : (⟨some (2 ^ 32), .other, true⟩ : Answer).ret = 0 := rfl
  refine ⟨⟨m', [] ++ m'.data.take (2 ^ 32), [] ++ data, true⟩, ?_, ?_, hdata', List.nil_append _⟩
  · rw [step, Handler.opened, if_neg Bool.false_ne_true]
    simp only [Handler.send, happ, Option.getD_some]
    unfold Handler.handleOutput
    rw [if_neg (by rw [hsize]; decide)]
    simp only [hsize, Nat.le_refl, and_true]
    rw [if_pos (by decide)]
    unfold Handler.sent
    rw [if_pos hret]
  · rw [List.nil_append, List.take_of_length_le (by rw [m'.length_data, hsize]), hdata']

/-- In general the law fails. -/
theorem not_bytes_conserved :
    ¬ ∀ (m : MemBlock) (h : Handler),
      Machine.Reach step Machine.free (Handler.opened m) h → Conserved h := by
  intro hall
  have hlen : (List.replicate (2 ^ 32) (0 : UInt8)).length = 2 ^ 32 := List.length_replicate
  generalize List.replicate (2 ^ 32) (0 : UInt8) = data at hlen
  obtain ⟨h, hs, hacc, hbuf, hpass⟩ := send_wraps (m := MemBlock.new 1024) hlen
  have hc : Conserved h := hall _ h (.step _ .init trivial hs)
  unfold Conserved at hc
  rw [hacc, hbuf, hpass] at hc
  have hl := congrArg List.length hc
  rw [List.length_append, hlen] at hl
  omega

/-! ## The buffer of the connections -/

section

variable {Addr : Type}

open Connections

theorem removeHandler_sendbuffer (mask : Mask) (hd : Connections.Handler Addr) (k : Kernel Addr) :
    (hd.removeHandler mask k).1.sendbuffer = hd.sendbuffer := by
  unfold Connections.Handler.removeHandler
  cases hd.context with
  | none => rfl
  | some ed =>
    simp only
    generalize containEvent _ = b
    cases b with
    | true => rfl
    | false => rfl

theorem registerOrClose_sendbuffer (mask : Mask) (added : Bool) (hd : Connections.Handler Addr)
    (k : Kernel Addr) : (hd.registerOrClose mask added k).1.sendbuffer = hd.sendbuffer := by
  unfold Connections.Handler.registerOrClose
  split
  · rfl
  · exact removeHandler_sendbuffer _ _ k

/-- The answer of the kernel to a handler of `Domq.Netmgr.Connections`. -/
def toAnswer : Sent → Answer
  | .sent n added => ⟨some n, .other, added⟩
  | .eintr => ⟨none, .eintr, true⟩
  | .eagain added => ⟨none, .eagain, added⟩
  | .error => ⟨none, .other, true⟩

/-- **The buffer of bytes in `Domq.Netmgr.Connections`** is the contents of `_sendbuffer`, and stays
so. -/
theorem handleOutput_refines {r : Sent} {hd : Connections.Handler Addr} {k : Kernel Addr}
    {p : Connections.Handler Addr × Kernel Addr} {h h' : Handler}
    (hbuf : hd.sendbuffer.map Prod.snd = h.sendbuffer.data)
    (hfit : ∀ n ∈ (toAnswer r).taken, n < 2 ^ 31) (ho : hd.handleOutput r k = some p)
    (ho' : h.handleOutput (toAnswer r) = some h') :
    p.1.sendbuffer.map Prod.snd = h'.sendbuffer.data := by
  have hlen : hd.sendbuffer.length = h.sendbuffer.size := by
    rw [← h.sendbuffer.length_data, ← hbuf, List.length_map]
  unfold Connections.Handler.handleOutput at ho
  unfold Handler.handleOutput at ho'
  by_cases hempty : hd.sendbuffer = []
  · rw [if_pos hempty] at ho
    rw [if_pos (by rw [← hlen, hempty]; exact Nat.le_refl _)] at ho'
    cases ho
    cases ho'
    exact hbuf
  · rw [if_neg hempty] at ho
    rw [if_neg (by
      rw [← hlen]
      exact fun hle => hempty (List.length_eq_zero_iff.mp (Nat.le_zero.mp hle)))] at ho'
    cases r with
    | sent n added =>
      simp only [toAnswer] at ho'
      split at ho'
      · rename_i hn
        obtain ⟨hbuf', -, -⟩ := Handler.sendbuffer_sent (by
          intro n' hn'
          cases hn'
          exact ⟨hfit n rfl, hn⟩) ho'
        rw [hbuf']
        show _ = h.sendbuffer.data.drop n
        rw [← hbuf, ← List.map_drop]
        cases hfd : k.fds hd.eventObject with
        | none =>
          simp only [hfd] at ho
          cases ho
        | some c =>
          simp only [hfd] at ho
          rw [if_neg (by omega), if_neg (by omega)] at ho
          split at ho
          · cases ho
            rw [removeHandler_sendbuffer]
          · cases ho
            rw [registerOrClose_sendbuffer]
      · cases ho'
    | eintr =>
      obtain ⟨hbuf', -, -⟩ := Handler.sendbuffer_sent (by simp [toAnswer]) ho'
      cases hfd : k.fds hd.eventObject with
      | none =>
        simp only [hfd] at ho
        cases ho
      | some c =>
        simp only [hfd] at ho
        cases ho
        exact hbuf.trans hbuf'.symm
    | eagain added =>
      obtain ⟨hbuf', -, -⟩ := Handler.sendbuffer_sent (by simp [toAnswer]) ho'
      cases hfd : k.fds hd.eventObject with
      | none =>
        simp only [hfd] at ho
        cases ho
      | some c =>
        simp only [hfd] at ho
        cases ho
        rw [registerOrClose_sendbuffer]
        exact hbuf.trans hbuf'.symm
    | error =>
      obtain ⟨hbuf', -, -⟩ := Handler.sendbuffer_sent (by simp [toAnswer]) ho'
      cases ho
      show (hd.close k).1.sendbuffer.map Prod.snd = _
      rw [Connections.Handler.close, removeHandler_sendbuffer]
      exact hbuf.trans hbuf'.symm

end

end Domq.Netmgr.Output

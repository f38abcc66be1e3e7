import Domq.Lib.Machine
import Domq.Mq.Admin
import Mathlib.Logic.Function.Basic

/-!
# The process manager and its child

Model of `MsgQueueProcessManager` (`processcontrol.cpp`) with the kernel's table of its children,
and of the two ways out of the loop of `QueueProcessor::Run`, the control socket and an admin line.
The manager forks one child, forks another when the child is dead, and on `SIGINT` sends it the word
`stop` and waits for it.

* The actions of the manager are its system calls, and a child may end at any time, whatever ends
  it. A pid is not given again while its process has not been waited for.
* `kill(-1, 0)` fails with `ESRCH` only where there is no other process, so that `waitpid` decides.
* A `recv` takes what the socket pair holds, at most the 256 bytes of its buffer. A `send` fails
  when nobody has the other end, and may fail or take a part at any time.
* Two assumptions are on what is outside. `socketpair` succeeds: after a failure `Create` logs it
  and goes on with two descriptors that were never set, and what that does is anything. And nothing
  ends the manager but the end of `main`: it handles `SIGINT` only, and a `SIGTERM` would leave its
  child.
* `_fd` is not sent to before it is set. A `SIGINT` before the child has installed its handlers sets
  the `_stop` of the child's copy, which nothing reads there.
* `sent`, `forks` and `late` are history: the bytes sent, the children created, and those created
  although `_stop` was set.

Results: `supervised`: there is at most one child, and none is left behind; `shutdown`: the control
socket stops a child only when it has been told to, and never one that has read a part of the word,
for which the manager then waits.
-/

namespace Domq.Mq.Supervisor

open Domq.Lib Function

abbrev Pid := Nat

/-! ## The processes -/

/-- The word that stops a child. -/
def STOP : Bytes := ascii "stop"

/-- The size of the buffer for control messages. -/
def BUFFER : Nat := 256

/-- What a child is doing: `Open`, the loop of `Run`, what comes after it (the word has `stopped`
it, or it has `left` on a line), or nothing any more. -/
inductive Life
  | opening | running | stopped | left | zombie
deriving DecidableEq

structure Child where
  pid : Pid
  /-- its socket pair -/
  controlFd : Nat
  life : Life
deriving DecidableEq

/-- Where the manager is: in its loop, in `Uninit`, or at the end of `main`. -/
inductive Phase
  | check | create | sleep
  | send (rest : Bytes)
  | wait | exited
deriving DecidableEq

structure Host where
  phase : Phase
  stop : Bool
  /-- `none` is `-1` -/
  childPid : Option Pid
  /-- the socket pair `_fd` belongs to, when it is set -/
  fd : Option Nat
  /-- the children that have not been waited for -/
  children : List Child
  /-- the socket pairs made so far -/
  pairs : Nat
  /-- what a child has not read of its pair -/
  inbox : Nat → Bytes
  /-- the pairs whose end in the manager is open -/
  descriptors : List Nat
  sent : Bytes
  forks : Nat
  late : Nat

namespace Host

/-- `Run` is called. -/
def boot : Host := ⟨.check, false, none, none, [], 0, fun _ => [], [], [], 0, 0⟩

/-! ## The manager -/

/-- The first child that can be waited for. -/
def zombie? (children : List Child) : Option Child := children.find? fun c => c.life = .zombie

/-- `ChildDead`, and the children that are left. `other` says whether a process that is no child has
this pid. -/
def childDead (other : Bool) (pid : Option Pid) (children : List Child) : Bool × List Child :=
  match pid with
  | none =>
    match zombie? children with
    | some c => (false, children.erase c)
    | none => (children.isEmpty, children)
  | some p =>
    match children.find? fun c => c.pid = p with
    | some c => if c.life = .zombie then (true, children.erase c) else (false, children)
    | none => (!other, children)

/-- `Create`, where `socketpair` has succeeded; `forked` is what `fork` returns. -/
def create (forked : Option Pid) (s : Host) : Option Host :=
  match forked with
  | none => some { s with phase := .sleep, childPid := none, pairs := s.pairs + 1 }
  | some p =>
    if p ∈ s.children.map Child.pid then none
    else some { s with
      phase := .sleep
      childPid := some p
      fd := some s.pairs
      children := ⟨p, s.pairs, .opening⟩ :: s.children
      pairs := s.pairs + 1
      descriptors := s.pairs :: s.descriptors
      forks := s.forks + 1
      late := if s.stop then s.late + 1 else s.late }

/-- What `::send` answers. -/
inductive Sent
  | sent (n : Nat)
  | eintr
  | error

/-- Somebody has the other end of the pair. -/
def Connected (s : Host) (k : Nat) : Prop := ∃ c ∈ s.children, c.controlFd = k ∧ c.life ≠ .zombie

instance (s : Host) (k : Nat) : Decidable (s.Connected k) :=
  inferInstanceAs (Decidable (∃ c ∈ _, _))

/-- One turn of the loop of `SendMsg`, with `rest` left to send. -/
def send (rest : Bytes) (r : Sent) (s : Host) : Option Host :=
  match r, s.fd with
  | .eintr, _ => some s
  | .error, _ => some { s with phase := .wait }
  | .sent _, none => none
  | .sent n, some k =>
    if 0 < n ∧ n ≤ rest.length ∧ s.Connected k then
      some { s with
        inbox := update s.inbox k (s.inbox k ++ rest.take n)
        sent := s.sent ++ rest.take n
        phase := if rest.drop n = [] then .wait else .send (rest.drop n) }
    else none

/-- `::wait(NULL)` in `Uninit`. -/
def wait (s : Host) : Option Host :=
  match zombie? s.children with
  | some c => some { s with children := s.children.erase c }
  | none => if s.children = [] then some { s with phase := .exited } else none

/-! ## The child -/

/-- A child goes from `a` to `b`. -/
def live (s : Host) (c : Child) (life : Life) : Host :=
  { s with children := s.children.map fun d => if d = c then { c with life := life } else d }

/-- `strcmp(buffer, "stop") == 0`, with the NUL that is written behind what was received. -/
def isStop (data : Bytes) : Bool := (CStr.ofBytes data).bytes = STOP

/-- The `recv` of a child that got no message from `PopMsg`. -/
def poll (s : Host) (c : Child) : Host :=
  let data := (s.inbox c.controlFd).take BUFFER
  if data = [] then s
  else
    let s := { s with inbox := update s.inbox c.controlFd ((s.inbox c.controlFd).drop BUFFER) }
    if isStop data then s.live c .stopped else s

/-- `ProcessMsg` of the line returns less than `0`, and `Run` breaks its loop. -/
def leavesLoop (line : Bytes) : Bool :=
  QueueCmd.ofLine line = some .exitThread ∨ QueueCmd.ofLine line = some .exit

theorem leavesLoop_iff (calls : LineCalls) (m : QueueMgr) (line : Bytes) :
    leavesLoop line = true ↔ (processLine calls m line).ret < 0 := by
  unfold leavesLoop processLine
  rcases QueueCmd.ofLine line with _ | cmd
  · simp
  · cases cmd with
    | allQueue =>
      simp only
      split <;> simp
    | _ => simp

/-! ## Steps -/

inductive Event
  /-- `SIGINT` to the manager -/
  | interrupt
  | check (other : Bool)
  | create (forked : Option Pid)
  /-- `usleep` returns -/
  | wake
  | send (r : Sent)
  | wait
  /-- `Open` returns `0` in the child -/
  | opened (c : Child)
  | poll (c : Child)
  /-- an admin line reaches the child -/
  | line (c : Child) (line : Bytes)
  | died (c : Child)

def step (s : Host) : Event → Option Host
  | .interrupt => some { s with stop := true }
  | .check other =>
    match s.phase with
    | .check =>
      let r := childDead other s.childPid s.children
      some { s with phase := if r.1 then .create else .sleep, children := r.2 }
    | _ => none
  | .create forked =>
    match s.phase with
    | .create => s.create forked
    | _ => none
  | .wake =>
    match s.phase with
    | .sleep => some { s with phase := if s.stop then .send STOP else .check }
    | _ => none
  | .send r =>
    match s.phase with
    | .send rest => s.send rest r
    | _ => none
  | .wait =>
    match s.phase with
    | .wait => s.wait
    | _ => none
  | .opened c => if c ∈ s.children ∧ c.life = .opening then some (s.live c .running) else none
  | .poll c => if c ∈ s.children ∧ c.life = .running then some (s.poll c) else none
  | .line c line =>
    if c ∈ s.children ∧ c.life = .running then some (if leavesLoop line then s.live c .left else s)
    else none
  | .died c => if c ∈ s.children ∧ c.life ≠ .zombie then some (s.live c .zombie) else none

/-! ## Every run -/

/-- What holds in every state. -/
structure Inv (s : Host) : Prop where
  child : s.children = [] ∨
    ∃ c, s.children = [c] ∧ s.childPid = some c.pid ∧ s.fd = some c.controlFd
  empty : s.phase = .create ∨ s.phase = .exited → s.children = []
  known : s.phase = .check ∨ s.phase = .sleep → s.childPid ≠ none → s.children ≠ []
  pairs : ∀ k, s.fd = some k → k < s.pairs
  quiet : ∀ k, s.fd ≠ some k → s.inbox k = []
  unread : ∀ k, s.inbox k <:+ s.sent
  early : s.phase = .check ∨ s.phase = .create ∨ s.phase = .sleep → s.sent = []
  sending : ∀ rest, s.phase = .send rest → rest ≠ [] ∧ s.sent ++ rest = STOP
  whole : s.sent <+: STOP
  told : ∀ c ∈ s.children, c.life = .stopped → s.sent = STOP
  leaving : s.phase = .check ∨ s.phase = .create ∨ s.phase = .sleep ∨ s.stop = true
  late : s.late ≤ 1 ∧ (s.stop = false ∨ s.phase = .check ∨ s.phase = .create → s.late = 0)
  descriptors : s.descriptors.length = s.forks ∧ s.descriptors.Nodup ∧
    ∀ k ∈ s.descriptors, k < s.pairs

theorem inv_boot : Inv boot where
  child := .inl rfl
  empty _ := rfl
  known _ h := absurd rfl h
  pairs := nofun
  quiet _ _ := rfl
  unread _ := List.suffix_refl _
  early _ := rfl
  sending := nofun
  whole := List.nil_prefix
  told := nofun
  leaving := .inl rfl
  late := ⟨Nat.zero_le _, fun _ => rfl⟩
  descriptors := ⟨rfl, List.nodup_nil, nofun⟩

section

variable {s s' : Host} {c : Child}

theorem Inv.eq_singleton (h : Inv s) (hc : c ∈ s.children) :
    s.children = [c] ∧ s.childPid = some c.pid ∧ s.fd = some c.controlFd := by
  rcases h.child with hnil | ⟨d, hd, hpid, hfd⟩
  · rw [hnil] at hc
    cases hc
  · rw [hd] at hc
    cases List.mem_singleton.mp hc
    exact ⟨hd, hpid, hfd⟩

theorem live_children (h : s.children = [c]) (life : Life) :
    (s.live c life).children = [{ c with life := life }] := by
  simp [live, h]

theorem mem_of_zombie? {children : List Child} (h : zombie? children = some c) :
    c ∈ children ∧ c.life = .zombie :=
  ⟨List.mem_of_find?_eq_some h, by simpa using List.find?_some h⟩

/-- The manager looks after its child. -/
theorem Inv.childDead (h : Inv s) (hphase : s.phase = .check) (other : Bool) :
    ((∀ c ∈ s.children, c.life = .zombie) ∧ childDead other s.childPid s.children = (true, [])) ∨
      (∃ c, s.children = [c] ∧ c.life ≠ .zombie ∧
        childDead other s.childPid s.children = (false, s.children)) := by
  rcases h.child with hnil | ⟨c, hc, hpid, -⟩
  · refine .inl ⟨by simp [hnil], ?_⟩
    have hnone : s.childPid = none := by
      by_contra hne
      exact h.known (.inl hphase) hne hnil
    rw [hnone, hnil]
    rfl
  · unfold Host.childDead
    by_cases hz : c.life = .zombie
    · exact .inl ⟨by simp [hc, hz], by simp [hpid, hc, hz]⟩
    · exact .inr ⟨c, hc, hz, by simp [hpid, hc, hz]⟩

theorem Inv.check (h : Inv s) (hphase : s.phase = .check) {dead : Bool} {children : List Child}
    (hdead : dead = true ∧ children = [] ∨ dead = false ∧ children = s.children ∧ children ≠ []) :
    Inv { s with phase := if dead then .create else .sleep, children := children } := by
  have hsent := h.early (.inl hphase)
  have hlate := h.late.2 (.inr (.inl hphase))
  rcases hdead with ⟨rfl, rfl⟩ | ⟨rfl, rfl, hne⟩
  · exact { h with
      child := .inl rfl
      empty := fun _ => rfl
      known := by simp
      early := fun _ => hsent
      sending := by simp
      told := nofun
      leaving := .inr (.inl rfl)
      late := ⟨h.late.1, fun _ => hlate⟩ }
  · exact { h with
      empty := by simp
      known := fun _ _ => hne
      early := fun _ => hsent
      sending := by simp
      leaving := .inr (.inr (.inl rfl))
      late := ⟨h.late.1, fun _ => hlate⟩ }

theorem Inv.create (h : Inv s) (hphase : s.phase = .create) {forked : Option Pid}
    (hs : s.create forked = some s') : Inv s' := by
  have hnil := h.empty (.inl hphase)
  have hsent := h.early (.inr (.inl hphase))
  have hlate := h.late.2 (.inr (.inr hphase))
  have hinbox : ∀ k, s.inbox k = [] := fun k =>
    List.suffix_nil.mp (hsent ▸ h.unread k)
  cases forked with
  | none =>
    cases hs
    exact { h with
      child := .inl hnil
      empty := by simp
      known := fun _ hne => absurd rfl hne
      pairs := fun k hk => Nat.lt_succ_of_lt (h.pairs k hk)
      early := fun _ => hsent
      sending := by simp
      leaving := .inr (.inr (.inl rfl))
      late := ⟨h.late.1, fun _ => hlate⟩
      descriptors := ⟨h.descriptors.1, h.descriptors.2.1,
        fun k hk => Nat.lt_succ_of_lt (h.descriptors.2.2 k hk)⟩ }
  | some p =>
    unfold Host.create at hs
    simp only [hnil, List.map_nil, List.not_mem_nil, if_false, Option.some.injEq] at hs
    subst hs
    refine { h with
      child := .inr ⟨⟨p, s.pairs, .opening⟩, rfl, rfl, rfl⟩
      empty := by simp
      known := by simp
      pairs := ?_
      quiet := fun k _ => hinbox k
      early := fun _ => hsent
      sending := by simp
      told := ?_
      leaving := .inr (.inr (.inl rfl))
      late := ?_
      descriptors := ?_ }
    · rintro k hk
      cases hk
      exact Nat.lt_succ_self _
    · intro c hc hlife
      cases List.mem_singleton.mp hc
      cases hlife
    · cases hstop : s.stop with
      | false => simp [hlate]
      | true => simp [hlate]
    · obtain ⟨hlen, hnodup, hlt⟩ := h.descriptors
      refine ⟨by simp [hlen], List.nodup_cons.mpr ⟨fun hmem => ?_, hnodup⟩, fun k hk => ?_⟩
      · exact Nat.lt_irrefl _ (hlt _ hmem)
      · rcases List.mem_cons.mp hk with rfl | hk
        · exact Nat.lt_succ_self _
        · exact Nat.lt_succ_of_lt (hlt k hk)

theorem Inv.wake (h : Inv s) (hphase : s.phase = .sleep) :
    Inv { s with phase := if s.stop then .send STOP else .check } := by
  have hsent := h.early (.inr (.inr hphase))
  cases hstop : s.stop with
  | false =>
    have hlate := h.late.2 (.inl hstop)
    exact { h with
      empty := by simp
      known := fun _ => h.known (.inr hphase)
      early := fun _ => hsent
      sending := by simp
      leaving := .inl rfl
      late := ⟨h.late.1, fun _ => hlate⟩ }
  | true =>
    exact { h with
      empty := by simp
      known := by simp
      early := by simp
      sending := by
        intro rest hrest
        cases hrest
        exact ⟨by decide, by rw [hsent, List.nil_append]⟩
      leaving := by simp
      late := by
        refine ⟨h.late.1, ?_⟩
        simp }

/-- The phases of `Uninit`. -/
theorem Inv.uninit (h : Inv s) (hstop : s.stop = true) {phase : Phase} {children : List Child}
    (hphase : phase = .wait ∨ phase = .exited ∧ children = [])
    (hchildren : children = [] ∨ children = s.children) :
    Inv { s with phase := phase, children := children } := by
  have hpast : phase ≠ .check ∧ phase ≠ .create ∧ phase ≠ .sleep ∧ ∀ rest, phase ≠ .send rest := by
    rcases hphase with rfl | ⟨rfl, -⟩ <;> simp
  obtain ⟨hcheck, hcreate, hsleep, hsend⟩ := hpast
  refine { h with
    child := ?_
    empty := ?_
    known := fun hp => absurd hp (by simp [hcheck, hsleep])
    early := fun hp => absurd hp (by simp [hcheck, hcreate, hsleep])
    sending := fun rest hp => absurd hp (hsend rest)
    told := ?_
    leaving := .inr (.inr (.inr hstop))
    late := ⟨h.late.1, fun hp => absurd hp (by simp [hcheck, hcreate, hstop])⟩ }
  · rcases hchildren with rfl | rfl
    · exact .inl rfl
    · exact h.child
  · rintro (hp | hp)
    · exact absurd hp hcreate
    · rcases hphase with rfl | ⟨-, hnil⟩
      · cases hp
      · exact hnil
  · rcases hchildren with rfl | rfl
    · exact nofun
    · exact h.told

/-- Behind its loop the manager has been told to stop. -/
theorem Inv.stop_of_phase (h : Inv s)
    (hphase : ¬ (s.phase = .check ∨ s.phase = .create ∨ s.phase = .sleep)) : s.stop = true := by
  rcases h.leaving with hp | hp | hp | hp
  · exact absurd (.inl hp) hphase
  · exact absurd (.inr (.inl hp)) hphase
  · exact absurd (.inr (.inr hp)) hphase
  · exact hp

theorem Inv.send (h : Inv s) {rest : Bytes} (hphase : s.phase = .send rest) {r : Sent}
    (hs : s.send rest r = some s') : Inv s' := by
  have hstop := h.stop_of_phase (by simp [hphase])
  obtain ⟨hne, hword⟩ := h.sending rest hphase
  unfold Host.send at hs
  split at hs
  · cases hs
    exact h
  · cases hs
    exact h.uninit hstop (.inl rfl) (.inr rfl)
  · cases hs
  · next n k hfd =>
    split at hs
    · next hguard =>
      obtain ⟨hpos, hle, -⟩ := hguard
      cases hs
      have hsent : s.sent ++ rest.take n ++ rest.drop n = STOP := by
        rw [List.append_assoc, List.take_append_drop, hword]
      have hpast : ∀ p : Phase, (p = .check ∨ p = .create ∨ p = .sleep ∨ p = .exited) →
          (if rest.drop n = [] then Phase.wait else .send (rest.drop n)) ≠ p := by
        rintro p (rfl | rfl | rfl | rfl) <;> split <;> simp
      refine { h with
        empty := fun hp => ?_
        known := fun hp => ?_
        quiet := fun k' hk' => ?_
        unread := fun k' => ?_
        early := fun hp => ?_
        sending := fun rest' hp => ?_
        whole := ⟨_, hsent⟩
        told := fun c hc hlife => ?_
        leaving := .inr (.inr (.inr hstop))
        late := ⟨h.late.1, fun hp => ?_⟩ }
      · rcases hp with hp | hp
        · exact absurd hp (hpast _ (by simp))
        · exact absurd hp (hpast _ (by simp))
      · rcases hp with hp | hp
        · exact absurd hp (hpast _ (by simp))
        · exact absurd hp (hpast _ (by simp))
      · have hkk : k' ≠ k := by
          rintro rfl
          exact hk' hfd
        simp only [update_of_ne hkk]
        exact h.quiet k' hk'
      · by_cases hkk : k' = k
        · subst hkk
          simp only [update_self]
          obtain ⟨l, hl⟩ := h.unread k'
          exact ⟨l, by rw [← hl, List.append_assoc]⟩
        · simp only [update_of_ne hkk]
          rw [h.quiet k' fun hk' => hkk (Option.some.inj (hk'.symm.trans hfd))]
          exact List.nil_suffix
      · rcases hp with hp | hp | hp
        · exact absurd hp (hpast _ (by simp))
        · exact absurd hp (hpast _ (by simp))
        · exact absurd hp (hpast _ (by simp))
      · split at hp
        · cases hp
        · next hdrop =>
          cases hp
          exact ⟨hdrop, hsent⟩
      · -- all of the word was sent, so nothing was left
        have hall := h.told c hc hlife
        rw [hall] at hword
        exact absurd (List.append_right_eq_self.mp hword) hne
      · rcases hp with hp | hp | hp
        · rw [hstop] at hp
          cases hp
        · exact absurd hp (hpast _ (by simp))
        · exact absurd hp (hpast _ (by simp))
    · cases hs

theorem Inv.wait (h : Inv s) (hphase : s.phase = .wait) (hs : s.wait = some s') : Inv s' := by
  have hstop := h.stop_of_phase (by simp [hphase])
  unfold Host.wait at hs
  split at hs
  · next c hz =>
    cases hs
    obtain ⟨hchildren, -, -⟩ := h.eq_singleton (mem_of_zombie? hz).1
    have := h.uninit hstop (.inl hphase) (.inl (rfl : ([] : List Child) = []))
    simpa [hchildren] using this
  · split at hs
    · next hnil =>
      cases hs
      exact h.uninit hstop (.inr ⟨rfl, hnil⟩) (.inr rfl)
    · cases hs

/-- A child goes on. -/
theorem Inv.live (h : Inv s) (hc : c ∈ s.children) {life : Life}
    (htold : life = .stopped → s.sent = STOP) : Inv (s.live c life) := by
  obtain ⟨hchildren, hpid, hfd⟩ := h.eq_singleton hc
  have hlive := live_children hchildren life
  have hne : s.children ≠ [] := by simp [hchildren]
  exact { h with
    child := .inr ⟨_, hlive, hpid, hfd⟩
    empty := fun hp => absurd (h.empty hp) hne
    known := fun _ _ => by simp [hlive]
    told := fun d hd hlife => by
      rw [hlive] at hd
      cases List.mem_singleton.mp hd
      exact htold hlife }

/-! ### The control socket -/

theorem Inv.noNul (h : Inv s) (k : Nat) : ∀ b ∈ s.inbox k, b ≠ 0 := by
  intro b hb
  have hmem : b ∈ STOP := h.whole.subset ((h.unread k).subset hb)
  rintro rfl
  exact absurd hmem (by decide)

/-- The buffer is never filled. -/
theorem Inv.length_inbox (h : Inv s) (k : Nat) : (s.inbox k).length < BUFFER :=
  calc (s.inbox k).length ≤ s.sent.length := (h.unread k).length_le
    _ ≤ STOP.length := h.whole.length_le
    _ < BUFFER := by decide

theorem isStop_iff {data : Bytes} (h : ∀ b ∈ data, b ≠ 0) : isStop data = true ↔ data = STOP := by
  have hbytes : (CStr.ofBytes data).bytes = data :=
    congrArg CStr.bytes (CStr.ofBytes_bytes ⟨data, h⟩)
  simp [isStop, hbytes]

/-- What a child gets is all that is there. -/
theorem Inv.poll_eq (h : Inv s) (c : Child) :
    s.poll c =
      if s.inbox c.controlFd = [] then s
      else
        let s' := { s with inbox := update s.inbox c.controlFd [] }
        if s.inbox c.controlFd = STOP then s'.live c .stopped else s' := by
  have hlen := (h.length_inbox c.controlFd).le
  unfold poll
  simp only [List.take_of_length_le hlen, List.drop_eq_nil_of_le hlen, isStop_iff (h.noNul _)]

theorem Inv.read (h : Inv s) (k : Nat) : Inv { s with inbox := update s.inbox k [] } := by
  have hnil : ∀ k', s.inbox k' = [] → update s.inbox k [] k' = [] := by
    intro k' hk'
    by_cases hkk : k' = k
    · rw [hkk, update_self]
    · rw [update_of_ne hkk, hk']
  refine { h with quiet := fun k' hk' => hnil k' (h.quiet k' hk'), unread := fun k' => ?_ }
  by_cases hkk : k' = k
  · simp only [hkk, update_self]
    exact List.nil_suffix
  · simp only [update_of_ne hkk]
    exact h.unread k'

theorem Inv.poll (h : Inv s) (hc : c ∈ s.children) : Inv (s.poll c) := by
  rw [h.poll_eq c]
  split
  · exact h
  · dsimp only
    split
    · next hword =>
      refine (h.read c.controlFd).live hc fun _ => ?_
      -- all of the word is unread, so it was sent
      have hlen := (h.unread c.controlFd).length_le
      rw [hword] at hlen
      exact h.whole.eq_of_length_le hlen
    · exact h.read c.controlFd

/-- **Every step keeps it.** -/
theorem Inv.step (h : Inv s) {e : Event} (hs : s.step e = some s') : Inv s' := by
  cases e with
  | interrupt =>
    cases hs
    exact { h with
      leaving := .inr (.inr (.inr rfl))
      late := ⟨h.late.1, fun hp => h.late.2 (hp.imp_left nofun)⟩ }
  | check other =>
    simp only [Host.step] at hs
    split at hs
    · next hphase =>
      cases hs
      rcases h.childDead hphase other with ⟨-, heq⟩ | ⟨c, hc, -, heq⟩
      · rw [heq]
        exact h.check hphase (.inl ⟨rfl, rfl⟩)
      · rw [heq]
        exact h.check hphase (.inr ⟨rfl, rfl, by simp [hc]⟩)
    · cases hs
  | create forked =>
    simp only [Host.step] at hs
    split at hs
    · next hphase => exact h.create hphase hs
    · cases hs
  | wake =>
    simp only [Host.step] at hs
    split at hs
    · next hphase =>
      cases hs
      exact h.wake hphase
    · cases hs
  | send r =>
    simp only [Host.step] at hs
    split at hs
    · next rest hphase => exact h.send hphase hs
    · cases hs
  | wait =>
    simp only [Host.step] at hs
    split at hs
    · next hphase => exact h.wait hphase hs
    · cases hs
  | opened c =>
    obtain ⟨⟨hc, -⟩, rfl⟩ := Option.ite_none_right_eq_some.mp hs |>.imp_right Option.some.inj
    exact h.live hc nofun
  | poll c =>
    obtain ⟨⟨hc, -⟩, rfl⟩ := Option.ite_none_right_eq_some.mp hs |>.imp_right Option.some.inj
    exact h.poll hc
  | line c line =>
    obtain ⟨⟨hc, -⟩, rfl⟩ := Option.ite_none_right_eq_some.mp hs |>.imp_right Option.some.inj
    split
    · exact h.live hc nofun
    · exact h
  | died c =>
    obtain ⟨⟨hc, -⟩, rfl⟩ := Option.ite_none_right_eq_some.mp hs |>.imp_right Option.some.inj
    exact h.live hc nofun

end

theorem inv_of_reach {s : Host} (h : Machine.Reach step Machine.free boot s) : Inv s :=
  h.inv inv_boot fun hi _ hs => hi.step hs

/-- **The manager has one child at most.** In every state it is the process `_childPid` names, and
`_fd` is its socket; the manager creates another exactly when it is dead; it exits with no child
left, having created at most one after it was told to stop; and it has an open descriptor for every
child it has ever created. -/
theorem supervised {s : Host} (h : Machine.Reach step Machine.free boot s) :
    s.children.length ≤ 1 ∧
    (∀ c ∈ s.children, s.childPid = some c.pid ∧ s.fd = some c.controlFd) ∧
    (∀ other s', s.step (.check other) = some s' →
      (s'.phase = .create ↔ ∀ c ∈ s.children, c.life = .zombie)) ∧
    (s.phase = .exited → s.children = []) ∧ s.late ≤ 1 ∧
    s.descriptors.Nodup ∧ s.descriptors.length = s.forks := by
  have hi := inv_of_reach h
  refine ⟨?_, fun c hc => (hi.eq_singleton hc).2, fun other s' hs => ?_,
    fun hexit => hi.empty (.inr hexit), hi.late.1, hi.descriptors.2.1, hi.descriptors.1⟩
  · rcases hi.child with hnil | ⟨c, hc, -, -⟩
    · simp [hnil]
    · simp [hc]
  · simp only [Host.step] at hs
    split at hs
    · next hphase =>
      cases hs
      rcases hi.childDead hphase other with ⟨hall, heq⟩ | ⟨c, hc, hlife, heq⟩
      · rw [heq]
        exact iff_of_true rfl hall
      · rw [heq]
        exact iff_of_false nofun fun hall => hlife (hall c (by simp [hc]))
    · cases hs

/-- A child is created, opens, and dies; another is created while the manager is told to stop, and
is sent the first `n` bytes of the word, and then the rest. -/
def shutdownRun (n : Nat) : List Event :=
  [.check false, .create (some 7), .opened ⟨7, 0, .opening⟩, .died ⟨7, 0, .running⟩, .wake,
    .check false, .interrupt, .create (some 7), .opened ⟨7, 1, .opening⟩, .wake, .send (.sent n)]

/-- The state after some events. -/
theorem reach_events (es : List Event)
    (h : (Machine.run step (fun _ _ => true) es boot).isSome) :
    Machine.Reach step Machine.free boot
      ((Machine.run step (fun _ _ => true) es boot).get h) :=
  Machine.reach_of_run es (Option.some_get h).symm

theorem supervised_restart : ∃ s, Machine.Reach step Machine.free boot s ∧ s.forks = 2 ∧
    s.children.length ≤ 1 ∧ s.descriptors.length = s.forks := by
  have hreach := reach_events (shutdownRun 4) rfl
  obtain ⟨hone, -, -, -, -, -, hfds⟩ := supervised hreach
  exact ⟨_, hreach, rfl, hone, hfds⟩

/-- The manager has sent what it sends, and that will stop nobody. -/
structure Deaf (s : Host) : Prop where
  inv : Inv s
  phase : s.phase = .wait ∨ s.phase = .exited
  unread : ∀ k, s.inbox k ≠ STOP
  going : ∀ c ∈ s.children, c.life ≠ .stopped

/-- It does not exit before its child. -/
theorem Deaf.waiting {s : Host} (h : Deaf s) {c : Child} (hc : c ∈ s.children) :
    s.phase = .wait := by
  rcases h.phase with hphase | hphase
  · exact hphase
  · rw [h.inv.empty (.inr hphase)] at hc
    cases hc

theorem Deaf.live {s : Host} (h : Deaf s) {c : Child} (hc : c ∈ s.children) {life : Life}
    (hlife : life ≠ .stopped) : Deaf (s.live c life) where
  inv := h.inv.live hc fun heq => absurd heq hlife
  phase := h.phase
  unread := h.unread
  going d hd := by
    rw [live_children (h.inv.eq_singleton hc).1] at hd
    cases List.mem_singleton.mp hd
    exact hlife

theorem Deaf.step {s s' : Host} (h : Deaf s) {e : Event} (hs : s.step e = some s') : Deaf s' := by
  have hinv := h.inv.step hs
  cases e with
  | interrupt =>
    cases hs
    exact ⟨hinv, h.phase, h.unread, h.going⟩
  | check other | create forked | wake | send r =>
    rcases h.phase with hphase | hphase <;> simp [Host.step, hphase] at hs
  | wait =>
    rcases h.phase with hphase | hphase
    · simp only [Host.step, hphase, Host.wait] at hs
      split at hs
      · next c hz =>
        cases hs
        exact ⟨hinv, .inl rfl, h.unread, fun d hd => h.going d (List.mem_of_mem_erase hd)⟩
      · split at hs
        · cases hs
          exact ⟨hinv, .inr rfl, h.unread, h.going⟩
        · cases hs
    · simp [Host.step, hphase] at hs
  | opened c =>
    obtain ⟨⟨hc, -⟩, rfl⟩ := Option.ite_none_right_eq_some.mp hs |>.imp_right Option.some.inj
    exact h.live hc (by simp)
  | poll c =>
    obtain ⟨⟨hc, -⟩, rfl⟩ := Option.ite_none_right_eq_some.mp hs |>.imp_right Option.some.inj
    rw [h.inv.poll_eq c, if_neg (h.unread c.controlFd)] at hinv ⊢
    split at hinv
    · next hnil =>
      rw [if_pos hnil]
      exact h
    · next hne =>
      rw [if_neg hne]
      refine ⟨hinv, h.phase, fun k => ?_, h.going⟩
      by_cases hk : k = c.controlFd
      · simp only [hk, update_self]
        decide
      · simp only [update_of_ne hk]
        exact h.unread k
  | line c line =>
    obtain ⟨⟨hc, -⟩, rfl⟩ := Option.ite_none_right_eq_some.mp hs |>.imp_right Option.some.inj
    split
    · exact h.live hc (by simp)
    · exact h
  | died c =>
    obtain ⟨⟨hc, -⟩, rfl⟩ := Option.ite_none_right_eq_some.mp hs |>.imp_right Option.some.inj
    exact h.live hc (by simp)

/-- **Shutting down.** The control socket stops a child only after the whole word was sent to it,
and no message fills its buffer. When the manager waits for a running child, either the child has
the whole word before it, and its next `recv` stops it; or it has read a part, or a part was all
that could be sent, and then the control socket never stops it, and while it is there the manager
waits for it. -/
theorem shutdown {s : Host} (h : Machine.Reach step Machine.free boot s) {c : Child}
    (hc : c ∈ s.children) :
    (c.life = .stopped → s.sent = STOP) ∧ (s.inbox c.controlFd).length < BUFFER ∧
    (s.phase = .wait → c.life = .running →
      (s.inbox c.controlFd = STOP →
        ∃ s', s.step (.poll c) = some s' ∧ s'.children = [{ c with life := .stopped }]) ∧
      (s.inbox c.controlFd ≠ STOP → ∀ s', Machine.Reach step Machine.free s s' →
        ∀ d ∈ s'.children, s'.phase = .wait ∧ d.life ≠ .stopped)) := by
  have hi := inv_of_reach h
  obtain ⟨hchildren, -, hfd⟩ := hi.eq_singleton hc
  refine ⟨hi.told c hc, hi.length_inbox _, fun hphase hlife => ⟨fun hword => ?_, fun hword => ?_⟩⟩
  · refine ⟨_, if_pos ⟨hc, hlife⟩, ?_⟩
    rw [hi.poll_eq c, hword, if_neg (by decide), if_pos rfl]
    exact live_children hchildren _
  · intro s' hs'
    suffices hdeaf : Deaf s from
      have hdeaf' : Deaf s' := hs'.inv hdeaf fun hd _ hs => hd.step hs
      fun d hd => ⟨hdeaf'.waiting hd, hdeaf'.going d hd⟩
    refine ⟨hi, .inl hphase, fun k => ?_, fun d hd => ?_⟩
    · by_cases hk : k = c.controlFd
      · rwa [hk]
      · rw [hi.quiet k fun hk' => hk (Option.some.inj (hk'.symm.trans hfd))]
        decide
    · rw [hchildren] at hd
      cases List.mem_singleton.mp hd
      rw [hlife]
      decide

/-- The child reads the first two bytes before the last two are sent. -/
theorem shutdown_missed : ∃ s, Machine.Reach step Machine.free boot s ∧ s.sent = STOP ∧
    s.children = [⟨7, 1, .running⟩] ∧
    ∀ s', Machine.Reach step Machine.free s s' →
      ∀ d ∈ s'.children, s'.phase = .wait ∧ d.life ≠ .stopped := by
  have hreach := reach_events
    (shutdownRun 2 ++ [.poll ⟨7, 1, .running⟩, .send (.sent 2)]) rfl
  exact ⟨_, hreach, rfl, rfl,
    ((shutdown hreach (c := ⟨7, 1, .running⟩) (by decide)).2.2 rfl rfl).2 (by decide)⟩

end Host

end Domq.Mq.Supervisor

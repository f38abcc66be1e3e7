import Domq.Netmgr.Connections

/-!
# Who is watched

An event that fires stops being pending, so a handler has to register again for what it still
waits for (`eventhandler.cpp`, `eventmanager.cpp`). `HandleInput` and `HandleOutput` do so on every
way out but one: where `recv` or `send` is interrupted they return.

* `Watched`: the read event of a handler is pending, and its write event is while something is to be
  sent.
* `Spares`: no call of one handler is interrupted. The calls of others may be.
* `Unserved`: a result for the connection never comes, and nobody closes it.

Results: `watched`: while no call of its handler was interrupted an open connection is watched, so
it can time out, and what is to be sent is as soon as the socket takes it; `interrupted_deaf`: after
an interrupted `recv` the handler never reads again and never times out, and the connection stays
open although its peer may have left.
-/

namespace Domq.Netmgr.Connections

open Domq.Lib Function

namespace Handler

variable {Addr : Type} {hd hd' : Handler Addr} {k : Kernel Addr} {p : Handler Addr × Kernel Addr}

/-- It gets what it waits for. -/
def Watched (hd : Handler Addr) : Prop :=
  ∃ ed, hd.context = some ed ∧ ed.readev = .set true ∧
    (ed.writeev = .set true ↔ hd.sendbuffer ≠ [])

/-- Its read event is not pending. -/
def Deaf (hd : Handler Addr) : Prop := ∀ ed, hd.context = some ed → ed.readev ≠ .set true

/-- Neither is its write event. -/
def Idle (hd : Handler Addr) : Prop :=
  ∀ ed, hd.context = some ed → ed.readev ≠ .set true ∧ ed.writeev ≠ .set true

/-- It has run, and is watched or has closed its descriptor. -/
def Ends (p : Handler Addr × Kernel Addr) : Prop :=
  p.1.Watched ∨ p.2.fds p.1.eventObject = none

/-- A handler that has run has left the descriptors of the others. -/
structure Frames (hd : Handler Addr) (k : Kernel Addr) (p : Handler Addr × Kernel Addr) : Prop where
  eventObject : p.1.eventObject = hd.eventObject
  fds : p.2.fds = k.fds ∨ p.2.fds = update k.fds hd.eventObject none

theorem Runs.frames (h : hd.Runs k p) : hd.Frames k p := by
  obtain ⟨context, n, hp⟩ := h.frame
  exact ⟨by rw [hp], h.ends.imp And.left And.left⟩

/-- What is open after it has run was open before. -/
theorem Frames.opens (h : hd.Frames k p) {fd : Fd} {c : Conn} (hfd : p.2.fds fd = some c) :
    k.fds fd = some c := by
  rcases h.fds with hsame | hclosed
  · rwa [hsame] at hfd
  · rw [hclosed] at hfd
    by_cases heq : fd = hd.eventObject
    · rw [heq, update_self] at hfd
      cases hfd
    · rwa [update_of_ne heq] at hfd

theorem close_frames : hd.Frames k (hd.close k) := (removeHandler_runs _).frames

/-! ### Events -/

theorem fireRead_eq (h : hd.fireRead = some hd') : ∃ w, hd.context = some ⟨.set true, w⟩ ∧
    hd' = { hd with context := some ⟨.set false, w⟩ } := by
  unfold fireRead at h
  split at h
  · rename_i w hc
    cases h
    exact ⟨w, hc, rfl⟩
  · cases h

theorem fireWrite_eq (h : hd.fireWrite = some hd') : ∃ r, hd.context = some ⟨r, .set true⟩ ∧
    hd' = { hd with context := some ⟨r, .set false⟩ } := by
  unfold fireWrite at h
  split at h
  · rename_i r hc
    cases h
    exact ⟨r, hc, rfl⟩
  · cases h

theorem Deaf.fireRead (h : hd.Deaf) : hd.fireRead = none := by
  cases hf : hd.fireRead with
  | none => rfl
  | some hd' =>
    obtain ⟨w, hc, -⟩ := fireRead_eq hf
    exact absurd rfl (h _ hc)

theorem Idle.deaf (h : hd.Idle) : hd.Deaf := fun ed hed => (h ed hed).1

theorem Idle.fireWrite (h : hd.Idle) : hd.fireWrite = none := by
  cases hf : hd.fireWrite with
  | none => rfl
  | some hd' =>
    obtain ⟨r, hc, -⟩ := fireWrite_eq hf
    exact absurd rfl (h _ hc).2

/-! ### Watched -/

theorem close_fds : (hd.close k).2.fds (hd.close k).1.eventObject = none := by
  unfold close removeHandler
  split
  · exact update_self ..
  · exact update_self ..

theorem close_ends : Ends (hd.close k) := .inr close_fds

/-- The read event is registered again. -/
theorem registerRead_ends (added : Bool) {w : Ev}
    (hc : hd.context = some ⟨.set false, w⟩) (hw : w = .set true ↔ hd.sendbuffer ≠ []) :
    Ends (hd.registerOrClose ⟨true, false⟩ added k) := by
  cases added with
  | true => exact .inl ⟨⟨.set true, w⟩, by simp [registerOrClose, registerHandler, hc], rfl, hw⟩
  | false =>
    show Ends ((hd.registerHandler ⟨true, false⟩ false).close k)
    exact close_ends

/-- The write event is registered while something is to be sent. -/
theorem registerWrite_ends (hd : Handler Addr) (added : Bool) {w : Ev}
    (hc : hd.context = some ⟨.set true, w⟩) (hne : hd.sendbuffer ≠ []) :
    Ends (hd.registerOrClose ⟨false, true⟩ added k) := by
  cases added with
  | true =>
    refine .inl ⟨⟨.set true, .set true⟩, ?_, rfl, ?_⟩
    · simp [registerOrClose, registerHandler, hc]
    · exact ⟨fun _ => hne, fun _ => rfl⟩
  | false =>
    show Ends ((hd.registerHandler ⟨false, true⟩ false).close k)
    exact close_ends

/-- All is sent. -/
theorem removeWrite_eq (hd : Handler Addr) {w : Ev} (hc : hd.context = some ⟨.set true, w⟩) :
    hd.removeHandler ⟨false, true⟩ k = ({ hd with context := some ⟨.set true, .zero⟩ }, k) := by
  simp [removeHandler, hc, containEvent]

/-- The socket takes all there is to be sent. -/
theorem handleOutput_all (hd : Handler Addr) {w : Ev} {c : Conn}
    (hc : hd.context = some ⟨.set true, w⟩)
    (hne : hd.sendbuffer ≠ []) (hfd : k.fds hd.eventObject = some c) :
    hd.handleOutput (.sent hd.sendbuffer.length true) k = some
      ({ hd with context := some ⟨.set true, .zero⟩, sendbuffer := [] },
        { k with writes := k.writes ++ [⟨hd.eventObject, some c, hd.sendbuffer⟩] }) := by
  have hlen : hd.sendbuffer.length ≠ 0 := fun h => hne (List.eq_nil_of_length_eq_zero h)
  simp [handleOutput, hne, hfd, hlen, removeHandler, hc, containEvent]

theorem handleInput_ends (hd : Handler Addr) {r : Recv} {w : Ev}
    (hc : hd.context = some ⟨.set false, w⟩)
    (hw : w = .set true ↔ hd.sendbuffer ≠ []) (hr : r ≠ .eintr)
    (hi : hd.handleInput r k = some p) : Ends p := by
  unfold handleInput at hi
  split at hi
  · cases hi
    exact close_ends
  · cases hi
  · cases hi
    exact close_ends
  · exact absurd rfl hr
  · split at hi
    · cases hi
      exact registerRead_ends _ hc hw
    · cases hi
      exact close_ends

theorem handleOutput_ends (hd : Handler Addr) {r : Sent} {w : Ev}
    (hc : hd.context = some ⟨.set true, w⟩)
    (hne : hd.sendbuffer ≠ []) (hr : r ≠ .eintr) (ho : hd.handleOutput r k = some p) :
    Ends p := by
  unfold handleOutput at ho
  rw [if_neg hne] at ho
  split at ho
  · cases ho
    exact close_ends
  · cases ho
  · exact absurd rfl hr
  · cases ho
    exact registerWrite_ends hd _ hc hne
  · rename_i n added c hfd
    split at ho
    · cases ho
    · split at ho
      · cases ho
        exact close_ends
      · dsimp only at ho
        split at ho
        · rename_i hempty
          cases ho
          rw [removeWrite_eq { hd with sendbuffer := hd.sendbuffer.drop n } hc]
          refine .inl ⟨⟨.set true, .zero⟩, rfl, rfl, ?_⟩
          simpa using hempty
        · rename_i hrest
          cases ho
          exact registerWrite_ends { hd with sendbuffer := hd.sendbuffer.drop n } _ hc hrest

/-! ### Deaf -/

theorem removeHandler_deaf (h : hd.Deaf) (mask : Mask) : (hd.removeHandler mask k).1.Deaf := by
  unfold removeHandler
  cases hc : hd.context with
  | none => exact h
  | some ed =>
    dsimp only
    generalize containEvent _ = b
    cases b with
    | true =>
      intro ed' hed'
      obtain rfl := Option.some.inj hed'
      dsimp only
      split
      · simp
      · exact h ed hc
    | false => exact fun ed' hed' => by cases hed'

theorem registerWrite_deaf (h : hd.Deaf) (added : Bool) :
    (hd.registerOrClose ⟨false, true⟩ added k).1.Deaf := by
  have hreg : (hd.registerHandler ⟨false, true⟩ added).Deaf := by
    intro ed hed
    cases hed
    cases hc : hd.context with
    | none => simp
    | some ed => simpa using h ed hc
  cases added with
  | true => exact hreg
  | false =>
    show ((hd.registerHandler ⟨false, true⟩ false).close k).1.Deaf
    exact removeHandler_deaf hreg _

theorem handleOutput_deaf {r : Sent} (h : hd.Deaf) (ho : hd.handleOutput r k = some p) :
    p.1.Deaf := by
  unfold handleOutput at ho
  split at ho
  · cases ho
    exact h
  · split at ho
    · cases ho
      exact removeHandler_deaf h _
    · cases ho
    · cases ho
      exact h
    · cases ho
      exact registerWrite_deaf h _
    · rename_i n added c hfd
      split at ho
      · cases ho
      · split at ho
        · cases ho
          exact removeHandler_deaf h _
        · have hrest : Deaf { hd with sendbuffer := hd.sendbuffer.drop n } := h
          dsimp only at ho
          split at ho
          · cases ho
            exact removeHandler_deaf hrest _
          · cases ho
            exact registerWrite_deaf hrest _

theorem Deaf.fireWrite (h : hd.Deaf) (hf : hd.fireWrite = some hd') : hd'.Deaf := by
  obtain ⟨r, hc, rfl⟩ := fireWrite_eq hf
  intro ed hed
  obtain rfl := Option.some.inj hed
  exact h ⟨r, .set true⟩ hc

end Handler

/-! ## The I/O thread -/

namespace Net

open Connections.Handler

variable {Addr : Type} {s s₁ s' : Net Addr} {e : Event Addr} {c : Conn}

/-- The handler whose `recv` or `send` is interrupted. -/
def interrupted (s : Net Addr) : Event Addr → Option Conn
  | .input h .eintr => some h
  | .output h .eintr => some h
  | .push _ addr (some _) .eintr => s.registry addr
  | _ => none

/-- The condition on a run: no call of the handler `c` is interrupted. -/
def Spares (c : Conn) (s : Net Addr) (e : Event Addr) : Prop := s.interrupted e ≠ some c

instance (c : Conn) (s : Net Addr) (e : Event Addr) : Decidable (Spares c s e) :=
  inferInstanceAs (Decidable (_ ≠ _))

/-- The condition on a run: handlers that are reached are those of open connections, and `c` is not
reached. -/
def Unserved (c : Conn) (s : Net Addr) (e : Event Addr) : Prop :=
  s.OnlyOpen e ∧ s.reached e ≠ some c

instance (c : Conn) (s : Net Addr) (e : Event Addr) : Decidable (Unserved c s e) :=
  inferInstanceAs (Decidable (_ ∧ _))

/-- Where the connection is open its handler is watched. -/
def Watches (c : Conn) (s : Net Addr) : Prop :=
  ∀ hd, s.handlers[c]? = some hd → s.kernel.fds hd.eventObject = some c → hd.Watched

/-- A handler runs. Of the others it leaves the descriptors open. -/
theorem Watches.serve {h : Conn}
    {f : Handler Addr → Kernel Addr → Option (Handler Addr × Kernel Addr)}
    (hw : Watches c s) (hs : s.serve h f = some s')
    (hframe : ∀ hd p, f hd s.kernel = some p → hd.Frames s.kernel p)
    (hown : ∀ hd p, h = c → f hd s.kernel = some p → hd.Watched → Ends p) : Watches c s' := by
  obtain ⟨hd, p, hhd, hp, rfl⟩ := serve_eq hs
  have hframes := hframe hd p hp
  intro y hy hfd
  rcases getElem?_set_cases hy with ⟨rfl, rfl⟩ | ⟨-, hy⟩
  · have hbefore := hw hd hhd (hframes.eventObject ▸ hframes.opens hfd)
    rcases hown hd p rfl hp hbefore with hwatched | hclosed
    · exact hwatched
    · rw [hclosed] at hfd
      cases hfd
  · exact hw y hy (hframes.opens hfd)

/-- An event of the handler's own fires, and it runs. -/
theorem Watches.fired {h : Conn} {fire : Handler Addr → Option (Handler Addr)}
    {f : Handler Addr → Kernel Addr → Option (Handler Addr × Kernel Addr)}
    (hw : Watches c s) (hs : s.serve h (fun hd k => do f (← fire hd) k) = some s')
    (hfire : ∀ {hd hd'}, fire hd = some hd' → hd'.eventObject = hd.eventObject)
    (hruns : ∀ {hd p}, f hd s.kernel = some p → hd.Runs s.kernel p)
    (hown : ∀ {hd hd' p}, h = c → fire hd = some hd' → f hd' s.kernel = some p → hd.Watched →
      Ends p) : Watches c s' := by
  refine hw.serve hs (fun hd p hp => ?_) fun hd p heq hp => ?_
  · obtain ⟨hd', hfired, hp⟩ := Option.bind_eq_some_iff.mp hp
    have hobject := hfire hfired
    have hframe := (hruns hp).frames
    exact ⟨hframe.eventObject.trans hobject, hobject ▸ hframe.fds⟩
  · obtain ⟨hd', hfired, hp⟩ := Option.bind_eq_some_iff.mp hp
    exact hown heq hfired hp

theorem serve_fired {h : Conn} {hd hd' : Handler Addr} {p : Handler Addr × Kernel Addr}
    {fire : Handler Addr → Option (Handler Addr)}
    (f : Handler Addr → Kernel Addr → Option (Handler Addr × Kernel Addr))
    (hhd : s.handlers[h]? = some hd) (hfire : fire hd = some hd') (hp : f hd' s.kernel = some p) :
    s.serve h (fun hd k => do f (← fire hd) k) =
      some { s with kernel := p.2, handlers := s.handlers.set h p.1 } := by
  simp [serve, hhd, hfire, hp]

theorem fireRead_eventObject {hd hd' : Handler Addr} (h : hd.fireRead = some hd') :
    hd'.eventObject = hd.eventObject := by
  obtain ⟨w, -, rfl⟩ := fireRead_eq h
  rfl

theorem fireWrite_eventObject {hd hd' : Handler Addr} (h : hd.fireWrite = some hd') :
    hd'.eventObject = hd.eventObject := by
  obtain ⟨r, -, rfl⟩ := fireWrite_eq h
  rfl

/-- A connection that was there before another was accepted. -/
theorem opens_of_accept {fd fd' : Fd} (hlt : c < s.handlers.length)
    (h : update s.kernel.fds fd (some s.handlers.length) fd' = some c) :
    s.kernel.fds fd' = some c := by
  by_cases heq : fd' = fd
  · rw [heq, update_self] at h
    exact absurd (Option.some.inj h) (Nat.ne_of_gt hlt)
  · rwa [update_of_ne heq] at h

variable [DecidableEq Addr]

/-- **A step keeps the handler watched.** -/
theorem Watches.step (hw : Watches c s) (hg : Spares c s e) (hs : s.step e = some s') :
    Watches c s' := by
  cases e with
  | accept fd addr created added =>
    simp only [Net.step] at hs
    split at hs
    · cases hs
      unfold accept
      split
      · exact hw
      · dsimp only
        split
        · exact hw
        · rename_i hadded
          obtain rfl : added = true := by simpa using hadded
          intro y hy hfd
          rcases getElem?_append_cases hy with ⟨rfl, rfl⟩ | ⟨hlt, hy⟩
          · exact ⟨⟨.set true, .zero⟩, rfl, rfl, by simp [registerHandler]⟩
          · exact hw y hy (opens_of_accept hlt hfd)
    · cases hs
  | input h r =>
    refine hw.fired hs fireRead_eventObject handleInput_runs ?_
    rintro hd hd' p rfl hfired hp ⟨ed, hed, -, hwrite⟩
    obtain ⟨w, hc, rfl⟩ := fireRead_eq hfired
    obtain rfl := Option.some.inj (hed.symm.trans hc)
    refine handleInput_ends { hd with context := some ⟨.set false, w⟩ } rfl hwrite
      (fun heq => ?_) hp
    subst heq
    exact hg rfl
  | output h r =>
    refine hw.fired hs fireWrite_eventObject handleOutput_runs ?_
    rintro hd hd' p rfl hfired hp ⟨ed, hed, hread, hwrite⟩
    obtain ⟨r', hc, rfl⟩ := fireWrite_eq hfired
    obtain rfl := Option.some.inj (hed.symm.trans hc)
    obtain rfl : r' = .set true := hread
    refine handleOutput_ends { hd with context := some ⟨.set true, .set false⟩ } rfl
      (hwrite.mp rfl) (fun heq => ?_) hp
    subst heq
    exact hg rfl
  | readTimeout h =>
    refine hw.fired (f := fun hd k => some (hd.close k)) hs fireRead_eventObject ?_ ?_
    · intro hd p hp
      cases hp
      exact removeHandler_runs _
    · rintro hd hd' p - - hp -
      cases hp
      exact close_ends
  | writeTimeout h =>
    refine hw.fired (f := fun hd k => some (hd.close k)) hs fireWrite_eventObject ?_ ?_
    · intro hd p hp
      cases hp
      exact removeHandler_runs _
    · rintro hd hd' p - - hp -
      cases hp
      exact close_ends
  | push c' addr encoded r =>
    simp only [Net.step] at hs
    split at hs
    · split at hs
      · cases hs
        exact hw
      · cases hs
        exact hw
      · refine hw.serve hs (fun hd p hp => ?_) fun hd p _ hp _ => ?_
        · cases hp
          exact close_frames
        · cases hp
          exact close_ends
      · rename_i h data hne hreg
        have hdata : data ≠ [] := fun hnil => hne (by rw [hnil])
        refine hw.serve hs (fun hd p hp => ?_) ?_
        · have hframe := (handleOutput_runs hp).frames
          exact ⟨hframe.eventObject, hframe.fds⟩
        · rintro hd p rfl hp ⟨⟨readev, w⟩, hed, rfl, -⟩
          unfold send at hp
          refine handleOutput_ends (w := w) { hd with
            sendbuffer := hd.sendbuffer ++ data.map (c', ·) } hed (by simp [hdata])
            (fun heq => ?_) hp
          subst heq
          exact hg hreg
    · cases hs
  | close h =>
    refine hw.serve (f := fun hd k => some (hd.close k)) hs (fun hd p hp => ?_)
      fun hd p _ hp _ => ?_
    · cases hp
      exact close_frames
    · cases hp
      exact close_ends

/-- **An open connection is watched** in a run in which no call of its handler is interrupted, what
happens to the others being free. So it times out when nothing comes, and what is to be sent is sent
when the socket takes it. -/
theorem watched {hd : Handler Addr} (h : Machine.Reach Net.step (Spares c) start s)
    (hhd : s.handlers[c]? = some hd) (hfd : s.kernel.fds hd.eventObject = some c) :
    hd.Watched ∧ (∃ s', s.step (.readTimeout c) = some s' ∧ ¬ s'.Open c) ∧
      (hd.sendbuffer ≠ [] → ∃ s', s.step (.output c (.sent hd.sendbuffer.length true)) = some s' ∧
        s'.Open c ∧ (∀ hd' ∈ s'.handlers[c]?, hd'.sendbuffer = []) ∧
        s'.kernel.writes = s.kernel.writes ++ [⟨hd.eventObject, some c, hd.sendbuffer⟩]) := by
  have hwatches : Watches c s :=
    h.inv (I := Watches c) (fun hd hhd => by simp [start] at hhd) Watches.step
  have hwatched := hwatches hd hhd hfd
  obtain ⟨⟨readev, w⟩, hc, rfl, hwrite⟩ := id hwatched
  have hself : ∀ hd', (s.handlers.set c hd')[c]? = some hd' := fun hd' =>
    List.getElem?_set_self (List.getElem?_eq_some_iff.mp hhd).1
  refine ⟨hwatched, ?_, fun hne => ?_⟩
  · have hfire : hd.fireRead = some { hd with context := some ⟨.set false, w⟩ } := by
      simp [fireRead, hc]
    have hstep : s.step (.readTimeout c) = some _ :=
      serve_fired (fun hd k => some (hd.close k)) hhd hfire rfl
    refine ⟨_, hstep, ?_⟩
    rintro ⟨y, hy, hyfd⟩
    obtain rfl := Option.some.inj ((hself _).symm.trans hy)
    exact absurd (hyfd.symm.trans close_fds) (Option.some_ne_none c)
  · obtain rfl : w = .set true := hwrite.mpr hne
    have hfire : hd.fireWrite = some { hd with context := some ⟨.set true, .set false⟩ } := by
      simp [fireWrite, hc]
    have hall := handleOutput_all { hd with context := some ⟨.set true, .set false⟩ }
      (k := s.kernel) rfl hne hfd
    have hstep : s.step (.output c (.sent hd.sendbuffer.length true)) = some _ :=
      serve_fired (handleOutput (.sent hd.sendbuffer.length true)) hhd hfire hall
    refine ⟨_, hstep, ?_, ?_, rfl⟩
    · exact ⟨_, hself _, hfd⟩
    · intro hd' hhd'
      obtain rfl := Option.some.inj ((hself _).symm.trans hhd')
      rfl

/-- A result is sent in part, and a call of another handler is interrupted. -/
def interruptedOther : List (Event Nat) :=
  [.accept 5 80 true true, .input 0 (.received 1 true true),
    .push 0 80 (some [7, 8]) (.sent 1 true), .accept 6 81 true true, .input 1 .eintr]

theorem watched_sending : ∃ (s : Net Nat) (hd : Handler Nat), s.handlers[0]? = some hd ∧
    hd.Watched ∧ hd.sendbuffer = [(0, 8)] ∧
      ∃ s', s.step (.output 0 (.sent 1 true)) = some s' ∧
        s'.kernel.writes = [⟨5, some 0, [(0, 7)]⟩, ⟨5, some 0, [(0, 8)]⟩] := by
  have hreach : Machine.Reach Net.step (Spares 0) start _ :=
    Machine.Reach.init.run (fun _ _ => of_decide_eq_true) interruptedOther rfl
  obtain ⟨hwatched, -, hsend⟩ := watched hreach rfl rfl
  obtain ⟨s', hstep, -, -, hwrites⟩ := hsend (List.cons_ne_nil _ _)
  exact ⟨_, _, rfl, hwatched, rfl, s', hstep, hwrites⟩

/-! ### After an interrupted `recv` -/

omit [DecidableEq Addr] in
/-- An event that is not pending does not fire. -/
theorem serve_silent {hd : Handler Addr} {fire : Handler Addr → Option (Handler Addr)}
    {f : Handler Addr → Kernel Addr → Option (Handler Addr × Kernel Addr)}
    (hhd : s.handlers[c]? = some hd) (hfire : fire hd = none) :
    s.serve c (fun hd k => do f (← fire hd) k) = none := by
  simp [serve, hhd, hfire]

omit [DecidableEq Addr] in
theorem serve_other {h : Conn}
    {f : Handler Addr → Kernel Addr → Option (Handler Addr × Kernel Addr)}
    (hs : s.serve h f = some s') (hne : h ≠ c) : s'.handlers[c]? = s.handlers[c]? := by
  obtain ⟨hd, p, -, -, rfl⟩ := serve_eq hs
  exact List.getElem?_set_ne hne

omit [DecidableEq Addr] in
theorem serve_own {hd : Handler Addr}
    {f : Handler Addr → Kernel Addr → Option (Handler Addr × Kernel Addr)}
    (hs : s.serve c f = some s') (hhd : s.handlers[c]? = some hd) :
    ∃ p, f hd s.kernel = some p ∧ s'.handlers[c]? = some p.1 := by
  obtain ⟨hd', p, hhd', hp, rfl⟩ := serve_eq hs
  obtain rfl := Option.some.inj (hhd.symm.trans hhd')
  exact ⟨p, hp, List.getElem?_set_self (List.getElem?_eq_some_iff.mp hhd).1⟩

theorem accept_handlers {fd : Fd} {addr : Addr} {created added : Bool} {hd : Handler Addr}
    (hs : s.step (.accept fd addr created added) = some s') (hhd : s.handlers[c]? = some hd) :
    s'.handlers[c]? = some hd := by
  simp only [Net.step] at hs
  split at hs
  · cases hs
    unfold accept
    split
    · exact hhd
    · dsimp only
      split
      · exact hhd
      · exact (List.getElem?_append_left (List.getElem?_eq_some_iff.mp hhd).1).trans hhd
  · cases hs

/-- What a handler serves that is reached from outside. -/
theorem push_cases {c' : Conn} {addr : Addr} {encoded : Option (List UInt8)} {r : Sent}
    (hs : s.step (.push c' addr encoded r) = some s') :
    s' = s ∨ ∃ h data, s.reached (.push c' addr encoded r) = some h ∧
      (s.serve h (fun hd k => some (hd.close k)) = some s' ∨
        s.serve h (fun hd k => hd.send data r k) = some s') := by
  simp only [Net.step] at hs
  split at hs
  · split at hs
    · exact .inl (Option.some.inj hs).symm
    · exact .inl (Option.some.inj hs).symm
    · rename_i h hreg
      exact .inr ⟨h, [], hreg, .inl hs⟩
    · rename_i h data _ hreg
      exact .inr ⟨h, data.map (c', ·), hreg, .inr hs⟩
  · cases hs

/-- **A deaf handler stays deaf**, whatever happens. -/
theorem deaf_step {hd : Handler Addr} (hhd : s.handlers[c]? = some hd) (hdeaf : hd.Deaf)
    (hs : s.step e = some s') : ∃ hd', s'.handlers[c]? = some hd' ∧ hd'.Deaf := by
  have hserve : ∀ {h} {f : Handler Addr → Kernel Addr → Option (Handler Addr × Kernel Addr)},
      s.serve h f = some s' → (∀ p, h = c → f hd s.kernel = some p → p.1.Deaf) →
        ∃ hd', s'.handlers[c]? = some hd' ∧ hd'.Deaf := by
    intro h f hs hown
    by_cases heq : h = c
    · subst heq
      obtain ⟨p, hp, hhd'⟩ := serve_own hs hhd
      exact ⟨p.1, hhd', hown p rfl hp⟩
    · exact ⟨hd, (serve_other hs heq).trans hhd, hdeaf⟩
  cases e with
  | accept fd addr created added => exact ⟨hd, accept_handlers hs hhd, hdeaf⟩
  | input h r =>
    refine hserve (f := fun hd k => do (← hd.fireRead).handleInput r k) hs fun p _ hp => ?_
    obtain ⟨hd', hfired, -⟩ := Option.bind_eq_some_iff.mp hp
    rw [hdeaf.fireRead] at hfired
    cases hfired
  | readTimeout h =>
    refine hserve (f := fun hd k => do some ((← hd.fireRead).close k)) hs fun p _ hp => ?_
    obtain ⟨hd', hfired, -⟩ := Option.bind_eq_some_iff.mp hp
    rw [hdeaf.fireRead] at hfired
    cases hfired
  | output h r =>
    refine hserve (f := fun hd k => do (← hd.fireWrite).handleOutput r k) hs fun p _ hp => ?_
    obtain ⟨hd', hfired, hp⟩ := Option.bind_eq_some_iff.mp hp
    exact handleOutput_deaf (hdeaf.fireWrite hfired) hp
  | writeTimeout h =>
    refine hserve (f := fun hd k => do some ((← hd.fireWrite).close k)) hs fun p _ hp => ?_
    obtain ⟨hd', hfired, hp⟩ := Option.bind_eq_some_iff.mp hp
    cases hp
    exact removeHandler_deaf (hdeaf.fireWrite hfired) _
  | push c' addr encoded r =>
    rcases push_cases hs with rfl | ⟨h, data, -, hs | hs⟩
    · exact ⟨hd, hhd, hdeaf⟩
    · refine hserve hs fun p _ hp => ?_
      cases hp
      exact removeHandler_deaf hdeaf _
    · have hmore : Deaf { hd with sendbuffer := hd.sendbuffer ++ data } := hdeaf
      exact hserve hs fun p _ hp => handleOutput_deaf hmore hp
  | close h =>
    refine hserve (f := fun hd k => some (hd.close k)) hs fun p _ hp => ?_
    cases hp
    exact removeHandler_deaf hdeaf _

/-- A handler that waits for nothing and is not reached does not run. -/
theorem idle_step {hd : Handler Addr} (hhd : s.handlers[c]? = some hd) (hidle : hd.Idle)
    (hr : s.reached e ≠ some c) (hs : s.step e = some s') : s'.handlers[c]? = some hd := by
  have hserve : ∀ {h} {fire : Handler Addr → Option (Handler Addr)}
      {f : Handler Addr → Kernel Addr → Option (Handler Addr × Kernel Addr)}, fire hd = none →
      s.serve h (fun hd k => do f (← fire hd) k) = some s' → s'.handlers[c]? = some hd := by
    intro h fire f hfire hs
    refine (serve_other hs fun heq => ?_).trans hhd
    subst heq
    rw [serve_silent hhd hfire] at hs
    cases hs
  cases e with
  | accept fd addr created added => exact accept_handlers hs hhd
  | input h r => exact hserve hidle.deaf.fireRead hs
  | readTimeout h => exact hserve (f := fun hd k => some (hd.close k)) hidle.deaf.fireRead hs
  | output h r => exact hserve hidle.fireWrite hs
  | writeTimeout h => exact hserve (f := fun hd k => some (hd.close k)) hidle.fireWrite hs
  | push c' addr encoded r =>
    rcases push_cases hs with rfl | ⟨h, data, hreached, hs | hs⟩
    · exact hhd
    · have hne : h ≠ c := fun heq => hr (hreached.trans (congrArg some heq))
      exact (serve_other hs hne).trans hhd
    · have hne : h ≠ c := fun heq => hr (hreached.trans (congrArg some heq))
      exact (serve_other hs hne).trans hhd
  | close h =>
    have hne : h ≠ c := fun heq => hr (congrArg some heq)
    exact (serve_other (f := fun hd k => some (hd.close k)) hs hne).trans hhd

/-- The condition on a run: handlers that are reached are those of open connections, and no call of
`c` is interrupted. -/
def Spared (c : Conn) (s : Net Addr) (e : Event Addr) : Prop := s.OnlyOpen e ∧ Spares c s e

omit [DecidableEq Addr] in
instance (c : Conn) (s : Net Addr) (e : Event Addr) : Decidable (Spared c s e) :=
  inferInstanceAs (Decidable (_ ∧ _))

theorem owned_step (ho : s.Owned) (hg : s.OnlyOpen e) (hs : s.step e = some s') : s'.Owned :=
  ho.of_moves (ho.moves (fun h hr => .inl (hg h hr)) hs)

/-- What an interrupted `recv` leaves. -/
theorem interrupted_eq (hs : s.step (.input c .eintr) = some s₁) : ∃ hd w,
    s.handlers[c]? = some hd ∧ hd.context = some ⟨.set true, w⟩ ∧
      s₁ = { s with
        handlers := s.handlers.set c { hd with context := some ⟨.set false, w⟩ } } := by
  obtain ⟨hd, p, hhd, hp, rfl⟩ :=
    serve_eq (f := fun hd k => do (← hd.fireRead).handleInput .eintr k) hs
  obtain ⟨hd', hfired, hp⟩ := Option.bind_eq_some_iff.mp hp
  obtain ⟨w, hc, rfl⟩ := fireRead_eq hfired
  refine ⟨hd, w, hhd, hc, ?_⟩
  unfold Handler.handleInput at hp
  split at hp
  · rename_i heq
    cases heq
  · cases hp
  · rename_i heq _
    cases heq
  · cases hp
    rfl
  · rename_i heq _
    cases heq

/-- **After an interrupted `recv` nothing more is read**: in every run from there the handler takes
no input and does not time out. If it is the first call of the handler that is interrupted, the
handlers that were reached were those of open connections, and nothing was to be sent, the
connection stays open as long as that goes on, no result for it comes and nobody closes it, its peer
being gone or not. -/
theorem interrupted_deaf (hs : s.step (.input c .eintr) = some s₁) :
    (∀ s', Machine.Reach Net.step Machine.free s₁ s' →
      (∀ r, s'.step (.input c r) = none) ∧ s'.step (.readTimeout c) = none) ∧
    (Machine.Reach Net.step (Spared c) start s → (∀ hd ∈ s.handlers[c]?, hd.sendbuffer = []) →
      ∀ s', Machine.Reach Net.step (Unserved c) s₁ s' → s'.Open c) := by
  obtain ⟨hd, w, hhd, hc, rfl⟩ := interrupted_eq hs
  have hself : (s.handlers.set c { hd with context := some ⟨.set false, w⟩ })[c]? =
      some { hd with context := some ⟨.set false, w⟩ } :=
    List.getElem?_set_self (List.getElem?_eq_some_iff.mp hhd).1
  refine ⟨fun s' h' => ?_, fun h hempty s' h' => ?_⟩
  · have hdeaf : ∃ hd', s'.handlers[c]? = some hd' ∧ hd'.Deaf := by
      refine h'.inv (I := fun s => ∃ hd', s.handlers[c]? = some hd' ∧ hd'.Deaf) ?_ ?_
      · refine ⟨_, hself, fun ed hed => ?_⟩
        obtain rfl := Option.some.inj hed
        simp
      · rintro s e s' ⟨hd', hhd', hdeaf⟩ - hs
        exact deaf_step hhd' hdeaf hs
    obtain ⟨hd', hhd', hdeaf⟩ := hdeaf
    exact ⟨fun r => serve_silent (f := fun hd k => hd.handleInput r k) hhd' hdeaf.fireRead,
      serve_silent (f := fun hd k => some (hd.close k)) hhd' hdeaf.fireRead⟩
  · -- before the interrupted call the handler was watched, so its write event is not pending
    have hbefore : s.Owned ∧ Watches c s :=
      h.inv (I := fun s => s.Owned ∧ Watches c s)
        ⟨owned_start, fun hd hhd => by simp [start] at hhd⟩
        fun hI hg hs => ⟨owned_step hI.1 hg.1 hs, hI.2.step hg.2 hs⟩
    obtain ⟨howned, hwatches⟩ := hbefore
    have hfd := (howned.live hhd hc).2
    obtain ⟨ed, hed, -, hwrite⟩ := hwatches hd hhd hfd
    obtain rfl := Option.some.inj (hc.symm.trans hed)
    have hquiet : w ≠ .set true := fun heq => hwrite.mp heq (hempty hd hhd)
    have hidle : Idle { hd with context := some ⟨.set false, w⟩ } := by
      intro ed hed
      obtain rfl := Option.some.inj hed
      exact ⟨by simp, hquiet⟩
    have hafter : s'.Owned ∧ s'.handlers[c]? =
        some { hd with context := some ⟨.set false, w⟩ } := by
      refine h'.inv (I := fun s => s.Owned ∧ s.handlers[c]? = some _) ⟨?_, hself⟩ ?_
      · exact howned.of_served (p := ({ hd with context := some ⟨.set false, w⟩ }, s.kernel)) hhd
          (serves_self ⟨_, rfl, by simp⟩) rfl rfl (.inl hfd)
      · rintro s e s' ⟨ho, hhd'⟩ ⟨hopen, hr⟩ hs
        exact ⟨owned_step ho hopen hs, idle_step hhd' hidle hr hs⟩
    exact ⟨_, hafter.2, (hafter.1.live hafter.2 rfl).2⟩

theorem interrupted_deaf_open : ∃ s s₁ s' : Net Nat, start.step (.accept 5 80 true true) = some s ∧
    s.step (.input 0 .eintr) = some s₁ ∧
    Machine.run Net.step (fun s e => decide (Unserved 0 s e))
      [.accept 6 81 true true, .input 1 .closed] s₁ = some s' ∧
    s'.Open 0 ∧ ¬ s'.Open 1 ∧ s'.step (.input 0 .closed) = none := by
  have hreach : Machine.Reach Net.step (Spared 0) start (Net.accept start 5 80 true true) :=
    Machine.Reach.init.run (fun _ _ => of_decide_eq_true) [.accept 5 80 true true] rfl
  obtain ⟨hsilent, hopen⟩ := interrupted_deaf (s := Net.accept start 5 80 true true) (c := 0) rfl
  refine ⟨_, _, _, rfl, rfl, rfl, ?_, by decide, ?_⟩
  · exact hopen hreach (fun hd hhd => by cases hhd; rfl) _
      (Machine.Reach.init.run (fun _ _ => of_decide_eq_true)
        [.accept 6 81 true true, .input 1 .closed] rfl)
  · exact (hsilent _ (Machine.reach_of_run [.accept 6 81 true true, .input 1 .closed] rfl)).1
      .closed

end Net

end Domq.Netmgr.Connections

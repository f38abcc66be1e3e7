import Domq.Netmgr.Watch

/-!
# What a client receives

The bytes that are written to a connection are the results of its requests, whole and in the order
in which `PushMsgCallBack::Call` takes them, however the socket cuts them into writes and whatever
other connections do in between (`msgcallback.cpp`, `eventhandler.cpp`). The runs are those of
`routed`: a result finds the handler of its own connection, whose descriptor number no other
connection has.

* `Posts`: the runs with the results that are passed to `Send`.
* `Sends`: a handler takes off the front of its buffer what it writes.

Result: `client_stream`: for a connection that is open, what was written and what is buffered are
its results one after another; for any other, what was written is a beginning of them.
-/

namespace Domq.Netmgr.Connections

open Domq.Lib Function

/-- The bytes written to a connection. -/
def Kernel.written {Addr : Type} (k : Kernel Addr) (c : Conn) : List (Conn × UInt8) :=
  k.writes.flatMap fun w => if w.owner = some c then w.bytes else []

/-- The results for a connection, one after another. -/
def resultsOf (l : List (Conn × List UInt8)) (c : Conn) : List (Conn × UInt8) :=
  l.flatMap fun x => if x.1 = c then x.2.map (c, ·) else []

theorem resultsOf_append (l l' : List (Conn × List UInt8)) (c : Conn) :
    resultsOf (l ++ l') c = resultsOf l c ++ resultsOf l' c := List.flatMap_append

/-! ## A handler -/

namespace Handler

variable {Addr : Type} {hd : Handler Addr} {k : Kernel Addr} {p : Handler Addr × Kernel Addr}

/-- It writes nothing. -/
def Keeps (hd : Handler Addr) (k : Kernel Addr) (p : Handler Addr × Kernel Addr) : Prop :=
  p.1.sendbuffer = hd.sendbuffer ∧ p.2.writes = k.writes

/-- What it writes it takes off the front of its buffer. -/
inductive Sends (hd : Handler Addr) (k : Kernel Addr) (p : Handler Addr × Kernel Addr) : Prop
  | nothing (h : hd.Keeps k p)
  | bytes (n : Nat) (c : Conn) (hfd : k.fds hd.eventObject = some c)
      (hbuffer : p.1.sendbuffer = hd.sendbuffer.drop n)
      (hwrites : p.2.writes = k.writes ++ [⟨hd.eventObject, some c, hd.sendbuffer.take n⟩])

theorem removeHandler_keeps (mask : Mask) : hd.Keeps k (hd.removeHandler mask k) := by
  unfold removeHandler
  cases hd.context with
  | none => exact ⟨rfl, rfl⟩
  | some ed =>
    dsimp only
    generalize containEvent _ = b
    cases b with
    | true => exact ⟨rfl, rfl⟩
    | false => exact ⟨rfl, rfl⟩

theorem registerOrClose_keeps (mask : Mask) (added : Bool) :
    hd.Keeps k (hd.registerOrClose mask added k) := by
  cases added with
  | true => exact ⟨rfl, rfl⟩
  | false =>
    have hclose : (hd.registerHandler mask false).Keeps k
        ((hd.registerHandler mask false).close k) := removeHandler_keeps _
    exact hclose

theorem handleInput_sends {r : Recv} (hi : hd.handleInput r k = some p) : hd.Sends k p := by
  unfold handleInput at hi
  split at hi
  · cases hi
    exact .nothing (removeHandler_keeps _)
  · cases hi
  · cases hi
    exact .nothing (removeHandler_keeps _)
  · cases hi
    exact .nothing ⟨rfl, rfl⟩
  · rename_i messages extracted added c hfd
    split at hi
    · cases hi
      have hreg : hd.Keeps { k with
          requests := k.requests ++ List.replicate messages (c, hd.peerAddr) } _ :=
        registerOrClose_keeps ⟨true, false⟩ added
      exact .nothing hreg
    · cases hi
      have hclose : hd.Keeps { k with
          requests := k.requests ++ List.replicate messages (c, hd.peerAddr) } _ :=
        removeHandler_keeps ⟨true, true⟩
      exact .nothing hclose

/-- A handler that has written `n` bytes and goes on. -/
theorem Sends.wrote {n : Nat} {c : Conn} (hfd : k.fds hd.eventObject = some c)
    (h : Keeps { hd with sendbuffer := hd.sendbuffer.drop n }
      { k with writes := k.writes ++ [⟨hd.eventObject, some c, hd.sendbuffer.take n⟩] } p) :
    hd.Sends k p := .bytes n c hfd h.1 h.2

theorem handleOutput_sends {r : Sent} (ho : hd.handleOutput r k = some p) : hd.Sends k p := by
  unfold handleOutput at ho
  split at ho
  · cases ho
    exact .nothing ⟨rfl, rfl⟩
  · split at ho
    · cases ho
      exact .nothing (removeHandler_keeps _)
    · cases ho
    · cases ho
      exact .nothing ⟨rfl, rfl⟩
    · cases ho
      exact .nothing (registerOrClose_keeps _ _)
    · rename_i n added c hfd
      split at ho
      · cases ho
      · split at ho
        · cases ho
          exact .nothing (removeHandler_keeps _)
        · dsimp only at ho
          split at ho
          · cases ho
            exact .wrote hfd (removeHandler_keeps _)
          · cases ho
            exact .wrote hfd (registerOrClose_keeps _ _)

/-- What is written and what is buffered stay the same together, and other connections get
nothing. -/
theorem Sends.written (h : hd.Sends k p) (c : Conn) :
    (k.fds hd.eventObject = some c →
      p.2.written c ++ p.1.sendbuffer = k.written c ++ hd.sendbuffer) ∧
    (k.fds hd.eventObject ≠ some c → p.2.written c = k.written c) := by
  cases h with
  | nothing h =>
    have hsame : p.2.written c = k.written c := by simp only [Kernel.written, h.2]
    exact ⟨fun _ => by rw [hsame, h.1], fun _ => hsame⟩
  | bytes n c' hfd hbuffer hwrites =>
    simp only [Kernel.written, hwrites, hbuffer, hfd, List.flatMap_append, List.flatMap_singleton]
    refine ⟨fun heq => ?_, fun hne => ?_⟩
    · rw [if_pos heq, List.append_assoc, List.take_append_drop]
    · rw [if_neg hne, List.append_nil]

end Handler

/-! ## The I/O thread -/

namespace Net

open Connections.Handler

variable {Addr : Type} {s s' : Net Addr} {e : Event Addr} {l : List (Conn × List UInt8)}

/-- What the step passes to `Send`, with the connection of the request. -/
def posted (s : Net Addr) : Event Addr → List (Conn × List UInt8)
  | .push c addr (some data) _ => if s.registry addr = none then [] else [(c, data)]
  | _ => []

/-- The runs, with the results that are passed to `Send`. -/
inductive Posts [DecidableEq Addr] : List (Conn × List UInt8) → Net Addr → Prop
  | init : Posts [] start
  | step {l : List (Conn × List UInt8)} {s s' : Net Addr} (e : Event Addr) (h : Posts l s)
      (hg : s.Unshared e) (hs : s.step e = some s') : Posts (l ++ s.posted e) s'

/-- What holds along the run. -/
structure Delivered (l : List (Conn × List UInt8)) (s : Net Addr) : Prop where
  owned : s.Owned
  fresh : ∀ c, s.handlers.length ≤ c → resultsOf l c = []
  begins : ∀ c, s.kernel.written c <+: resultsOf l c
  whole : ∀ c hd, s.handlers[c]? = some hd → s.kernel.fds hd.eventObject = some c →
    s.kernel.written c ++ hd.sendbuffer = resultsOf l c

/-- A handler runs, with the results `new` put behind its buffer. -/
theorem Delivered.serve (new : List (Conn × List UInt8)) (data : List (Conn × UInt8)) {h : Conn}
    {f : Handler Addr → Kernel Addr → Option (Handler Addr × Kernel Addr)}
    (hd : Delivered l s) (hs : s.serve h f = some s') (howned : s'.Owned)
    (hrun : ∀ y p, f y s.kernel = some p → y.Frames s.kernel p ∧
      Sends { y with sendbuffer := y.sendbuffer ++ data } s.kernel p)
    (hown : ∀ y, s.handlers[h]? = some y →
      s.kernel.fds y.eventObject = some h ∨ s.kernel.fds y.eventObject = none)
    (hnew : ∀ c, resultsOf new c = if c = h then data else []) : Delivered (l ++ new) s' := by
  obtain ⟨y, p, hy, hp, rfl⟩ := serve_eq hs
  obtain ⟨hframes, hsends⟩ := hrun y p hp
  have hlt : h < s.handlers.length := (List.getElem?_eq_some_iff.mp hy).1
  have hother : ∀ {c}, c ≠ h → p.2.written c = s.kernel.written c ∧
      resultsOf (l ++ new) c = resultsOf l c := by
    intro c hne
    refine ⟨(hsends.written c).2 fun hfd => ?_, ?_⟩
    · rcases hown y hy with hh | hnone
      · exact hne (Option.some.inj (hfd.symm.trans hh))
      · cases hfd.symm.trans hnone
    · rw [resultsOf_append, hnew, if_neg hne, List.append_nil]
  have hself : resultsOf (l ++ new) h = resultsOf l h ++ data := by
    rw [resultsOf_append, hnew, if_pos rfl]
  have hwhole : s.kernel.fds y.eventObject = some h →
      p.2.written h ++ p.1.sendbuffer = resultsOf (l ++ new) h := by
    intro hfd
    rw [(hsends.written h).1 hfd, hself, ← hd.whole h y hy hfd, List.append_assoc]
  refine ⟨howned, fun c hc => ?_, fun c => ?_, fun c z hz hfd => ?_⟩
  · have hle : s.handlers.length ≤ c := by simpa using hc
    rw [(hother (Nat.ne_of_gt (Nat.lt_of_lt_of_le hlt hle))).2]
    exact hd.fresh c hle
  · by_cases heq : c = h
    · subst heq
      rcases hown y hy with hfd | hnone
      · exact ⟨_, hwhole hfd⟩
      · -- a handler without its descriptor writes nothing
        have hsame := (hsends.written c).2 fun hfd => by cases hfd.symm.trans hnone
        show p.2.written c <+: _
        rw [hsame, hself]
        exact (hd.begins c).trans (List.prefix_append _ _)
    · show p.2.written c <+: _
      rw [(hother heq).1, (hother heq).2]
      exact hd.begins c
  · rcases getElem?_set_cases hz with ⟨rfl, rfl⟩ | ⟨hne, hz⟩
    · exact hwhole (hframes.eventObject ▸ hframes.opens hfd)
    · show p.2.written c ++ _ = _
      rw [(hother hne).1, (hother hne).2]
      exact hd.whole c z hz (hframes.opens hfd)

/-- A handler runs that is sent nothing. -/
theorem Delivered.ran {h : Conn}
    {f : Handler Addr → Kernel Addr → Option (Handler Addr × Kernel Addr)}
    (hd : Delivered l s) (hs : s.serve h f = some s') (howned : s'.Owned)
    (hrun : ∀ y p, f y s.kernel = some p → y.Frames s.kernel p ∧ y.Sends s.kernel p)
    (hown : ∀ y, s.handlers[h]? = some y →
      s.kernel.fds y.eventObject = some h ∨ s.kernel.fds y.eventObject = none) :
    Delivered l s' := by
  have hran := hd.serve [] [] hs howned
    (fun y p hp => by rw [List.append_nil]; exact hrun y p hp) hown fun c => by simp [resultsOf]
  rwa [List.append_nil] at hran

/-- An event of the handler's own fires. -/
theorem Delivered.fired {h : Conn} {fire : Handler Addr → Option (Handler Addr)}
    {f : Handler Addr → Kernel Addr → Option (Handler Addr × Kernel Addr)}
    (hd : Delivered l s) (hs : s.serve h (fun hd k => do f (← fire hd) k) = some s')
    (howned : s'.Owned)
    (hfire : ∀ {y y'}, fire y = some y' → ∃ ed ed', y.context = some ed ∧
      y' = { y with context := some ed' })
    (hruns : ∀ {y p}, f y s.kernel = some p → y.Runs s.kernel p)
    (hsends : ∀ {y p}, f y s.kernel = some p → y.Sends s.kernel p) : Delivered l s' := by
  refine hd.ran hs howned (fun y p hp => ?_) fun y hy => ?_
  · obtain ⟨y', hfired, hp⟩ := Option.bind_eq_some_iff.mp hp
    obtain ⟨ed, ed', -, rfl⟩ := hfire hfired
    have hframe := (hruns hp).frames
    refine ⟨⟨hframe.eventObject, hframe.fds⟩, ?_⟩
    cases hsends hp with
    | nothing h => exact .nothing h
    | bytes n c hfd hbuffer hwrites => exact .bytes n c hfd hbuffer hwrites
  · obtain ⟨y', p, hy', hp, -⟩ := serve_eq hs
    obtain rfl := Option.some.inj (hy.symm.trans hy')
    obtain ⟨y'', hfired, -⟩ := Option.bind_eq_some_iff.mp hp
    obtain ⟨ed, -, hed, -⟩ := hfire hfired
    exact .inl (hd.owned.live hy hed).2

theorem fireRead_context {y y' : Handler Addr} (h : y.fireRead = some y') :
    ∃ ed ed', y.context = some ed ∧ y' = { y with context := some ed' } := by
  obtain ⟨w, hc, rfl⟩ := fireRead_eq h
  exact ⟨_, _, hc, rfl⟩

theorem fireWrite_context {y y' : Handler Addr} (h : y.fireWrite = some y') :
    ∃ ed ed', y.context = some ed ∧ y' = { y with context := some ed' } := by
  obtain ⟨r, hc, rfl⟩ := fireWrite_eq h
  exact ⟨_, _, hc, rfl⟩

theorem own_of_steady {h : Conn} (hsteady : s.Open h ∨ s.Unused h) (y : Handler Addr)
    (hy : s.handlers[h]? = some y) :
    s.kernel.fds y.eventObject = some h ∨ s.kernel.fds y.eventObject = none := by
  rcases hsteady with ⟨y', hy', hfd⟩ | hunused
  · obtain rfl := Option.some.inj (hy.symm.trans hy')
    exact .inl hfd
  · exact .inr (hunused y hy)

/-- `Close`, by its own event or from outside. -/
theorem Delivered.closed {h : Conn} (hd : Delivered l s)
    (hs : s.serve h (fun hd k => some (hd.close k)) = some s') (howned : s'.Owned)
    (hsteady : s.Open h ∨ s.Unused h) : Delivered l s' := by
  refine hd.ran hs howned (fun y p hp => ?_) (own_of_steady hsteady)
  cases hp
  exact ⟨close_frames, .nothing (removeHandler_keeps _)⟩

variable [DecidableEq Addr]

/-- **A step.** -/
theorem Delivered.step (hd : Delivered l s) (hg : s.Unshared e) (hs : s.step e = some s') :
    Delivered (l ++ s.posted e) s' := by
  have howned : s'.Owned := hd.owned.of_moves (hd.owned.moves (fun h hr => (hg h hr).1) hs)
  have hclose : ∀ {y : Handler Addr} {p}, some (y.close s.kernel) = some p →
      y.Runs s.kernel p ∧ y.Sends s.kernel p := by
    intro y p hp
    cases hp
    exact ⟨removeHandler_runs _, .nothing (removeHandler_keeps _)⟩
  cases e with
  | accept fd addr created added =>
    show Delivered (l ++ []) s'
    rw [List.append_nil]
    simp only [Net.step] at hs
    split at hs
    · rename_i hfree
      cases hs
      unfold accept at howned ⊢
      split
      · exact hd
      · rename_i hcreated
        rw [if_neg hcreated] at howned
        dsimp only at howned ⊢
        split
        · rename_i hadded
          rw [if_pos hadded] at howned
          exact ⟨howned, hd.fresh, hd.begins, hd.whole⟩
        · rename_i hadded
          rw [if_neg hadded] at howned
          refine ⟨howned, fun c hc => hd.fresh c ?_, hd.begins, fun c y hy hfd => ?_⟩
          · have hlen : s.handlers.length + 1 ≤ c := by simpa using hc
            omega
          · rcases getElem?_append_cases hy with ⟨rfl, rfl⟩ | ⟨hlt, hy⟩
            · -- nothing was written for a connection that did not exist
              have hnone := hd.fresh _ (Nat.le_refl s.handlers.length)
              have hwritten := List.prefix_nil.mp (hnone ▸ hd.begins s.handlers.length)
              exact (congrArg (· ++ []) hwritten).trans hnone.symm
            · exact hd.whole c y hy (opens_of_accept hlt hfd)
    · cases hs
  | input h r =>
    show Delivered (l ++ []) s'
    rw [List.append_nil]
    exact hd.fired hs howned fireRead_context handleInput_runs handleInput_sends
  | output h r =>
    show Delivered (l ++ []) s'
    rw [List.append_nil]
    exact hd.fired hs howned fireWrite_context handleOutput_runs handleOutput_sends
  | readTimeout h =>
    show Delivered (l ++ []) s'
    rw [List.append_nil]
    exact hd.fired (f := fun hd k => some (hd.close k)) hs howned fireRead_context
      (fun hp => (hclose hp).1) fun hp => (hclose hp).2
  | writeTimeout h =>
    show Delivered (l ++ []) s'
    rw [List.append_nil]
    exact hd.fired (f := fun hd k => some (hd.close k)) hs howned fireWrite_context
      (fun hp => (hclose hp).1) fun hp => (hclose hp).2
  | push c addr encoded r =>
    simp only [Net.step] at hs
    split at hs
    · split at hs
      · rename_i hreg
        cases hs
        have hposted : ∀ encoded, s.posted (.push c addr encoded r) = [] := by
          intro encoded
          cases encoded with
          | none => rfl
          | some data => exact if_pos hreg
        rw [hposted, List.append_nil]
        exact hd
      · cases hs
        show Delivered (l ++ []) s
        rw [List.append_nil]
        exact hd
      · rename_i h hreg
        have hposted : s.posted (.push c addr (some []) r) = [(c, [])] :=
          if_neg (by rw [hreg]; exact Option.some_ne_none h)
        rw [hposted]
        refine hd.serve [(c, [])] [] hs howned (fun y p hp => ?_)
          (own_of_steady (hg h hreg).1) fun c' => by simp [resultsOf]
        rw [List.append_nil]
        exact ⟨(hclose hp).1.frames, (hclose hp).2⟩
      · rename_i h data hne hreg
        have hposted : s.posted (.push c addr (some data) r) = [(c, data)] :=
          if_neg (by rw [hreg]; exact Option.some_ne_none h)
        obtain ⟨hsteady, hrequest⟩ := hg h hreg
        obtain rfl : h = c := hrequest c rfl
        rw [hposted]
        refine hd.serve [(h, data)] (data.map (h, ·)) hs howned (fun y p hp => ?_)
          (own_of_steady hsteady) fun c' => ?_
        · have hframe := (handleOutput_runs hp).frames
          exact ⟨⟨hframe.eventObject, hframe.fds⟩, handleOutput_sends hp⟩
        · by_cases heq : c' = h
          · subst heq
            simp [resultsOf]
          · simp [resultsOf, heq, Ne.symm heq]
    · cases hs
  | close h =>
    show Delivered (l ++ []) s'
    rw [List.append_nil]
    exact hd.closed hs howned (hg h rfl).1

theorem delivered_of_posts (h : Posts l s) : Delivered l s := by
  induction h with
  | init =>
    refine ⟨owned_start, fun _ _ => rfl, fun _ => List.prefix_refl _, fun c y hy => ?_⟩
    simp [start] at hy
  | step e _ hg hs ih => exact ih.step hg hs

/-- **A connection gets its results one after another**: while it is open, what was written to it
and what is buffered for it are the results of its requests, in the order in which they were passed
to `Send`, with nothing missing, repeated or of another connection; and whatever happens to a
connection, what was written to it is a beginning of them. -/
theorem client_stream (h : Posts l s) (c : Conn) :
    s.kernel.written c <+: resultsOf l c ∧ ∀ hd, s.handlers[c]? = some hd →
      s.kernel.fds hd.eventObject = some c →
        s.kernel.written c ++ hd.sendbuffer = resultsOf l c :=
  ⟨(delivered_of_posts h).begins c, (delivered_of_posts h).whole c⟩

/-- Two results for one connection, of which a part is written. -/
theorem client_stream_two : ∃ (l : List (Conn × List UInt8)) (s : Net Nat) (hd : Handler Nat),
    Posts l s ∧ s.handlers[0]? = some hd ∧ resultsOf l 0 = [(0, 7), (0, 8), (0, 9)] ∧
      s.kernel.written 0 = [(0, 7)] ∧ s.kernel.written 0 ++ hd.sendbuffer = resultsOf l 0 := by
  have h₁ := (Posts.init.step (.accept 5 80 true true) (by decide) rfl).step
    (.accept 6 81 true true) (by decide) rfl
  have h₂ := h₁.step (.input 0 (.received 2 true true)) (by decide) rfl
  have h₃ := (h₂.step (.push 0 80 (some [7, 8]) (.sent 1 true)) (by decide) rfl).step
    (.push 0 80 (some [9]) (.eagain true)) (by decide) rfl
  exact ⟨_, _, _, h₃, rfl, rfl, rfl, (client_stream h₃ 0).2 _ rfl rfl⟩

end Net

end Domq.Netmgr.Connections

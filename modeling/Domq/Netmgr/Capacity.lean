import Domq.Base.Pool
import Domq.Netmgr.Connections
import Mathlib.Data.Set.Card

/-!
# The capacity of an acceptor

`netmgr::Acceptor` takes its handlers out of a pool of at most `MAX_CONNECTION` objects
(`ObjectPoolAllocator`, `base/util/allocator.h`), and `DestroyHandler` gives a handler back and
takes its name out of the registry. Only `Acceptor::HandleInput` calls it, when `Open` fails;
`NetMgrEventHandler::HandleClose` does not.

An `Acceptor` is the connections of `Domq.Netmgr.Connections` with the pool, which decides whether a
handler can be created. Memory does not run out, and of the connections to one listening socket no
two that are open come from one address.

* `Counts`: what holds in every state of every run. The objects taken out of the pool are the
  connections accepted so far, whether or not they are still open.
* `balanced_iff`: the pool and the registry agree with the number of open connections exactly as
  long as no connection has been closed.
-/

namespace Domq.Netmgr

open Domq.Lib Function

/-! ## `ObjectPoolAllocator` -/

/-- The objects of a pool are numbered as they are constructed. -/
structure ObjectPoolAllocator where
  freeObject : List Nat
  currentNum : Nat
  maxNum : Nat
  onceIncNum : Nat

namespace ObjectPoolAllocator

/-- `inc`; `none` when it returns `-1`. -/
def inc (iIncNum : Nat) (p : ObjectPoolAllocator) : Option ObjectPoolAllocator :=
  if p.maxNum ≤ p.currentNum then none
  else
    let n := if p.maxNum < p.currentNum + iIncNum then p.maxNum - p.currentNum else iIncNum
    some { p with
      freeObject := p.freeObject ++ List.range' p.currentNum n
      currentNum := p.currentNum + n }

/-- The constructor. -/
def new (iInitNum iMaxNum iIncNum : Nat) : ObjectPoolAllocator :=
  let p : ObjectPoolAllocator :=
    if iMaxNum < iInitNum then ⟨[], 0, iInitNum, 0⟩ else ⟨[], 0, iMaxNum, iIncNum⟩
  (p.inc iInitNum).getD p

/-- Takes the first of the free objects. -/
def pop (p : ObjectPoolAllocator) : Option (Nat × ObjectPoolAllocator) :=
  match p.freeObject with
  | [] => none
  | o :: rest => some (o, { p with freeObject := rest })

/-- `Create`; `none` when it returns `NULL`. -/
def create (p : ObjectPoolAllocator) : Option (Nat × ObjectPoolAllocator) :=
  match p.freeObject with
  | [] => (p.inc p.onceIncNum).bind pop
  | _ :: _ => p.pop

/-- `Destroy`. -/
def destroy (o : Nat) (p : ObjectPoolAllocator) : ObjectPoolAllocator :=
  { p with freeObject := o :: p.freeObject }

/-- The objects taken out and not given back. -/
def checkedOut (p : ObjectPoolAllocator) : Nat := p.currentNum - p.freeObject.length

/-- There are no more free objects than objects, and no more objects than allowed. -/
structure Valid (p : ObjectPoolAllocator) : Prop where
  free_le : p.freeObject.length ≤ p.currentNum
  current_le : p.currentNum ≤ p.maxNum
  grows : 0 < p.onceIncNum

variable {p p' : ObjectPoolAllocator}

theorem Valid.inc {n : Nat} (hv : p.Valid) (hi : p.inc n = some p') :
    p'.Valid ∧ p'.checkedOut = p.checkedOut ∧ p'.maxNum = p.maxNum ∧
      (0 < n → p'.freeObject ≠ []) := by
  obtain ⟨hfree, hcur, hgrows⟩ := hv
  unfold ObjectPoolAllocator.inc at hi
  split at hi
  · cases hi
  · cases hi
    refine ⟨⟨?_, ?_, hgrows⟩, ?_, rfl, ?_⟩
    · simp only [List.length_append, List.length_range']
      omega
    · simp only
      split
      · omega
      · omega
    · simp only [checkedOut, List.length_append, List.length_range']
      omega
    · intro hn hnil
      have hlen := congrArg List.length hnil
      simp only [List.length_append, List.length_range', List.length_nil] at hlen
      split at hlen
      · omega
      · omega

/-- A new pool has no object out. -/
theorem valid_new {iInitNum iMaxNum iIncNum : Nat} (hle : iInitNum ≤ iMaxNum)
    (hinc : 0 < iIncNum) : (new iInitNum iMaxNum iIncNum).Valid ∧
      (new iInitNum iMaxNum iIncNum).checkedOut = 0 ∧
      (new iInitNum iMaxNum iIncNum).maxNum = iMaxNum := by
  have hv : Valid ⟨[], 0, iMaxNum, iIncNum⟩ := ⟨Nat.le_refl _, Nat.zero_le _, hinc⟩
  have hnew : new iInitNum iMaxNum iIncNum =
      (inc iInitNum ⟨[], 0, iMaxNum, iIncNum⟩).getD ⟨[], 0, iMaxNum, iIncNum⟩ := by
    unfold new
    rw [if_neg (Nat.not_lt.mpr hle)]
  rw [hnew]
  cases hi : inc iInitNum ⟨[], 0, iMaxNum, iIncNum⟩ with
  | none => exact ⟨hv, rfl, rfl⟩
  | some p' =>
    obtain ⟨hv', hout, hmax, -⟩ := hv.inc hi
    exact ⟨hv', hout, hmax⟩

theorem Valid.pop {o : Nat} (hv : p.Valid) (hp : p.pop = some (o, p')) :
    p'.Valid ∧ p'.checkedOut = p.checkedOut + 1 ∧ p'.maxNum = p.maxNum := by
  obtain ⟨hfree, hcur, hgrows⟩ := hv
  unfold ObjectPoolAllocator.pop at hp
  split at hp
  · cases hp
  · rename_i o' rest heq
    cases hp
    rw [heq, List.length_cons] at hfree
    refine ⟨⟨?_, hcur, hgrows⟩, ?_, rfl⟩
    · simp only
      omega
    · simp only [checkedOut, heq, List.length_cons]
      omega

/-- `Create` takes one object out. -/
theorem Valid.create {o : Nat} (hv : p.Valid) (hc : p.create = some (o, p')) :
    p'.Valid ∧ p'.checkedOut = p.checkedOut + 1 ∧ p'.maxNum = p.maxNum := by
  unfold ObjectPoolAllocator.create at hc
  split at hc
  · obtain ⟨p₁, hi, hp⟩ := Option.bind_eq_some_iff.mp hc
    obtain ⟨hv₁, hout, hmax, -⟩ := hv.inc hi
    obtain ⟨hv', hout', hmax'⟩ := hv₁.pop hp
    exact ⟨hv', by rw [hout', hout], hmax'.trans hmax⟩
  · exact hv.pop hc

/-- `Create` returns `NULL` only when all objects are out. -/
theorem Valid.create_eq_none (hv : p.Valid) (hc : p.create = none) : p.checkedOut = p.maxNum := by
  have hcur := hv.current_le
  unfold ObjectPoolAllocator.create at hc
  split at hc
  · rename_i hnil
    rcases Option.bind_eq_none_iff.mp hc with hinc
    cases hi : p.inc p.onceIncNum with
    | none =>
      unfold ObjectPoolAllocator.inc at hi
      split at hi
      · simp only [checkedOut, hnil, List.length_nil]
        omega
      · cases hi
    | some p₁ =>
      have hne := (hv.inc hi).2.2.2 hv.grows
      have hpop := hinc p₁ hi
      unfold ObjectPoolAllocator.pop at hpop
      split at hpop
      · contradiction
      · cases hpop
  · rename_i heq
    unfold ObjectPoolAllocator.pop at hc
    rw [heq] at hc
    cases hc

/-- An object that was just taken out is given back. -/
theorem Valid.destroy {o : Nat} (hv : p.Valid) (hout : 0 < p.checkedOut) :
    (p.destroy o).Valid ∧ (p.destroy o).checkedOut = p.checkedOut - 1 := by
  obtain ⟨hfree, hcur, hgrows⟩ := hv
  unfold checkedOut at hout ⊢
  refine ⟨⟨?_, hcur, hgrows⟩, ?_⟩
  · simp only [ObjectPoolAllocator.destroy, List.length_cons]
    omega
  · simp only [ObjectPoolAllocator.destroy, List.length_cons]
    omega

/-! ### Against the pool with its `size_t` -/

/-- The pool of `Domq.Base.Pool`; all its objects are counted. -/
def toBase (p : ObjectPoolAllocator) : Base.ObjectPoolAllocator :=
  ⟨p.freeObject, .ofNat p.currentNum, .ofNat p.maxNum, .ofNat p.onceIncNum, p.currentNum⟩

/-- As long as no number wraps, `Create` is that of the pool with its `size_t`. -/
theorem create_toBase (hv : p.Valid) (hw : p.maxNum + p.onceIncNum < 2 ^ 64) :
    p.toBase.create =
      (p.create.map fun x => (Base.Created.object x.1, x.2.toBase)).getD (.null, p.toBase) := by
  have hcur := hv.current_le
  have hgrows := hv.grows
  have hnum : ∀ n ≤ p.maxNum + p.onceIncNum, (UInt64.ofNat n).toNat = n := fun n hn =>
    UInt64.toNat_ofNat_of_lt' (Nat.lt_of_le_of_lt hn hw)
  have hc : p.toBase.currentNum.toNat = p.currentNum := hnum _ (by omega)
  have hm : p.toBase.maxNum.toNat = p.maxNum := hnum _ (by omega)
  have ho : p.toBase.onceIncNum.toNat = p.onceIncNum := hnum _ (by omega)
  rcases Base.ObjectPoolAllocator.create_cases p.toBase with ⟨o, rest, hfree, h⟩ |
    ⟨hfree, hfull, h⟩ | ⟨hfree, hlt, hzero, -⟩ | ⟨k, hfree, hlt, hk, h⟩
  · replace hfree : p.freeObject = o :: rest := hfree
    have hcreate : p.create = some (o, { p with freeObject := rest }) := by
      unfold ObjectPoolAllocator.create ObjectPoolAllocator.pop
      simp only [hfree]
    rw [h, hcreate]
    rfl
  · replace hfree : p.freeObject = [] := hfree
    have hfullN := UInt64.le_iff_toNat_le.mp hfull
    have hcreate : p.create = none := by
      unfold ObjectPoolAllocator.create ObjectPoolAllocator.inc
      simp only [hfree]
      rw [if_pos (by omega), Option.bind_none]
    rw [h, hcreate]
    rfl
  · have hclamp := Base.ObjectPoolAllocator.toNat_clamp (UInt64.le_of_lt hlt)
      (show p.toBase.currentNum.toNat + p.toBase.onceIncNum.toNat < 2 ^ 64 by omega)
    have hltN := UInt64.lt_iff_toNat_lt.mp hlt
    omega
  · have hclamp := Base.ObjectPoolAllocator.toNat_clamp (UInt64.le_of_lt hlt)
      (show p.toBase.currentNum.toNat + p.toBase.onceIncNum.toNat < 2 ^ 64 by omega)
    have hltN := UInt64.lt_iff_toNat_lt.mp hlt
    replace hfree : p.freeObject = [] := hfree
    have hinc : p.inc p.onceIncNum = some { p with
        freeObject := p.currentNum :: List.range' (p.currentNum + 1) k
        currentNum := p.currentNum + (k + 1) } := by
      have hn : (if p.maxNum < p.currentNum + p.onceIncNum then p.maxNum - p.currentNum
          else p.onceIncNum) = k + 1 := by
        split <;> omega
      unfold ObjectPoolAllocator.inc
      rw [if_neg (by omega)]
      simp only [hn, hfree, List.nil_append, List.range'_succ]
    have hcreate : p.create = some (p.currentNum, { p with
        freeObject := List.range' (p.currentNum + 1) k
        currentNum := p.currentNum + (k + 1) }) := by
      unfold ObjectPoolAllocator.create
      simp only [hfree, hinc, Option.bind_some, ObjectPoolAllocator.pop]
    have hsum : p.toBase.currentNum + p.toBase.clamp p.toBase.onceIncNum =
        .ofNat (p.currentNum + (k + 1)) := by
      apply UInt64.toNat_inj.mp
      rw [UInt64.toNat_add, hk, hc, hnum _ (by omega), Nat.mod_eq_of_lt (by omega)]
    rw [h, hcreate, hsum]
    rfl

/-- The acceptor's pool, as the constructor makes it. -/
theorem new_toBase : (new 128 10240 128).toBase = .new 128 10240 128 := by
  decide

end ObjectPoolAllocator

/-! ## The acceptor -/

namespace Connections

def MAX_CONNECTION : Nat := 10240

/-- `netmgr::Acceptor` with its connections: `_eventHandlerAllocator`, and the rest. -/
structure Acceptor (Addr : Type) where
  net : Net Addr
  pool : ObjectPoolAllocator

namespace Acceptor

variable {Addr : Type}

/-- An acceptor without connections. -/
def start : Acceptor Addr := ⟨Net.start, .new 128 MAX_CONNECTION 128⟩

/-- The connections that are open. -/
def openCount (s : Acceptor Addr) : Nat :=
  (List.range s.net.handlers.length).countP fun c => s.net.Open c

/-- The names in `EventHandlerRegistry`. -/
def names (s : Acceptor Addr) : Set Addr := {addr | s.net.registry addr ≠ none}

/-- The pool after `CreateHandler` and, when `Open` fails, `DestroyHandler`. -/
def poolAfter (p : ObjectPoolAllocator) (added : Bool) : ObjectPoolAllocator :=
  match p.create with
  | none => p
  | some (o, p') => if added then p' else p'.destroy o

/-- A peer address that no open connection has. -/
def addrFree [DecidableEq Addr] (s : Net Addr) (addr : Addr) : Bool :=
  s.handlers.all fun hd => hd.peerAddr ≠ addr || s.kernel.fds hd.eventObject ≠ some hd.conn

/-- An event; a handler can be created when the pool has one. -/
def step [DecidableEq Addr] (s : Acceptor Addr) (e : Event Addr) : Option (Acceptor Addr) :=
  match e with
  | .accept _ addr created added =>
    if created = s.pool.create.isSome ∧ addrFree s.net addr then
      (s.net.step e).map fun net => ⟨net, poolAfter s.pool added⟩
    else none
  | _ => (s.net.step e).map fun net => ⟨net, s.pool⟩

/-- The objects out of the pool and the names in the registry are as many as the open connections,
and `CreateHandler` fails only when `MAX_CONNECTION` are open. -/
structure Balanced (s : Acceptor Addr) : Prop where
  handlers : s.pool.checkedOut = s.openCount
  names : s.names.encard = s.openCount
  capacity : s.pool.create = none → s.openCount = MAX_CONNECTION

end Acceptor

/-! ## What a step does -/

namespace Net

variable {Addr : Type} {s s' : Net Addr} {e : Event Addr}

theorem serve_runs {h : Conn} {f : Handler Addr → Kernel Addr → Option (Handler Addr × Kernel Addr)}
    (hf : ∀ hd k p, f hd k = some p → ∃ data, Handler.Runs { hd with sendbuffer := data } k p)
    (hs : s.serve h f = some s') : ∃ hd data p, s.handlers[h]? = some hd ∧
      Handler.Runs { hd with sendbuffer := data } s.kernel p ∧
      s' = { s with kernel := p.2, handlers := s.handlers.set h p.1 } := by
  obtain ⟨hd, p, hhd, hp, rfl⟩ := serve_eq hs
  obtain ⟨data, hr⟩ := hf hd s.kernel p hp
  exact ⟨hd, data, p, hhd, hr, rfl⟩

/-- A handler whose event has fired. -/
theorem runs_of_fired {fire : Handler Addr → Option (Handler Addr)}
    (hfire : ∀ {hd hd'}, fire hd = some hd' → ∃ context, hd' = { hd with context := context })
    {f : Handler Addr → Kernel Addr → Option (Handler Addr × Kernel Addr)}
    (hf : ∀ {hd k p}, f hd k = some p → hd.Runs k p) (hd : Handler Addr) (k : Kernel Addr)
    (p : Handler Addr × Kernel Addr) (h : (do f (← fire hd) k) = some p) :
    ∃ data, Handler.Runs { hd with sendbuffer := data } k p := by
  obtain ⟨hd', hfired, hp⟩ := Option.bind_eq_some_iff.mp h
  obtain ⟨context, rfl⟩ := hfire hfired
  obtain ⟨⟨context', n, hp'⟩, hends⟩ := hf hp
  exact ⟨hd.sendbuffer, ⟨context', n, hp'⟩, hends⟩

theorem fireRead_frame {hd hd' : Handler Addr} (h : hd.fireRead = some hd') :
    ∃ context, hd' = { hd with context := context } := by
  unfold Handler.fireRead at h
  split at h
  · cases h
    exact ⟨_, rfl⟩
  · cases h

theorem fireWrite_frame {hd hd' : Handler Addr} (h : hd.fireWrite = some hd') :
    ∃ context, hd' = { hd with context := context } := by
  unfold Handler.fireWrite at h
  split at h
  · cases h
    exact ⟨_, rfl⟩
  · cases h

theorem close_runs (hd : Handler Addr) (k : Kernel Addr) (p : Handler Addr × Kernel Addr)
    (h : some (hd.close k) = some p) : ∃ data, Handler.Runs { hd with sendbuffer := data } k p := by
  cases h
  exact ⟨hd.sendbuffer, Handler.removeHandler_runs _⟩

/-- A step other than an `accept`: nothing, or a handler runs. -/
theorem step_cases [DecidableEq Addr] (he : ∀ fd addr created added,
    e ≠ .accept fd addr created added) (hs : s.step e = some s') :
    s' = s ∨ ∃ h hd data p, s.handlers[h]? = some hd ∧
      Handler.Runs { hd with sendbuffer := data } s.kernel p ∧
      s' = { s with kernel := p.2, handlers := s.handlers.set h p.1 } := by
  cases e with
  | accept fd addr created added => exact absurd rfl (he fd addr created added)
  | input h r =>
    exact .inr ⟨h, serve_runs (runs_of_fired fireRead_frame Handler.handleInput_runs) hs⟩
  | output h r =>
    exact .inr ⟨h, serve_runs (runs_of_fired fireWrite_frame Handler.handleOutput_runs) hs⟩
  | readTimeout h =>
    exact .inr ⟨h, serve_runs (runs_of_fired (f := fun hd k => some (hd.close k)) fireRead_frame
      (fun hp => by cases hp; exact Handler.removeHandler_runs _)) hs⟩
  | writeTimeout h =>
    exact .inr ⟨h, serve_runs (runs_of_fired (f := fun hd k => some (hd.close k)) fireWrite_frame
      (fun hp => by cases hp; exact Handler.removeHandler_runs _)) hs⟩
  | push c addr encoded r =>
    simp only [step] at hs
    split at hs
    · split at hs
      · cases hs
        exact .inl rfl
      · cases hs
        exact .inl rfl
      · exact .inr ⟨_, serve_runs close_runs hs⟩
      · exact .inr ⟨_, serve_runs (fun hd k p hp => ⟨_, Handler.handleOutput_runs hp⟩) hs⟩
    · cases hs
  | close h => exact .inr ⟨h, serve_runs close_runs hs⟩

/-! ## While no connection is closed -/

/-- Every connection accepted is open, and registered under its address. -/
structure AllOpen (s : Net Addr) : Prop where
  table : ∀ {fd : Fd} {c : Conn}, s.kernel.fds fd = some c →
    ∃ hd, s.handlers[c]? = some hd ∧ hd.eventObject = fd
  conn : ∀ {h : Conn} {hd : Handler Addr}, s.handlers[h]? = some hd → hd.conn = h
  opened : ∀ {h : Conn} {hd : Handler Addr}, s.handlers[h]? = some hd →
    s.kernel.fds hd.eventObject = some h
  registered : ∀ {h : Conn} {hd : Handler Addr}, s.handlers[h]? = some hd →
    s.registry hd.peerAddr = some h
  named : ∀ {addr : Addr} {h : Conn}, s.registry addr = some h →
    ∃ hd, s.handlers[h]? = some hd ∧ hd.peerAddr = addr

/-- A connection that is closed, and stays so. -/
def SomeClosed (s : Net Addr) : Prop := ∃ c < s.handlers.length, ∀ fd, s.kernel.fds fd ≠ some c

theorem allOpen_start : (start : Net Addr).AllOpen :=
  ⟨fun h => by simp [start] at h, fun h => by simp [start] at h, fun h => by simp [start] at h,
    fun h => by simp [start] at h, fun h => by simp [start] at h⟩

/-- A handler runs and stays open. -/
theorem AllOpen.of_runs (ha : s.AllOpen) {h : Conn} {hd : Handler Addr}
    {data : List (Conn × UInt8)} {p : Handler Addr × Kernel Addr}
    (hhd : s.handlers[h]? = some hd)
    (hr : Handler.Runs { hd with sendbuffer := data } s.kernel p) (hfds : p.2.fds = s.kernel.fds) :
    AllOpen { s with kernel := p.2, handlers := s.handlers.set h p.1 } := by
  obtain ⟨context, n, hp⟩ := hr.frame
  have hlt := (List.getElem?_eq_some_iff.mp hhd).1
  have hset : (s.handlers.set h p.1)[h]? = some p.1 := List.getElem?_set_self hlt
  have hfd : p.1.eventObject = hd.eventObject := by rw [hp]
  have haddr : p.1.peerAddr = hd.peerAddr := by rw [hp]
  -- a handler keeps its place, descriptor and address
  have hkeep : ∀ {j : Conn} {y : Handler Addr}, s.handlers[j]? = some y →
      ∃ y', (s.handlers.set h p.1)[j]? = some y' ∧ y'.eventObject = y.eventObject ∧
        y'.peerAddr = y.peerAddr := by
    intro j y hy
    by_cases hj : j = h
    · rw [hj, hhd] at hy
      cases hy
      exact ⟨p.1, by rw [hj]; exact hset, hfd, haddr⟩
    · exact ⟨y, by rw [List.getElem?_set_ne (Ne.symm hj)]; exact hy, rfl, rfl⟩
  have hback : ∀ {j : Conn} {y' : Handler Addr}, (s.handlers.set h p.1)[j]? = some y' →
      ∃ y, s.handlers[j]? = some y ∧ y'.conn = y.conn ∧ y'.eventObject = y.eventObject ∧
        y'.peerAddr = y.peerAddr := by
    intro j y' hy'
    rcases getElem?_set_cases hy' with ⟨rfl, rfl⟩ | ⟨-, hy⟩
    · exact ⟨hd, hhd, by rw [hp], hfd, haddr⟩
    · exact ⟨y', hy, rfl, rfl, rfl⟩
  refine ⟨?_, ?_, ?_, ?_, ?_⟩
  · intro fd c hc
    obtain ⟨y, hy, hyfd⟩ := ha.table (hfds ▸ hc)
    obtain ⟨y', hy', hyfd', -⟩ := hkeep hy
    exact ⟨y', hy', hyfd'.trans hyfd⟩
  · intro j y' hy'
    obtain ⟨y, hy, hconn, -, -⟩ := hback hy'
    exact hconn.trans (ha.conn hy)
  · intro j y' hy'
    obtain ⟨y, hy, -, hyfd, -⟩ := hback hy'
    show p.2.fds y'.eventObject = some j
    rw [hfds, hyfd]
    exact ha.opened hy
  · intro j y' hy'
    obtain ⟨y, hy, -, -, hya⟩ := hback hy'
    show s.registry y'.peerAddr = some j
    rw [hya]
    exact ha.registered hy
  · intro addr j hj
    obtain ⟨y, hy, hya⟩ := ha.named hj
    obtain ⟨y', hy', -, hya'⟩ := hkeep hy
    exact ⟨y', hy', hya'.trans hya⟩

/-- A handler runs and closes its connection. -/
theorem AllOpen.someClosed (ha : s.AllOpen) {h : Conn} {hd : Handler Addr}
    {p : Handler Addr × Kernel Addr} (hhd : s.handlers[h]? = some hd)
    (hfds : p.2.fds = update s.kernel.fds hd.eventObject none) :
    SomeClosed { s with kernel := p.2, handlers := s.handlers.set h p.1 } := by
  refine ⟨h, ?_, ?_⟩
  · rw [List.length_set]
    exact (List.getElem?_eq_some_iff.mp hhd).1
  · intro fd hfd
    simp only [hfds] at hfd
    by_cases heq : fd = hd.eventObject
    · rw [heq, update_self] at hfd
      cases hfd
    · rw [update_of_ne heq] at hfd
      obtain ⟨y, hy, hyfd⟩ := ha.table hfd
      rw [hhd] at hy
      cases hy
      exact heq hyfd.symm

theorem SomeClosed.of_runs (hc : s.SomeClosed) {h : Conn} {hd : Handler Addr}
    {p : Handler Addr × Kernel Addr} (hr : hd.Runs s.kernel p) :
    SomeClosed { s with kernel := p.2, handlers := s.handlers.set h p.1 } := by
  obtain ⟨c, hlt, hfds⟩ := hc
  refine ⟨c, by rw [List.length_set]; exact hlt, fun fd hfd => ?_⟩
  rcases hr.ends with ⟨hsame, -⟩ | ⟨hclosed, -⟩
  · exact hfds fd (hsame ▸ hfd)
  · simp only [hclosed] at hfd
    by_cases heq : fd = hd.eventObject
    · rw [heq, update_self] at hfd
      cases hfd
    · rw [update_of_ne heq] at hfd
      exact hfds fd hfd

/-! ### Accepting -/

variable [DecidableEq Addr]

theorem step_accept {fd : Fd} {addr : Addr} {created added : Bool}
    (hs : s.step (.accept fd addr created added) = some s') :
    s.kernel.fds fd = none ∧ s' = s.accept fd addr created added := by
  simp only [step] at hs
  split at hs
  · rename_i hfd
    cases hs
    exact ⟨hfd, rfl⟩
  · cases hs

/-- As long as all connections are open, a new address is not registered. -/
theorem AllOpen.not_registered (ha : s.AllOpen) {addr : Addr}
    (hfree : Acceptor.addrFree s addr = true) : s.registry addr = none := by
  cases hreg : s.registry addr with
  | none => rfl
  | some h =>
    obtain ⟨hd, hhd, rfl⟩ := ha.named hreg
    have hall := List.all_eq_true.mp hfree hd (List.mem_of_getElem? hhd)
    have hopen := ha.opened hhd
    rw [← ha.conn hhd] at hopen
    simp [hopen] at hall

theorem closes_accept (fd : Fd) (addr : Addr) (created added : Bool) :
    (s.accept fd addr created added).kernel.closes = s.kernel.closes := by
  unfold accept
  split
  · rfl
  · dsimp only
    split
    · rfl
    · rfl

/-- A handler is there for good as soon as it is created and opened. -/
theorem length_accept (fd : Fd) (addr : Addr) (created added : Bool) :
    (s.accept fd addr created added).handlers.length =
      s.handlers.length + if created && added then 1 else 0 := by
  unfold accept
  cases created with
  | false => rfl
  | true =>
    cases added with
    | false => rfl
    | true => exact List.length_append

theorem AllOpen.accept (ha : s.AllOpen) {fd : Fd} {addr : Addr} (created added : Bool)
    (hfd : s.kernel.fds fd = none) (hfree : Acceptor.addrFree s addr = true) :
    (s.accept fd addr created added).AllOpen := by
  have hnew := ha.not_registered hfree
  unfold Net.accept
  cases created with
  | false => exact ha
  | true =>
    rw [if_neg (by simp)]
    dsimp only
    rw [if_pos hnew]
    cases added with
    | false =>
      -- `DestroyHandler` takes out the name that `CreateHandler` has put in
      simp only [Bool.false_eq_true, not_false_eq_true, if_true, update_idem]
      rw [← hnew, update_eq_self]
      exact ha
    | true =>
      have hold : ∀ {j : Conn} {y : Handler Addr}, s.handlers[j]? = some y →
          ∀ x, (s.handlers ++ [x])[j]? = some y := by
        intro j y hy x
        rw [List.getElem?_append_left (List.getElem?_eq_some_iff.mp hy).1]
        exact hy
      simp only [not_true_eq_false, if_false]
      refine ⟨?_, ?_, ?_, ?_, ?_⟩
      · intro fd' c hc
        dsimp only at hc ⊢
        by_cases heq : fd' = fd
        · rw [heq, update_self] at hc
          cases hc
          exact ⟨_, List.getElem?_concat_length, heq.symm⟩
        · rw [update_of_ne heq] at hc
          obtain ⟨y, hy, hyfd⟩ := ha.table hc
          exact ⟨y, hold hy _, hyfd⟩
      · intro j y hy
        rcases getElem?_append_cases hy with ⟨rfl, rfl⟩ | ⟨-, hy⟩
        · rfl
        · exact ha.conn hy
      · intro j y hy
        dsimp only
        rcases getElem?_append_cases hy with ⟨rfl, rfl⟩ | ⟨-, hy⟩
        · exact update_self ..
        · have hopen := ha.opened hy
          rw [update_of_ne]
          · exact hopen
          · intro heq
            rw [heq, hfd] at hopen
            cases hopen
      · intro j y hy
        dsimp only
        rcases getElem?_append_cases hy with ⟨rfl, rfl⟩ | ⟨-, hy⟩
        · exact update_self ..
        · have hreg := ha.registered hy
          rw [update_of_ne]
          · exact hreg
          · intro heq
            rw [heq, hnew] at hreg
            cases hreg
      · intro addr' j hj
        dsimp only at hj ⊢
        by_cases heq : addr' = addr
        · rw [heq, update_self] at hj
          cases hj
          exact ⟨_, List.getElem?_concat_length, heq.symm⟩
        · rw [update_of_ne heq] at hj
          obtain ⟨y, hy, hya⟩ := ha.named hj
          exact ⟨y, hold hy _, hya⟩

theorem SomeClosed.accept (hc : s.SomeClosed) (fd : Fd) (addr : Addr) (created added : Bool) :
    (s.accept fd addr created added).SomeClosed := by
  obtain ⟨c, hlt, hfds⟩ := hc
  unfold Net.accept
  split
  · exact ⟨c, hlt, hfds⟩
  · dsimp only
    split
    · exact ⟨c, hlt, hfds⟩
    · refine ⟨c, ?_, fun fd' hfd' => ?_⟩
      · rw [List.length_append]
        exact Nat.lt_add_right _ hlt
      · dsimp only at hfd'
        by_cases heq : fd' = fd
        · rw [heq, update_self] at hfd'
          cases hfd'
          exact Nat.lt_irrefl _ hlt
        · rw [update_of_ne heq] at hfd'
          exact hfds fd' hfd'

end Net

/-! ## The counts -/

namespace Acceptor

variable {Addr : Type} [DecidableEq Addr] {s s' : Acceptor Addr} {e : Event Addr}

/-- What holds in every state: an object is out of the pool for every connection accepted so far;
all are open and registered until one is closed, and then one is closed for good. -/
structure Counts (s : Acceptor Addr) : Prop where
  valid : s.pool.Valid
  maxNum : s.pool.maxNum = MAX_CONNECTION
  out : s.pool.checkedOut = s.net.handlers.length
  closes : s.net.kernel.closes = [] ∧ s.net.AllOpen ∨
    s.net.kernel.closes ≠ [] ∧ s.net.SomeClosed

omit [DecidableEq Addr] in
theorem counts_start : (start : Acceptor Addr).Counts := by
  obtain ⟨hv, hout, hmax⟩ := @ObjectPoolAllocator.valid_new 128 MAX_CONNECTION 128
    (by decide) (by decide)
  exact ⟨hv, hmax, hout, .inl ⟨rfl, Net.allOpen_start⟩⟩

theorem poolAfter_valid {p : ObjectPoolAllocator} (hv : p.Valid) (added : Bool) :
    (poolAfter p added).Valid ∧ (poolAfter p added).maxNum = p.maxNum ∧
      (poolAfter p added).checkedOut =
        p.checkedOut + if p.create.isSome && added then 1 else 0 := by
  unfold poolAfter
  cases hc : p.create with
  | none => exact ⟨hv, rfl, rfl⟩
  | some op =>
    obtain ⟨o, p'⟩ := op
    obtain ⟨hv', hout, hmax⟩ := hv.create hc
    cases added with
    | true => exact ⟨hv', hmax, hout⟩
    | false =>
      obtain ⟨hv'', hout'⟩ := hv'.destroy (o := o) (by omega)
      refine ⟨hv'', hmax, ?_⟩
      show (p'.destroy o).checkedOut = p.checkedOut + 0
      omega

theorem Counts.accept (hc : s.Counts) {fd : Fd} {addr : Addr} (added : Bool)
    (hfd : s.net.kernel.fds fd = none) (hfree : addrFree s.net addr = true) :
    Counts ⟨s.net.accept fd addr s.pool.create.isSome added, poolAfter s.pool added⟩ := by
  obtain ⟨hv, hmax, hout⟩ := poolAfter_valid hc.valid added
  refine ⟨hv, hmax.trans hc.maxNum, ?_, ?_⟩
  · show (poolAfter s.pool added).checkedOut = (Net.accept ..).handlers.length
    rw [hout, Net.length_accept, hc.out]
  · show (Net.accept ..).kernel.closes = [] ∧ _ ∨ (Net.accept ..).kernel.closes ≠ [] ∧ _
    rw [Net.closes_accept]
    rcases hc.closes with ⟨hnil, ha⟩ | ⟨hne, hsome⟩
    · exact .inl ⟨hnil, ha.accept _ _ hfd hfree⟩
    · exact .inr ⟨hne, hsome.accept _ _ _ _⟩

omit [DecidableEq Addr] in
/-- A handler runs; the pool does not notice. -/
theorem Counts.runs (hc : s.Counts) {h : Conn} {hd : Handler Addr} {data : List (Conn × UInt8)}
    {p : Handler Addr × Kernel Addr} (hhd : s.net.handlers[h]? = some hd)
    (hr : Handler.Runs { hd with sendbuffer := data } s.net.kernel p) :
    Counts ⟨{ s.net with kernel := p.2, handlers := s.net.handlers.set h p.1 }, s.pool⟩ := by
  refine ⟨hc.valid, hc.maxNum, by rw [List.length_set]; exact hc.out, ?_⟩
  dsimp only
  rcases hc.closes with ⟨hnil, ha⟩ | ⟨hne, hsome⟩
  · rcases hr.ends with ⟨hfds, hcl⟩ | ⟨hfds, hcl⟩
    · exact .inl ⟨hcl.trans hnil, ha.of_runs hhd hr hfds⟩
    · exact .inr ⟨by rw [hcl]; simp, ha.someClosed hhd hfds⟩
  · refine .inr ⟨?_, hsome.of_runs hr⟩
    rcases hr.ends with ⟨-, hcl⟩ | ⟨-, hcl⟩
    · rw [hcl]
      exact hne
    · rw [hcl]
      simp

theorem Counts.step (hc : s.Counts) (hs : Acceptor.step s e = some s') : s'.Counts := by
  by_cases he : ∃ fd addr created added, e = .accept fd addr created added
  · obtain ⟨fd, addr, created, added, rfl⟩ := he
    simp only [Acceptor.step] at hs
    split at hs
    · rename_i hguard
      obtain ⟨net, hnet, rfl⟩ := Option.map_eq_some_iff.mp hs
      obtain ⟨hfd, rfl⟩ := Net.step_accept hnet
      rw [hguard.1]
      exact hc.accept added hfd hguard.2
    · cases hs
  · have hne : ∀ fd addr created added, e ≠ .accept fd addr created added :=
      fun fd addr created added heq => he ⟨fd, addr, created, added, heq⟩
    have hstep : (s.net.step e).map (fun net => Acceptor.mk net s.pool) = some s' := by
      cases e with
      | accept fd addr created added => exact absurd rfl (hne fd addr created added)
      | _ => exact hs
    obtain ⟨net, hnet, rfl⟩ := Option.map_eq_some_iff.mp hstep
    rcases Net.step_cases hne hnet with rfl | ⟨h, hd, data, p, hhd, hr, rfl⟩
    · exact hc
    · exact hc.runs hhd hr

theorem counts_of_reach (hr : Machine.Reach step Machine.free start s) : s.Counts :=
  hr.inv counts_start fun hc _ hs => hc.step hs

/-! ## Balance -/

omit [DecidableEq Addr] in
theorem openCount_of_allOpen (ha : s.net.AllOpen) : s.openCount = s.net.handlers.length := by
  unfold openCount
  have hall : ∀ c ∈ List.range s.net.handlers.length, decide (s.net.Open c) = true := by
    intro c hc
    have hlt := List.mem_range.mp hc
    have hhd : s.net.handlers[c]? = some s.net.handlers[c] := List.getElem?_eq_getElem hlt
    exact decide_eq_true ⟨_, hhd, ha.opened hhd⟩
  rw [List.countP_eq_length.mpr hall, List.length_range]

omit [DecidableEq Addr] in
theorem openCount_of_someClosed (hc : s.net.SomeClosed) :
    s.openCount < s.net.handlers.length := by
  obtain ⟨c, hlt, hfds⟩ := hc
  have hcount : (List.range s.net.handlers.length).countP (fun c => decide (s.net.Open c)) <
      (List.range s.net.handlers.length).length := by
    refine List.countP_lt_length_iff.mpr ⟨c, List.mem_range.mpr hlt, ?_⟩
    refine decide_eq_false ?_
    rintro ⟨hd, -, hfd⟩
    exact hfds _ hfd
  rwa [List.length_range] at hcount

omit [DecidableEq Addr] in
/-- The names are the addresses of the handlers. -/
theorem encard_names (ha : s.net.AllOpen) : s.names.encard = s.net.handlers.length := by
  let addrOf : Fin s.net.handlers.length → Addr := fun i => (s.net.handlers.get i).peerAddr
  have hget : ∀ i : Fin s.net.handlers.length,
      s.net.handlers[(i : Nat)]? = some (s.net.handlers.get i) :=
    fun i => List.getElem?_eq_getElem i.isLt
  have hinj : Injective addrOf := by
    intro i j hij
    have hi := ha.registered (hget i)
    have hj := ha.registered (hget j)
    have : some (i : Nat) = some (j : Nat) := by
      rw [← hi, ← hj]
      exact congrArg s.net.registry hij
    exact Fin.ext (Option.some.inj this)
  have hrange : s.names = Set.range addrOf := by
    ext addr
    constructor
    · intro hne
      obtain ⟨h, hreg⟩ := Option.ne_none_iff_exists'.mp hne
      obtain ⟨hd, hhd, rfl⟩ := ha.named hreg
      obtain ⟨hlt, heq⟩ := List.getElem?_eq_some_iff.mp hhd
      exact ⟨⟨h, hlt⟩, congrArg Handler.peerAddr heq⟩
    · rintro ⟨i, rfl⟩ hnone
      rw [ha.registered (hget i)] at hnone
      cases hnone
  rw [hrange, ← Set.image_univ, hinj.encard_image, Set.encard_univ]
  simp

/-- **The capacity is not used up** exactly as long as no connection is closed: the objects out of
the pool and the names in the registry are as many as the open connections, and no handler can be
created only when `MAX_CONNECTION` are open. -/
theorem balanced_iff (hr : Machine.Reach step Machine.free start s) :
    s.Balanced ↔ s.net.kernel.closes = [] := by
  have hc := counts_of_reach hr
  rcases hc.closes with ⟨hnil, ha⟩ | ⟨hne, hsome⟩
  · refine iff_of_true ⟨?_, ?_, ?_⟩ hnil
    · rw [hc.out, openCount_of_allOpen ha]
    · rw [encard_names ha, openCount_of_allOpen ha]
    · intro hnone
      rw [openCount_of_allOpen ha, ← hc.out, hc.valid.create_eq_none hnone, hc.maxNum]
  · refine iff_of_false (fun hb => ?_) hne
    have hlt := openCount_of_someClosed hsome
    have hout := hb.handlers
    rw [hc.out] at hout
    omega

/-- One connection is accepted. -/
def acceptOne : Event Nat := .accept 5 80 true true

/-- Two connections are accepted, and a request of the first is answered. -/
def answerOne : List (Event Nat) :=
  [acceptOne, .accept 6 81 true true, .input 0 (.received 1 true true),
    .push 0 80 (some [65, 66]) (.sent 2 true)]

theorem balanced_two : ∃ s : Acceptor Nat,
    Machine.Reach step Machine.free start s ∧ s.openCount = 2 ∧
      s.net.kernel.writes = [⟨5, some 0, [(0, 65), (0, 66)]⟩] ∧ s.Balanced := by
  have hrun : ∃ s, Machine.run step (fun _ _ => true) answerOne start = some s ∧
      s.openCount = 2 ∧ s.net.kernel.writes = [⟨5, some 0, [(0, 65), (0, 66)]⟩] ∧
      s.net.kernel.closes = [] := ⟨_, rfl, rfl, rfl, rfl⟩
  obtain ⟨s, hrun, hopen, hwrites, hnil⟩ := hrun
  have hr := Machine.reach_of_run _ hrun
  exact ⟨s, hr, hopen, hwrites, (balanced_iff hr).mpr hnil⟩

/-- It is closed by its peer: its handler stays out of the pool. -/
theorem not_balanced :
    ¬ ∀ s : Acceptor Nat, Machine.Reach step Machine.free start s → s.Balanced := by
  intro hall
  have hrun : ∃ s, Machine.run step (fun _ _ => true) [acceptOne, .input 0 .closed] start = some s ∧
      s.net.handlers.length = 1 ∧ s.openCount = 0 := ⟨_, rfl, rfl, rfl⟩
  obtain ⟨s, hrun, hlen, hopen⟩ := hrun
  have hr := Machine.reach_of_run _ hrun
  have hout := (counts_of_reach hr).out
  have hb := (hall s hr).handlers
  omega

end Acceptor

end Connections

end Domq.Netmgr

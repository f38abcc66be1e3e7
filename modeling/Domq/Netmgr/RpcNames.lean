import Domq.Lib.Search

/-!
# The names of JSON-RPC methods

`JsonRpcCoder` (`netmgr/coder.cpp`) finds the class of a message by the name of its method and the
method by the name of the class: `RegisterName`, `GetMethodName`, `GetReqClassName` and
`GetResClassName`. Names are any byte strings, and a `std::map` is the function its lookups
compute.

* A name that was not registered gets a default: the method and `"Request"` or `"Result"`, and back
  by cutting off what follows the last `"Request"`, or else the last `"Result"`.
* `RegisterName` refuses a name when `find` returns `end()`, which is when it is *not* registered.

Results:
* `default_roundTrip_iff`: the defaults lead back to the method exactly when it does not contain the
  word `Request`.
* `register_new`: a new coder refuses every registration and stays as it is, so that no sequence of
  calls but the empty one is answered as it should be (`registrations_conform_iff`).
-/

namespace Domq.Netmgr

open Domq.Lib Function

/-- The maps of a `JsonRpcCoder`. -/
structure JsonRpcCoder where
  method2Class : Bytes → Option (Bytes × Bytes)
  req2method : Bytes → Option Bytes
  res2method : Bytes → Option Bytes

namespace JsonRpcCoder

/-- A new coder. -/
def new : JsonRpcCoder := ⟨fun _ => none, fun _ => none, fun _ => none⟩

/-- `RegisterName`. -/
def registerName (method req res : Bytes) (c : JsonRpcCoder) : Int × JsonRpcCoder :=
  if c.method2Class method = none then (-1, c)
  else if c.req2method req = none then (-1, c)
  else if c.res2method res = none then (-1, c)
  else (0, {
    method2Class := update c.method2Class method (some (req, res))
    req2method := update c.req2method req (some method)
    res2method := update c.res2method res (some method) })

/-- `GetMethodName`. -/
def getMethodName (c : JsonRpcCoder) (className : Bytes) : Bytes :=
  match c.req2method className with
  | some method => method
  | none =>
    match c.res2method className with
    | some method => method
    | none =>
      match rfind (ascii "Request") className with
      | some pos => className.take pos
      | none =>
        match rfind (ascii "Result") className with
        | some pos => className.take pos
        | none => className

/-- `GetReqClassName`. -/
def getReqClassName (c : JsonRpcCoder) (method : Bytes) : Bytes :=
  match c.method2Class method with
  | some (req, _) => req
  | none => method ++ ascii "Request"

/-- `GetResClassName`. -/
def getResClassName (c : JsonRpcCoder) (method : Bytes) : Bytes :=
  match c.method2Class method with
  | some (_, res) => res
  | none => method ++ ascii "Result"

/-! ## The default names -/

@[simp] theorem getReqClassName_new (m : Bytes) :
    new.getReqClassName m = m ++ ascii "Request" := rfl

@[simp] theorem getResClassName_new (m : Bytes) :
    new.getResClassName m = m ++ ascii "Result" := rfl

theorem getMethodName_new (className : Bytes) :
    new.getMethodName className =
      className.take (((rfind (ascii "Request") className).or
        (rfind (ascii "Result") className)).getD className.length) := by
  simp only [getMethodName, new]
  rcases rfind (ascii "Request") className with - | i
  · rcases rfind (ascii "Result") className with - | j
    · simp
    · rfl
  · rfl

/-- The default request class leads back to the method. -/
theorem getMethodName_request (m : Bytes) :
    new.getMethodName (new.getReqClassName m) = m := by
  rw [getReqClassName_new, getMethodName_new, rfind_append_self (by decide)]
  simp

/-- `"Result"` behind a text makes no `"Request"`. -/
theorem request_infix_result {m : Bytes} :
    ascii "Request" <:+: m ++ ascii "Result" ↔ ascii "Request" <:+: m := by
  constructor
  · exact infix_of_infix_append (by decide) (by decide)
  · intro h
    exact h.trans (List.prefix_append m _).isInfix

/-- The default result class leads back to the method unless the method contains `"Request"`. -/
theorem getMethodName_result_iff (m : Bytes) :
    new.getMethodName (new.getResClassName m) = m ↔ ¬ ascii "Request" <:+: m := by
  rw [getResClassName_new, getMethodName_new, ← request_infix_result, ← rfind_eq_none_iff]
  rcases h : rfind (ascii "Request") (m ++ ascii "Result") with - | i
  · rw [Option.none_or, rfind_append_self (by decide)]
    simp
  · -- `"Request"` is longer than `"Result"`, so that it starts inside the method and cuts it short
    have hlen := rfind_add_length_le h
    simp only [Option.some_or, Option.getD_some, reduceCtorEq, iff_false]
    intro heq
    have hm := congrArg List.length heq
    simp only [List.length_take, List.length_append] at hm hlen
    have h7 : (ascii "Request").length = 7 := by decide
    have h6 : (ascii "Result").length = 6 := by decide
    omega

/-- **Default names.** Both defaults lead back to the method exactly when the method does not
contain the word `Request`. -/
theorem default_roundTrip_iff (m : Bytes) :
    (new.getMethodName (new.getReqClassName m) = m ∧
      new.getMethodName (new.getResClassName m) = m) ↔ ¬ ascii "Request" <:+: m := by
  rw [getMethodName_result_iff]
  exact ⟨And.right, fun h => ⟨getMethodName_request m, h⟩⟩

/-- The result of the method `Request` names no method. -/
theorem default_roundTrip_request :
    ¬ ∀ m, new.getMethodName (new.getReqClassName m) = m ∧
      new.getMethodName (new.getResClassName m) = m := by
  intro h
  exact absurd (h (ascii "Request")).2 (by decide)

/-! ## Registered names -/

/-- The arguments of `RegisterName`. -/
structure Registration where
  method : Bytes
  req : Bytes
  res : Bytes

/-- The result of a call, and the coder after it. -/
def register (r : Registration) (c : JsonRpcCoder) : Int × JsonRpcCoder :=
  c.registerName r.method r.req r.res

/-- A new coder after a sequence of calls. -/
def after (calls : List Registration) : JsonRpcCoder :=
  calls.foldl (fun c r => (c.register r).2) new

/-- `r` is one of the calls and was answered with `0`. -/
def Registered (calls : List Registration) (r : Registration) : Prop :=
  ∃ before, before ++ [r] <+: calls ∧ ((after before).register r).1 = 0

/-- All lookups give the same. -/
def SameLookups (c c' : JsonRpcCoder) : Prop :=
  ∀ name, c.getMethodName name = c'.getMethodName name ∧
    c.getReqClassName name = c'.getReqClassName name ∧
    c.getResClassName name = c'.getResClassName name

/-- How a call is to be answered after others: with `0` if its three names are new, and then they
are looked up; otherwise nothing changes. -/
structure Answered (before : List Registration) (r : Registration) : Prop where
  zero_iff : ((after before).register r).1 = 0 ↔
    ∀ q, Registered before q → q.method ≠ r.method ∧ q.req ≠ r.req ∧ q.res ≠ r.res
  lookups : ((after before).register r).1 = 0 →
    (after (before ++ [r])).getReqClassName r.method = r.req ∧
    (after (before ++ [r])).getResClassName r.method = r.res ∧
    (after (before ++ [r])).getMethodName r.req = r.method ∧
    ((∀ q, Registered (before ++ [r]) q → q.req ≠ r.res) →
      (after (before ++ [r])).getMethodName r.res = r.method)
  kept : ((after before).register r).1 ≠ 0 →
    ((after before).register r).1 = -1 ∧ SameLookups (after before) (after (before ++ [r]))

/-- Every call of a sequence is answered as it is to be. -/
def Conform (calls : List Registration) : Prop :=
  ∀ before r, before ++ [r] <+: calls → Answered before r

theorem register_fails_or (r : Registration) (c : JsonRpcCoder) :
    (c.register r = (-1, c)) ∨
      ((c.register r).1 = 0 ∧ c.method2Class r.method ≠ none ∧ c.req2method r.req ≠ none ∧
        c.res2method r.res ≠ none) := by
  unfold register registerName
  by_cases h₁ : c.method2Class r.method = none
  · exact Or.inl (if_pos h₁)
  · by_cases h₂ : c.req2method r.req = none
    · exact Or.inl (by rw [if_neg h₁, if_pos h₂])
    · by_cases h₃ : c.res2method r.res = none
      · exact Or.inl (by rw [if_neg h₁, if_neg h₂, if_pos h₃])
      · exact Or.inr ⟨by rw [if_neg h₁, if_neg h₂, if_neg h₃], h₁, h₂, h₃⟩

/-- **A failed registration changes nothing.** -/
theorem register_eq_of_ne_zero {r : Registration} {c : JsonRpcCoder} (h : (c.register r).1 ≠ 0) :
    c.register r = (-1, c) := by
  rcases register_fails_or r c with hf | ⟨h0, -⟩
  · exact hf
  · exact absurd h0 h

/-- **A new coder registers nothing.** -/
theorem register_new (r : Registration) : new.register r = (-1, new) := by
  rcases register_fails_or r new with hf | ⟨-, hm, -⟩
  · exact hf
  · exact absurd rfl hm

theorem after_eq_new (calls : List Registration) : after calls = new := by
  unfold after
  induction calls with
  | nil => rfl
  | cons r calls ih => rw [List.foldl_cons, register_new, ih]

theorem not_registered (calls : List Registration) (r : Registration) : ¬ Registered calls r := by
  rintro ⟨before, -, h⟩
  rw [after_eq_new, register_new] at h
  exact absurd h (by decide)

/-- **Registrations.** A sequence of calls on a new coder is answered as it is to be only if it is
empty: the first call of any other has three new names and fails. -/
theorem registrations_conform_iff (calls : List Registration) : Conform calls ↔ calls = [] := by
  constructor
  · intro h
    rcases calls with - | ⟨r, calls⟩
    · rfl
    · have ha : Answered [] r := h [] r ⟨calls, rfl⟩
      have hzero : ((after []).register r).1 = 0 :=
        ha.zero_iff.mpr fun q hq => absurd hq (not_registered [] q)
      rw [after_eq_new, register_new] at hzero
      exact absurd hzero (by decide)
  · rintro rfl before r hb
    have := hb.length_le
    simp at this

/-- The first registration of a server fails. -/
theorem registrations_open_fail :
    ¬ ∀ calls : List Registration, Conform calls := by
  intro h
  have hc := h [⟨ascii "Open", ascii "OpenMsgQueueRequest", ascii "OpenMsgQueueResult"⟩]
  have ha := hc [] _ (List.prefix_refl _)
  have hzero := ha.zero_iff.mpr fun q hq => absurd hq (not_registered [] q)
  exact absurd hzero (by decide)

end JsonRpcCoder

end Domq.Netmgr
